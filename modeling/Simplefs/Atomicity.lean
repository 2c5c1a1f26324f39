import Simplefs.RoundTrip

/-! # Failed writes

`SetMultiLevel` returns an error from compression, before anything changes, or from
`MappingUpdater`, after the reclamation, the file write and the registration of the
variant, none of which is undone.
-/
namespace Simplefs.Provider

/-- What a `SetMultiLevel` that returns an error leaves: the provider untouched after a
compression error; after a `MappingUpdater` error, the state the reclamation, the file write
and the registration produced, with the mapping record read but not written. -/
theorem setMultiLevel_error {env : Env} {fuel : Nat} {p q : Provider} {a : Variant} {e : String}
    (h : p.setMultiLevel env fuel a = some (some e, q)) :
    (compress env p.compression a.value = .error e ∧ q = p) ∨
      ∃ data r, compress env p.compression a.value = .ok data ∧
        p.recoverEnoughSpaceIfNeeded fuel data.length = some r ∧
        env.writeOk (p.joinedFP a.variedKey) = true ∧
        q = ((r.register a.variedKey data a.duration).getIndex (mappingKey a.baseKey)).2 := by
  rcases setMultiLevel_cases h with ⟨e', hc, he, rfl⟩ | ⟨data, r, hc, hr, ⟨-, he, -⟩ | ⟨hw, hq⟩⟩
  · cases he
    exact .inl ⟨hc, rfl⟩
  · cases he
  · refine .inr ⟨data, r, hc, hr, hw, ?_⟩
    have he : (updateMapping env (r.register a.variedKey data a.duration) a p.now).1.isSome := by
      rw [hq]; rfl
    rw [← updateMapping_of_error he, hq]

/-- `plainStart` with an undecodable mapping record for `b`, put there by a plain `Set`. -/
def corruptStart : Provider := plainStart.set (mappingKey (utf8 "b")) [7] 10000000000

def corruptWritten : Provider :=
  ((corruptStart.setMultiLevel Env.reference 1 plainVariant).map (·.2)).getD corruptStart

theorem corruptStart_setMultiLevel :
    corruptStart.setMultiLevel Env.reference 1 plainVariant = some (some "undecodable mapping record", corruptWritten) :=
  rfl

/-- `setMultiLevel_error` on the write over the undecodable record: the error comes from the
merge, after the file was written. -/
theorem corrupt_write_error :
    corruptStart.setMultiLevel Env.reference 1 plainVariant = some (some "undecodable mapping record", corruptWritten) ∧
      ∃ data r, compress Env.reference corruptStart.compression plainVariant.value = .ok data ∧
        corruptStart.recoverEnoughSpaceIfNeeded 1 data.length = some r ∧
        Env.reference.writeOk (corruptStart.joinedFP plainVariant.variedKey) = true ∧
        corruptWritten = ((r.register plainVariant.variedKey data plainVariant.duration).getIndex
          (mappingKey plainVariant.baseKey)).2 :=
  ⟨corruptStart_setMultiLevel, (setMultiLevel_error corruptStart_setMultiLevel).resolve_left fun h => by
    have hc : compress Env.reference corruptStart.compression plainVariant.value = .ok plainVariant.value := rfl
    rw [hc] at h
    cases h.1⟩

/-- The write over the undecodable record returns an error, yet leaves the variant's file,
which was not there before. -/
theorem failed_merge_keeps_file :
    corruptStart.setMultiLevel Env.reference 1 plainVariant = some (some "undecodable mapping record", corruptWritten) ∧
      corruptStart.fs.lookup (corruptStart.joinedFP plainVariant.variedKey) = none ∧
      corruptWritten.fs.lookup (corruptStart.joinedFP plainVariant.variedKey) = some (utf8 "a") :=
  ⟨corruptStart_setMultiLevel, by decide, by decide⟩

end Simplefs.Provider
