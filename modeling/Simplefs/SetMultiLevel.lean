import Simplefs.Provider

/-! # SetMultiLevel

Compress, make room, write the file, register its path, merge the variant into the record.
The rounds of `recoverEnoughSpaceIfNeeded` run here with nothing in between and get `fuel`;
`Interleaving` makes each round a step, with the sweeper free to run between rounds.
-/
namespace Simplefs

/-- The arguments of one `SetMultiLevel` call. -/
structure Variant where
  baseKey : Bytes
  variedKey : Bytes
  value : Bytes
  variedHeaders : Headers
  etag : Bytes
  duration : Int
  realKey : Bytes

/-- What a call returns: the error, `none` for nil. -/
abbrev Outcome := Option String

/-- The bytes `SetMultiLevel` stores under the configured method: zstd, lz4 for `"lz4"`
and `""` alike, and for any other name the payload itself. -/
def compress (env : Env) (compression value : Bytes) : Except String Bytes :=
  if compression = utf8 "zstd" then env.zstdWrite value
  else if compression = utf8 "lz4" ∨ compression = [] then env.lz4Write value
  else .ok value

/-- `-(2·time.Now().Nanosecond())` seconds, the TTL of a written mapping record, in
nanoseconds (`Nanosecond()` is the clock modulo `10^9`). `time.ParseDuration` accepts it: its
size is below `2·10^18` ns. -/
def negativeNow (now : Int) : Int := -(2 * (now % 1000000000)) * 1000000000

namespace Provider

/-- `filepath.Join(provider.path, url.PathEscape(key))`. -/
def joinedFP (p : Provider) (key : Bytes) : Bytes := join p.path (pathEscape key)

/-- The test of `recoverEnoughSpaceIfNeeded`: a budget is set and the write would pass it. -/
def overBudget (p : Provider) (size : Int) : Bool :=
  -1 < p.directorySize && p.directorySize < p.actualSize + size

/-- One `RangeBackwards` visit: the least recently used live item is found, and
`cache.Delete` is called with its value, the stored path, and not with its key. -/
def reclaimOne (p : Provider) : Provider :=
  match p.index.lastLive p.now with
  | some i => p.delete i.2.value
  | none => p

/-- `recoverEnoughSpaceIfNeeded`, for at most `fuel` calls, with nothing else moving between
rounds: the Go recursion holds no lock, so this is the call run alone; `Phase.reclaim` makes
each round a step of a schedule, where the sweeper can run between rounds. -/
def recoverEnoughSpaceIfNeeded : Nat → Provider → Int → Option Provider
  | 0, _, _ => none
  | fuel + 1, p, size =>
    if p.overBudget size then recoverEnoughSpaceIfNeeded fuel p.reclaimOne size else some p

/-- `os.WriteFile(joinedFP, ...)` followed by `cache.Set(key, []byte(joinedFP), duration)`. -/
def register (p : Provider) (key data : Bytes) (duration : Int) : Provider :=
  { p with fs := p.fs.writeFile (p.joinedFP key) data }.setIndex key (p.joinedFP key) duration

/-- Reclaim, write the file, register its path: the flag says whether `os.WriteFile`
succeeded (when it fails, `SetMultiLevel` returns nil at once). -/
def writeVariant (env : Env) (fuel : Nat) (p : Provider) (key data : Bytes) (duration : Int) :
    Option (Bool × Provider) :=
  (recoverEnoughSpaceIfNeeded fuel p data.length).map fun q =>
    if env.writeOk (q.joinedFP key) then (true, q.register key data duration) else (false, q)

/-- Read the base key's mapping record (absent: empty), merge the variant in with
`core.MappingUpdater`, and write the record back with TTL `negativeNow`. -/
def updateMapping (env : Env) (p : Provider) (a : Variant) (now : Int) : Outcome × Provider :=
  let r := p.getIndex (mappingKey a.baseKey)
  match env.mappingUpdater ⟨a.variedKey, ((r.1.map (·.value)).getD []), now, now + a.duration,
      now + a.duration + p.stale, a.variedHeaders, a.etag, a.realKey⟩ with
  | .error e => (some e, r.2)
  | .ok val => (none, r.2.setIndex (mappingKey a.baseKey) val (negativeNow r.2.now))

/-- `SetMultiLevel`. -/
def setMultiLevel (env : Env) (fuel : Nat) (p : Provider) (a : Variant) : Option (Outcome × Provider) :=
  match compress env p.compression a.value with
  | .error e => some (some e, p)
  | .ok data =>
    (writeVariant env fuel p a.variedKey data a.duration).map fun r =>
      if r.1 then updateMapping env r.2 a p.now else (none, r.2)

/-! ## Reclamation removes entries and nothing else -/

/-- Every key keeps its entry or loses it. -/
def Shrinks (p q : Provider) : Prop := ∀ x, q.index.lookup x = p.index.lookup x ∨ q.index.lookup x = none

theorem Shrinks.refl (p : Provider) : Shrinks p p := fun _ => .inl rfl

theorem Shrinks.trans {p q r : Provider} (h₁ : Shrinks p q) (h₂ : Shrinks q r) : Shrinks p r := by
  intro x
  rcases h₂ x with h | h
  · exact h ▸ h₁ x
  · exact .inr h

theorem delete_shrinks (p : Provider) (key : Bytes) : Shrinks p (p.delete key) := by
  intro x
  by_cases h : x = key
  · subst h; right; simp [delete]
  · left; simp [delete, h]

theorem reclaimOne_spec (p : Provider) : Fixed p p.reclaimOne ∧ Shrinks p p.reclaimOne := by
  unfold reclaimOne; split
  · exact ⟨fixed_apply _ _, delete_shrinks _ _⟩
  · exact ⟨Fixed.refl p, Shrinks.refl p⟩

theorem recover_spec {fuel : Nat} {p q : Provider} {size : Int}
    (h : p.recoverEnoughSpaceIfNeeded fuel size = some q) :
    Fixed p q ∧ Shrinks p q ∧ q.overBudget size = false := by
  induction fuel generalizing p with
  | zero => simp [recoverEnoughSpaceIfNeeded] at h
  | succ n ih =>
    simp only [recoverEnoughSpaceIfNeeded] at h
    split at h
    · obtain ⟨h₁, h₂, h₃⟩ := ih h
      exact ⟨(reclaimOne_spec p).1.trans h₁, (reclaimOne_spec p).2.trans h₂, h₃⟩
    · rename_i hfit
      cases h
      exact ⟨Fixed.refl _, Shrinks.refl _, by simpa using hfit⟩

theorem setMultiLevel_cases {env : Env} {fuel : Nat} {p q : Provider} {a : Variant} {o : Outcome}
    (h : p.setMultiLevel env fuel a = some (o, q)) :
    (∃ e, compress env p.compression a.value = .error e ∧ o = some e ∧ q = p) ∨
      ∃ data r, compress env p.compression a.value = .ok data ∧
        p.recoverEnoughSpaceIfNeeded fuel data.length = some r ∧
        (env.writeOk (p.joinedFP a.variedKey) = false ∧ o = none ∧ q = r ∨
          env.writeOk (p.joinedFP a.variedKey) = true ∧
            updateMapping env (r.register a.variedKey data a.duration) a p.now = (o, q)) := by
  unfold setMultiLevel at h
  split at h
  · rename_i e hc
    cases h
    exact .inl ⟨e, hc, rfl, rfl⟩
  · rename_i data hc
    simp only [writeVariant, Option.map_map] at h
    obtain ⟨r, hr, hq⟩ := Option.map_eq_some'.mp h
    have hP : r.joinedFP a.variedKey = p.joinedFP a.variedKey := by simp [joinedFP, (recover_spec hr).1.path]
    refine .inr ⟨data, r, hc, hr, ?_⟩
    simp only [Function.comp, hP] at hq
    cases hw : env.writeOk (p.joinedFP a.variedKey)
    · simp only [hw, Bool.false_eq_true, if_false, Prod.mk.injEq] at hq
      exact .inl ⟨rfl, hq.1.symm, hq.2.symm⟩
    · simp only [hw, if_true] at hq
      exact .inr ⟨rfl, hq⟩

end Provider

end Simplefs
