import Simplefs.Mapping

/-! # Quota reclamation

`recoverEnoughSpaceIfNeeded` hands `cache.Delete` the least recently used item's value,
the path of its file, where the item's key belongs. Unless a key happens to equal that
path, a round deletes nothing, the check fails again, and the recursion never ends.
-/
namespace Simplefs.Provider

theorem recover_none_of_fixed {p : Provider} {size : Int} (hfix : p.reclaimOne = p)
    (hover : p.overBudget size = true) : ∀ fuel, p.recoverEnoughSpaceIfNeeded fuel size = none
  | 0 => rfl
  | fuel + 1 => by
    rw [recoverEnoughSpaceIfNeeded, if_pos hover, hfix]
    exact recover_none_of_fixed hfix hover fuel

theorem reclaimOne_eq_self {p : Provider}
    (h : ((p.index.lastLive p.now).all fun i => decide (i.2.value ∉ p.index)) = true) :
    p.reclaimOne = p := by
  unfold reclaimOne; split
  · rename_i i hi
    simp only [hi, Option.all_some, decide_eq_true_eq] at h
    simp [delete, Index.delete_of_not_mem h]
  · rfl

/-- Over budget with an empty index, as `Init` leaves it on a directory whose files already
exceed the budget, `recoverEnoughSpaceIfNeeded` never returns, whatever bound its rounds get:
`RangeBackwards` finds nothing to delete, and with no entry to expire the sweeper cannot lower
the count either. -/
theorem recover_diverges {p : Provider} {size : Int} (hempty : p.index = ∅) (hover : p.overBudget size = true) :
    ∀ fuel, p.recoverEnoughSpaceIfNeeded fuel size = none :=
  recover_none_of_fixed (reclaimOne_eq_self (by rw [hempty]; rfl)) hover

/-- `Init` with a one-byte budget on a directory `/c` that already holds the two-byte file
`/c/old`: the index is empty and `actualSize` is two. -/
def restartStart : Provider :=
  (factory (utf8 "/c") [] 0 1 (utf8 "none") 0 ((∅ : Fs).writeFile (utf8 "/c/old") (utf8 "ab")) 0).init

/-- After that restart, making room for any write never returns. -/
theorem restart_over_budget :
    restartStart.index = ∅ ∧ restartStart.overBudget 0 = true ∧
      ∀ fuel, restartStart.recoverEnoughSpaceIfNeeded fuel 0 = none :=
  ⟨rfl, by decide, recover_diverges rfl (by decide)⟩

/-- `Init` on an empty directory `/c` with a one-byte budget and the payload stored as it
is (the compression name `none` is none of the three the code knows). -/
def quotaStart : Provider := (factory (utf8 "/c") [] 0 1 (utf8 "none") 0 ∅ 0).init

def variantK : Variant := ⟨utf8 "b", utf8 "k", utf8 "a", [], [], 10000000000, []⟩

def variantJ : Variant := ⟨utf8 "b", utf8 "j", utf8 "a", [], [], 10000000000, []⟩

def quotaFull : Provider := ((quotaStart.setMultiLevel Env.reference 1 variantK).map (·.2)).getD quotaStart

theorem quotaStart_setMultiLevel : quotaStart.setMultiLevel Env.reference 1 variantK = some (none, quotaFull) :=
  rfl

theorem quotaFull_reclaimOne : quotaFull.reclaimOne = quotaFull := reclaimOne_eq_self (by decide)

/-- Once `k` fills the one-byte budget, making room for one more byte never returns,
although the index holds a live data entry. -/
theorem recover_never_returns :
    quotaStart.setMultiLevel Env.reference 1 variantK = some (none, quotaFull) ∧
      ((quotaFull.index.get quotaFull.now variantK.variedKey).1.map (·.value)) =
        some (quotaFull.joinedFP variantK.variedKey) ∧
      ∀ fuel, quotaFull.recoverEnoughSpaceIfNeeded fuel 1 = none :=
  ⟨quotaStart_setMultiLevel, by decide, recover_none_of_fixed quotaFull_reclaimOne (by decide)⟩

/-- A round at that state, over budget, removes no entry: the least recently used live
entry, the data entry `k`, stays. -/
theorem reclaim_round_removes_nothing :
    quotaStart.setMultiLevel Env.reference 1 variantK = some (none, quotaFull) ∧
      quotaFull.overBudget 1 = true ∧
      (quotaFull.index.lastLive quotaFull.now).map (·.1) = some variantK.variedKey ∧
      quotaFull.reclaimOne.index = quotaFull.index :=
  ⟨quotaStart_setMultiLevel, by decide, by decide, by rw [quotaFull_reclaimOne]⟩

/-- The second one-byte write `j`, which fits the one-byte budget on its own, never
returns. -/
theorem second_write_never_returns :
    quotaStart.setMultiLevel Env.reference 1 variantK = some (none, quotaFull) ∧
      (variantJ.value.length : Int) ≤ quotaFull.directorySize ∧
      ∀ fuel, quotaFull.setMultiLevel Env.reference fuel variantJ = none := by
  refine ⟨quotaStart_setMultiLevel, by decide, fun fuel => ?_⟩
  have hc : compress Env.reference quotaFull.compression variantJ.value = .ok variantJ.value := rfl
  have hr : ∀ fuel, quotaFull.recoverEnoughSpaceIfNeeded fuel variantJ.value.length = none :=
    recover_none_of_fixed quotaFull_reclaimOne (by decide)
  simp [setMultiLevel, hc, writeVariant, hr]

end Simplefs.Provider
