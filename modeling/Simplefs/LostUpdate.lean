import Simplefs.Interleaving
import Simplefs.RoundTrip

/-! # Concurrent merges into one mapping record

Two calls that both read the record before either writes it lose a variant (`lost_variant`);
when the read-merge-write sequences do not overlap, none is lost (`no_lost_variant`).
-/
namespace Simplefs

open Provider (mappingKey plainStart plainVariant)

theorem Provider.getIndex_value_of_nonpos {p : Provider} {key : Bytes}
    (h : ∀ e, p.index.lookup key = some e → e.ttl ≤ 0) :
    (p.getIndex key).1.map (·.value) = (p.index.lookup key).map (·.value) := by
  simp only [getIndex, Index.get_fst]
  cases hl : p.index.lookup key with
  | none => rfl
  | some e =>
    have he : e.isExpired p.now = false := by simp [Entry.isExpired, not_lt.mpr (h e hl)]
    simp [he]

theorem negativeNow_nonpos (now : Int) : negativeNow now ≤ 0 ∧ negativeNow now ≠ previousOrDefaultTTL := by
  unfold negativeNow previousOrDefaultTTL; omega

theorem Provider.lookup_setIndex_negativeNow (p : Provider) (key val : Bytes) (now : Int) :
    (p.setIndex key val (negativeNow now)).index.lookup key = some ⟨val, negativeNow now, 0⟩ := by
  simp only [Provider.setIndex, Provider.apply_index]
  exact Index.lookup_set_self_of_nonpos _ _ _ _ (negativeNow_nonpos _).1 (negativeNow_nonpos _).2

namespace World

variable (b : Bytes)

/-- The entry of `b`'s mapping record. -/
def record (w : World) : Option Entry := w.store.index.lookup (mappingKey b)

/-- The bytes a mapping read of `b`'s record merges into: empty when there is none. -/
def recordBytes (w : World) : Bytes := ((record b w).map (·.value)).getD []

/-- A call on `b` between its mapping read and its mapping write. -/
def merging (c : Call) : Bool :=
  match c.phase with
  | .writeMapping _ => c.arg.baseKey = b
  | _ => false

/-- At most one call on `b` is between its mapping read and its mapping write. -/
def Serialized (w : World) : Prop := w.calls.countP (merging b) ≤ 1

/-- `act` is the mapping write of a call on `b`. -/
def writesRecord (w : World) : Action → Bool
  | .call i => (w.calls[i]?.map (merging b)).getD false
  | _ => false

/-- The step leaves `b`'s record entry as it was, unless it is the mapping write of a call
on `b`. -/
def KeepsRecord (w : World) (act : Action) (w' : World) : Prop :=
  w.writesRecord b act = true ∨ record b w' = record b w

instance (w : World) (act : Action) (w' : World) : Decidable (KeepsRecord b w act w') := by
  unfold KeepsRecord; infer_instance

instance (w : World) : Decidable (Serialized b w) := by unfold Serialized; infer_instance

variable {env : Env} (V : MappingView env)

/-- `b`'s record never expires, holds the variant of every call on `b` that wrote it, and
is contained in what every call on `b` between its read and its write is about to write. -/
def Merged (w : World) : Prop :=
  (∀ e, record b w = some e → e.ttl ≤ 0) ∧
  (∀ c ∈ w.calls, c.arg.baseKey = b → c.phase = .done → V.hasVariant (recordBytes b w) c.arg.variedKey) ∧
  (∀ c ∈ w.calls, c.arg.baseKey = b → ∀ val, c.phase = .writeMapping val →
    V.hasVariant val c.arg.variedKey ∧ ∀ x, V.hasVariant (recordBytes b w) x → V.hasVariant val x)

variable {b V}

theorem Merged.frame {w w' : World} (h : Merged b V w) (hrec : record b w' = record b w)
    (hcalls : ∀ c ∈ w'.calls, c.arg.baseKey = b →
      c ∈ w.calls ∨ (c.phase ≠ .done ∧ ∀ val, c.phase ≠ .writeMapping val)) : Merged b V w' := by
  obtain ⟨h₁, h₂, h₃⟩ := h
  have hb : recordBytes b w' = recordBytes b w := by simp only [recordBytes, hrec]
  refine ⟨hrec ▸ h₁, fun c hc hcb hd => ?_, fun c hc hcb val hv => ?_⟩
  · rcases hcalls c hc hcb with hc | hc
    · exact hb ▸ h₂ c hc hcb hd
    · exact absurd hd hc.1
  · rcases hcalls c hc hcb with hc | hc
    · exact hb ▸ h₃ c hc hcb val hv
    · exact absurd hv (hc.2 val)

theorem mem_set_call {cs : List Call} {i : Nat} {c c' : Call} {ph : Phase}
    (h : c' ∈ cs.set i { c with phase := ph }) : c' ∈ cs ∨ c' = { c with phase := ph } :=
  List.mem_or_eq_of_mem_set h

theorem not_merging_after_write {cs : List Call} {i : Nat} {c c' : Call}
    (hser : cs.countP (merging b) ≤ 1) (hi : cs[i]? = some c) (hc : merging b c = true)
    (hc' : c' ∈ cs.set i { c with phase := .done }) : merging b c' = false := by
  obtain ⟨hlt, rfl⟩ := List.getElem?_eq_some_iff.mp hi
  have hzero : (cs.set i { cs[i] with phase := .done }).countP (merging b) = 0 := by
    rw [List.countP_set _ _ _ _ hlt, if_pos hc]
    simp only [merging, Bool.false_eq_true, if_false]
    omega
  simpa using List.countP_eq_zero.mp hzero c' hc'

theorem merged_read {w : World} {i : Nat} {c : Call} {q : Provider} {ph : Phase} (h : Merged b V w)
    (hc : c.phase = .readMapping) (hadv : c.advance env w.store = some (q, ph))
    (hrec : record b ⟨q, w.calls.set i { c with phase := ph }⟩ = record b w) :
    Merged b V ⟨q, w.calls.set i { c with phase := ph }⟩ := by
  simp only [Call.advance, hc] at hadv
  split at hadv
  · rename_i val q' hm
    cases hadv
    obtain ⟨h₁, h₂, h₃⟩ := h
    have hb : recordBytes b ⟨q, w.calls.set i { c with phase := .writeMapping val }⟩ = recordBytes b w := by
      simp only [recordBytes, hrec]
    refine ⟨hrec ▸ h₁, fun c' hc' hcb hd => ?_, fun c' hc' hcb v hv => ?_⟩
    · rcases mem_set_call hc' with hc' | rfl
      · exact hb ▸ h₂ c' hc' hcb hd
      · cases hd
    · rw [hb]
      rcases mem_set_call hc' with hc' | rfl
      · exact h₃ c' hc' hcb v hv
      · cases hv
        have hu := congrArg Prod.fst hm
        simp only [mergeVariant] at hu
        have hmerge := V.hasVariant_merge hu
        dsimp only at hmerge hcb
        rw [hcb, Provider.getIndex_value_of_nonpos h₁] at hmerge
        exact ⟨(hmerge _).mpr (.inl rfl), fun x hx => (hmerge x).mpr (.inr hx)⟩
  · cases hadv
    exact Merged.frame h hrec fun c' hc' _ => (mem_set_call hc').imp_right fun he => by simp [he]

theorem merged_write {w : World} {i : Nat} {c : Call} {q : Provider} {ph : Phase} {val : Bytes}
    (h : Merged b V w) (hi : w.calls[i]? = some c) (hc : c.phase = .writeMapping val)
    (hadv : c.advance env w.store = some (q, ph)) (hwr : w.writesRecord b (.call i) = merging b c)
    (hkeep : KeepsRecord b w (.call i) ⟨q, w.calls.set i { c with phase := ph }⟩) (hser : Serialized b w) :
    Merged b V ⟨q, w.calls.set i { c with phase := ph }⟩ := by
  simp only [Call.advance, hc, Option.some.injEq, Prod.mk.injEq] at hadv
  obtain ⟨rfl, rfl⟩ := hadv
  by_cases hcb : c.arg.baseKey = b
  · have hm : merging b c = true := by simp [merging, hc, hcb]
    obtain ⟨h₁, h₂, h₃⟩ := h
    obtain ⟨hval, hsub⟩ := h₃ c (List.getElem?_mem hi) hcb val hc
    have hnew : record b ⟨w.store.setIndex (mappingKey c.arg.baseKey) val (negativeNow w.store.now),
        w.calls.set i { c with phase := .done }⟩ = some ⟨val, negativeNow w.store.now, 0⟩ := by
      rw [← hcb]; exact Provider.lookup_setIndex_negativeNow _ _ _ _
    refine ⟨fun e he => ?_, fun c' hc' hcb' hd => ?_, fun c' hc' hcb' v hv => ?_⟩
    · rw [hnew] at he
      cases he
      exact (negativeNow_nonpos _).1
    · simp only [recordBytes, hnew, Option.map_some', Option.getD_some]
      rcases mem_set_call hc' with hc' | rfl
      · exact hsub _ (h₂ c' hc' hcb' hd)
      · exact hval
    · have := not_merging_after_write hser hi hm hc'
      simp [merging, hv, hcb'] at this
  · have hm : merging b c = false := by simp [merging, hc, hcb]
    refine Merged.frame h (hkeep.resolve_left (by rw [hwr, hm]; decide)) fun c' hc' hcb' =>
      (mem_set_call hc').imp_right fun he => (hcb (by rw [he] at hcb'; exact hcb')).elim

theorem merged_call {w : World} {i : Nat} {c : Call} {q : Provider} {ph : Phase} (h : Merged b V w)
    (hi : w.calls[i]? = some c) (hadv : c.advance env w.store = some (q, ph))
    (hkeep : KeepsRecord b w (.call i) ⟨q, w.calls.set i { c with phase := ph }⟩) (hser : Serialized b w) :
    Merged b V ⟨q, w.calls.set i { c with phase := ph }⟩ := by
  have hwr : w.writesRecord b (.call i) = merging b c := by simp [writesRecord, hi]
  have hph := congrArg (Option.map Prod.snd) hadv
  cases hc : c.phase with
  | readMapping => exact merged_read h hc hadv (hkeep.resolve_left (by simp [hwr, merging, hc]))
  | writeMapping val => exact merged_write h hi hc hadv hwr hkeep hser
  | done | skipped | failed e => simp [Call.advance, hc] at hadv
  | reclaim data | write data | register =>
    -- The other phases move to one that neither returned nor is about to write.
    have hph' : ph ≠ .done ∧ ∀ val, ph ≠ .writeMapping val := by
      simp only [Call.advance, hc, Option.map_some', Option.some.injEq] at hph
      (try split at hph) <;> subst hph <;> simp
    exact h.frame (hkeep.resolve_left (by simp [hwr, merging, hc])) fun c' hc' _ =>
      (mem_set_call hc').imp_right fun he => by rw [he]; exact hph'

theorem merged_step {w w' : World} {act : Action} (h : Merged b V w) (hstep : Step env w act w')
    (hkeep : KeepsRecord b w act w') (hser : Serialized b w) : Merged b V w' := by
  unfold Step World.step at hstep
  cases act with
  | call i =>
    obtain ⟨c, hi, hadv⟩ := Option.bind_eq_some.mp hstep
    obtain ⟨⟨q, ph⟩, hadv', rfl⟩ := Option.map_eq_some'.mp hadv
    exact merged_call h hi hadv' hkeep hser
  | launch a =>
    cases hstep
    refine h.frame rfl fun c' hc' _ => ?_
    rcases List.mem_append.mp hc' with hc' | hc'
    · exact .inl hc'
    · right
      rw [List.mem_singleton.mp hc', startPhase]
      split <;> simp
  | deleteMany pattern =>
    obtain ⟨p, -, rfl⟩ := Option.map_eq_some'.mp hstep
    exact h.frame (hkeep.resolve_left (by simp [writesRecord])) fun c' hc' _ => .inl hc'
  | get | getMultiLevel | set | delete | reset | sweep | tick =>
    cases hstep
    exact h.frame (hkeep.resolve_left (by simp [writesRecord])) fun c' hc' _ => .inl hc'

end World

variable {env : Env} (V : MappingView env) {b : Bytes}

/-- In any interleaving that starts with no call made and `b`'s record absent or never
expiring, in which only the mapping writes of calls on `b` change that record and no call on
`b` writes it while another is between its read and its write, every call on `b` that
returned after writing the record has its variant in the record `GetMultiLevel(b)` hands to
`MappingElection`. -/
theorem no_lost_variant {p : Provider} {acts : List Action} {w : World}
    (hrec : ∀ e, p.index.lookup (mappingKey b) = some e → e.ttl ≤ 0)
    (hrun : Run (fun u act u' => World.Step env u act u' ∧ u.KeepsRecord b act u' ∧ u.Serialized b)
      ⟨p, []⟩ acts w)
    {c : Call} (hc : c ∈ w.calls) (hb : c.arg.baseKey = b) (hd : c.phase = .done) :
    ∃ r, (w.store.getIndex (mappingKey b)).1.map (·.value) = some r ∧ V.hasVariant r c.arg.variedKey := by
  have hm : World.Merged b V w :=
    hrun.inv (World.Merged b V) (fun _ _ _ hu hr => World.merged_step hu hr.1 hr.2.1 hr.2.2)
      ⟨hrec, fun _ hc => by simp at hc, fun _ hc => by simp at hc⟩
  obtain ⟨h₁, h₂, -⟩ := hm
  have hv := h₂ c hc hb hd
  rw [Provider.getIndex_value_of_nonpos h₁]
  simp only [World.recordBytes, World.record] at hv
  cases hl : w.store.index.lookup (mappingKey b) with
  | none => simp [hl, MappingView.hasVariant, V.variant_empty] at hv
  | some e => exact ⟨e.value, rfl, by simpa [hl] using hv⟩

def otherVariant : Variant := ⟨utf8 "b", utf8 "j", utf8 "a", [], [], 10000000000, []⟩

def racingMerges : List Action :=
  [.launch plainVariant, .launch otherVariant] ++ List.replicate 4 (.call 0) ++
    List.replicate 4 (.call 1) ++ [.call 0, .call 1]

def racedWorld : World :=
  (World.runChecked Env.reference (fun _ _ _ => true) ⟨plainStart, []⟩ racingMerges).getD ⟨plainStart, []⟩

set_option maxRecDepth 2000 in
/-- Two calls on `b` whose merges overlap both return nil, and the record `GetMultiLevel(b)`
then hands on holds `j` but not `k`. -/
theorem lost_variant :
    Run (World.Step Env.reference) ⟨plainStart, []⟩ racingMerges racedWorld ∧
      racedWorld.calls.map (·.phase.outcome) = [some none, some none] ∧
      (racedWorld.store.getIndex (mappingKey (utf8 "b"))).1.map (fun e =>
        ((referenceView.variant e.value (utf8 "k")).isSome, (referenceView.variant e.value (utf8 "j")).isSome)) =
        some (false, true) := by
  have h : World.runChecked Env.reference (fun _ _ _ => true) ⟨plainStart, []⟩ racingMerges =
      some racedWorld := rfl
  exact ⟨(World.run_of_runChecked h).mono fun _ _ _ hs => hs.1, by decide, by decide⟩

def serialMerges : List Action :=
  .launch plainVariant :: List.replicate 5 (.call 0) ++ .launch otherVariant :: List.replicate 5 (.call 1)

def serialWorld : World :=
  (World.runChecked Env.reference
    (fun u act u' => decide (u.KeepsRecord (utf8 "b") act u') && decide (u.Serialized (utf8 "b")))
    ⟨plainStart, []⟩ serialMerges).getD ⟨plainStart, []⟩

/-- `no_lost_variant` on the calls of `racingMerges` made one after the other: `k` is kept. -/
theorem serial_merges_keep_k :
    plainStart.index.lookup (mappingKey (utf8 "b")) = none ∧
      Run (fun u act u' => World.Step Env.reference u act u' ∧ u.KeepsRecord (utf8 "b") act u' ∧
        u.Serialized (utf8 "b")) ⟨plainStart, []⟩ serialMerges serialWorld ∧
      (⟨plainVariant, 0, .done⟩ : Call) ∈ serialWorld.calls ∧
      ∃ r, (serialWorld.store.getIndex (mappingKey (utf8 "b"))).1.map (·.value) = some r ∧
        referenceView.hasVariant r plainVariant.variedKey := by
  have h0 : plainStart.index.lookup (mappingKey (utf8 "b")) = none := rfl
  have h : World.runChecked Env.reference
      (fun u act u' => decide (u.KeepsRecord (utf8 "b") act u') && decide (u.Serialized (utf8 "b")))
      ⟨plainStart, []⟩ serialMerges = some serialWorld := rfl
  have hrun : Run (fun u act u' => World.Step Env.reference u act u' ∧ u.KeepsRecord (utf8 "b") act u' ∧
      u.Serialized (utf8 "b")) ⟨plainStart, []⟩ serialMerges serialWorld :=
    (World.run_of_runChecked h).mono fun _ _ _ hs => ⟨hs.1, by simpa using hs.2⟩
  have hc : (⟨plainVariant, 0, .done⟩ : Call) ∈ serialWorld.calls := by
    rw [show serialWorld.calls = [⟨plainVariant, 0, .done⟩, ⟨otherVariant, 0, .done⟩] from rfl]
    exact List.mem_cons_self _ _
  exact ⟨h0, hrun, hc, no_lost_variant referenceView (by simp [h0]) hrun hc rfl rfl⟩

end Simplefs
