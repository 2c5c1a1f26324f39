import Simplefs.SetMultiLevel
import Simplefs.VariantFrame
import Simplefs.Mapping

/-! # Evictions take files

Every entry that leaves the cache is announced, and the hook removes the file its value
names unless the value contains `IDX_` (`apply_fs_lookup`, `takesFiles_apply`). With capacity
one, the record write evicts the variant just registered (`one_slot_drops_variant`).
-/
namespace Simplefs

namespace Index

variable {now : Int} {c : Index} {f : Bytes}

/-- Some entry of `c` holds a value whose eviction may remove the file `f`. -/
def names (c : Index) (f : Bytes) : Bool := c.entries.any fun i => Provider.mayRemove i.2.value f

theorem names_iff : c.names f = true ↔ ∃ x e, c.lookup x = some e ∧ Provider.mayRemove e.value f = true := by
  simp only [names, List.any_eq_true]
  constructor
  · rintro ⟨i, hi, hv⟩; exact ⟨i.1, i.2, AList.mem_lookup_iff.mpr hi, hv⟩
  · rintro ⟨x, e, hx, hv⟩; exact ⟨⟨x, e⟩, AList.mem_lookup_iff.mp hx, hv⟩

theorem mayRemove_of_names {x : Bytes} {e : Entry} (hf : c.names f = false) (hx : c.lookup x = some e) :
    Provider.mayRemove e.value f = false :=
  Bool.eq_false_iff.mpr fun hm => by rw [names_iff.mpr ⟨x, e, hx, hm⟩] at hf; cases hf

@[simp] theorem names_empty (f : Bytes) : (∅ : Index).names f = false := rfl

@[simp] theorem names_get (c : Index) (key : Bytes) : (c.get now key).2.names f = c.names f := by
  apply Bool.eq_iff_iff.mpr
  simp only [names_iff, lookup_get]
  constructor
  · rintro ⟨x, e, hx, hv⟩
    obtain ⟨e', he', rfl⟩ := Option.map_eq_some'.mp hx
    exact ⟨x, e', he', by split at hv <;> simpa using hv⟩
  · rintro ⟨x, e, hx, hv⟩
    exact ⟨x, _, by rw [hx]; rfl, by dsimp only; split <;> simpa using hv⟩

/-- Every entry of `c` that `r` drops is announced by an eviction carrying its value. -/
def Announces (c : Index) (r : Index × List Event) : Prop :=
  ∀ x e, c.lookup x = some e → r.1.lookup x = none → Event.eviction x e.value ∈ r.2

theorem announces_delete (c : Index) (key : Bytes) : c.Announces (c.delete key) := by
  intro x e hx hgone
  by_cases h : x = key
  · subst h; simp [delete, hx]
  · rw [lookup_delete_ne h, hx] at hgone; cases hgone

theorem announces_deleteAll (c : Index) : c.Announces c.deleteAll :=
  fun x e hx _ => List.mem_map.mpr ⟨⟨x, e⟩, AList.mem_lookup_iff.mp hx, rfl⟩

theorem announces_deleteExpired (c : Index) : c.Announces (c.deleteExpired now) := by
  intro x e hx hgone
  rw [lookup_deleteExpired, hx] at hgone
  have hexp : e.isExpired now = true := by simpa using hgone
  exact List.mem_map.mpr ⟨⟨x, e⟩, List.mem_filter.mpr ⟨AList.mem_lookup_iff.mp hx, hexp⟩, rfl⟩

theorem announces_set (c : Index) (key v : Bytes) (ttl : Int) (cap : Nat) :
    c.Announces (c.set now cap key v ttl) := by
  intro x e hx hgone
  have hk : x ≠ key := by
    rintro rfl
    have hm : x ∈ (c.set now cap x v ttl).1 := mem_set_self
    exact absurd (AList.lookup_isSome.mpr hm) (by simp [hgone])
  unfold set at hgone ⊢
  cases hkey : c.lookup key with
  | some e' => simp [hkey, AList.lookup_insert_ne hk, hx] at hgone
  | none =>
    simp only [hkey, AList.lookup_insert_ne hk] at hgone ⊢
    split_ifs at hgone ⊢
    · unfold evictBack at hgone ⊢
      cases hb : c.back with
      | none => simp [hb, hx] at hgone
      | some i =>
        simp only [hb] at hgone ⊢
        have hxi : x = i.1 := by
          by_contra hne
          rw [AList.lookup_erase_ne hne, hx] at hgone
          cases hgone
        subst hxi
        rw [lookup_of_back hb] at hx
        cases hx
        simp
    · rw [hx] at hgone; cases hgone

/-- `r` puts no value into the index but those of `c` and of `vs`, and evicts only entries
of `c`. -/
def Confined (c : Index) (vs : List Bytes) (r : Index × List Event) : Prop :=
  (∀ f, r.1.names f = true → c.names f = true ∨ vs.any (Provider.mayRemove · f) = true) ∧
    ∀ k v, Event.eviction k v ∈ r.2 → ∃ e, c.lookup k = some e ∧ e.value = v

theorem Removes.confined {r : Index × List Event} (h : c.Removes r) : c.Confined [] r := by
  refine ⟨fun f hf => .inl ?_, fun k v hv => ?_⟩
  · obtain ⟨x, e, hx, hm⟩ := names_iff.mp hf
    exact names_iff.mpr ⟨x, e, h.1 x e hx, hm⟩
  · obtain ⟨e, he, rfl, -⟩ := h.2 k v hv
    exact ⟨e, he, rfl⟩

theorem confined_deleteAll (c : Index) : c.Confined [] c.deleteAll := by
  refine ⟨fun f hf => by simp [deleteAll] at hf, fun k v hv => ?_⟩
  obtain ⟨i, hi, he⟩ := List.mem_map.mp hv
  cases he
  exact ⟨i.2, AList.mem_lookup_iff.mpr hi, rfl⟩

theorem confined_set (c : Index) (key v : Bytes) (ttl : Int) (cap : Nat) :
    c.Confined [v] (c.set now cap key v ttl) := by
  refine ⟨fun f hf => ?_, fun k w hw => ?_⟩
  · obtain ⟨x, e, hx, hm⟩ := names_iff.mp hf
    rcases lookup_set_eq_some hx with ⟨-, rfl⟩ | hx
    · exact .inr (by simpa using hm)
    · exact .inl (names_iff.mpr ⟨x, e, hx, hm⟩)
  · obtain ⟨-, -, -, e, hb, rfl⟩ := eviction_mem_set hw
    exact ⟨e, lookup_of_back hb, rfl⟩

end Index

/-- Whether a notification makes the eviction hook remove the file `f`. -/
def Event.removes : Event → Bytes → Bool
  | .eviction _ v, f => !isMapping v && Fs.resolve v = f
  | .insertion _ _, _ => false

theorem Event.removes_eviction_eq_false {k v f : Bytes} (h : Provider.mayRemove v f = false) :
    (Event.eviction k v).removes f = false := by
  cases hm : isMapping v
  · simp [Event.removes, hm, Provider.resolve_ne_of_mayRemove h hm]
  · simp [Event.removes, hm]

namespace Provider

variable {p q : Provider} {r : Index × List Event}

theorem notify_fs_lookup (p : Provider) (ev : Event) (f : Bytes) :
    (p.notify ev).fs.lookup f = if ev.removes f then none else p.fs.lookup f := by
  cases ev with
  | insertion k v =>
    simp only [notify, onInsertion, Event.removes, Bool.false_eq_true, if_false]
    split <;> (try split) <;> rfl
  | eviction k v =>
    simp only [notify, onEviction, Event.removes]
    by_cases hm : isMapping v
    · simp [hm]
    · by_cases hv : Fs.resolve v = f
      · subst hv
        cases hs : p.fs.stat v
        · simpa [hm, hs, Fs.stat, Fs.readFile] using hs
        · simp [hm, hs, Fs.remove]
      · simp only [hv, hm, decide_False, Bool.and_false, Bool.false_eq_true, ↓reduceIte]
        split <;> simp [Fs.lookup_remove_ne (Ne.symm hv)]

theorem foldl_notify_fs (evs : List Event) (p : Provider) (f : Bytes) :
    (evs.foldl notify p).fs.lookup f = if evs.any (·.removes f) then none else p.fs.lookup f := by
  induction evs generalizing p with
  | nil => rfl
  | cons ev evs ih =>
    rw [List.foldl_cons, ih, notify_fs_lookup, List.any_cons]
    cases ev.removes f <;> cases evs.any (·.removes f) <;> rfl

theorem apply_fs_lookup (p : Provider) (r : Index × List Event) (f : Bytes) :
    (p.apply r).fs.lookup f = if r.2.any (·.removes f) then none else p.fs.lookup f :=
  foldl_notify_fs r.2 _ f

theorem lookup_apply_ne_none {s : Provider} {r : Index × List Event} {f : Bytes}
    (h : (s.apply r).fs.lookup f ≠ none) : s.fs.lookup f ≠ none := by
  rw [apply_fs_lookup] at h
  split at h
  · exact absurd rfl h
  · exact h

/-- Every entry of `p` that is gone from `q` took the file its value names, unless the
value contains `IDX_`. -/
def TakesFiles (p q : Provider) : Prop :=
  ∀ x e, p.index.lookup x = some e → q.index.lookup x = none → isMapping e.value = false →
    q.fs.readFile e.value = none

theorem takesFiles_apply (h : p.index.Announces r) : TakesFiles p (p.apply r) := by
  intro x e hx hgone hm
  rw [Fs.readFile, apply_fs_lookup, if_pos]
  exact List.any_eq_true.mpr ⟨_, h x e hx (by simpa using hgone), by simp [Event.removes, hm]⟩

theorem apply_fs_of_confined {vs : List Bytes} {f : Bytes} (h : p.index.Confined vs r)
    (hf : p.index.names f = false) : (p.apply r).fs.lookup f = p.fs.lookup f := by
  rw [apply_fs_lookup, if_neg]
  simp only [List.any_eq_true, not_exists, not_and, Bool.not_eq_true]
  intro ev hev
  cases ev with
  | insertion => rfl
  | eviction k v =>
    obtain ⟨e, he, rfl⟩ := h.2 k v hev
    exact Event.removes_eviction_eq_false (Index.mayRemove_of_names hf he)

theorem Shrinks.length_le (h : Shrinks p q) : q.index.entries.length ≤ p.index.entries.length := by
  have hsub : AList.keys q.index ⊆ AList.keys p.index := fun x hx => by
    rw [← AList.mem_keys, ← AList.lookup_isSome] at hx ⊢
    rcases h x with h' | h' <;> simp_all
  simpa [AList.keys, List.keys] using (List.subperm_of_subset (AList.keys_nodup _) hsub).length_le

/-- With capacity one, a `SetMultiLevel` that wrote its file and returned nil leaves no entry
for the variant, and the file it wrote is gone unless its path contains `IDX_`. -/
theorem one_slot_drops_variant {env : Env} {fuel : Nat} {a : Variant} {data : Bytes}
    (hcap : p.capacity = 1) (hlen : p.index.entries.length ≤ 1) (hk : a.variedKey ≠ mappingKey a.baseKey)
    (hc : compress env p.compression a.value = .ok data) (hw : env.writeOk (p.joinedFP a.variedKey) = true)
    (hrun : p.setMultiLevel env fuel a = some (none, q)) :
    q.index.lookup a.variedKey = none ∧
      (isMapping (p.joinedFP a.variedKey) = false → q.fs.lookup (p.joinedFP a.variedKey) = none) := by
  obtain ⟨r, -, hfix, hshr, hq⟩ := setMultiLevel_of_written hc hrun hw
  set w := r.register a.variedKey data a.duration
  have hrcap : r.capacity = 1 := by simpa [capacity, hfix.size] using hcap
  have hwfix : Fixed r w := register_fixed _ _ _ _
  have hwcap : w.capacity = 1 := by simpa [capacity, hwfix.size] using hrcap
  -- the registration leaves the variant alone in the index
  obtain ⟨e, hwe, hev⟩ : ∃ e, w.index.entries = [⟨a.variedKey, e⟩] ∧ e.value = p.joinedFP a.variedKey := by
    have hset : ∃ e, (r.index.set r.now 1 a.variedKey (r.joinedFP a.variedKey) a.duration).1.entries =
        [⟨a.variedKey, e⟩] ∧ e.value = r.joinedFP a.variedKey := Index.set_one_entries (hshr.length_le.trans hlen)
    have hwi : w.index = (r.index.set r.now r.capacity a.variedKey (r.joinedFP a.variedKey) a.duration).1 := by
      simp only [w, register, setIndex, apply_index]; rfl
    rw [hwi, hrcap]
    simpa [joinedFP, hfix.path] using hset
  have hm : mappingKey a.baseKey ∉ w.index := by
    rw [AList.mem_keys, AList.keys, hwe]
    simpa using Ne.symm hk
  have hget : (w.getIndex (mappingKey a.baseKey)).2 = w := by simp [getIndex, Index.get_of_not_mem hm]
  -- the mapping record evicts it
  unfold updateMapping at hq; dsimp only at hq
  split at hq
  · simp at hq
  · rename_i val _
    simp only [Prod.mk.injEq, true_and, hget] at hq
    subst hq
    obtain ⟨e', hent, -⟩ : ∃ e', (w.index.set w.now 1 (mappingKey a.baseKey) val (negativeNow w.now)).1.entries =
        [⟨mappingKey a.baseKey, e'⟩] ∧ e'.value = val := Index.set_one_entries (by simp [hwe])
    have hevs : (w.index.set w.now 1 (mappingKey a.baseKey) val (negativeNow w.now)).2 =
        [.eviction a.variedKey e.value, .insertion (mappingKey a.baseKey) val] := Index.set_one_evicts hwe (Ne.symm hk)
    simp only [setIndex, hwcap]
    refine ⟨by simp [AList.lookup, hent, List.dlookup_cons_ne [] (⟨mappingKey a.baseKey, e'⟩ : Item) hk], fun hmap => ?_⟩
    rw [apply_fs_lookup, hevs, if_pos]
    simp [Event.removes, hev, hmap]


/-- `Init` with capacity one on an empty directory `/c`, no budget, payloads stored as they are
under the compression name `none`. -/
def oneSlot : Provider := (factory (utf8 "/c") [] 1 (-1) (utf8 "none") 0 ∅ 0).init

def slotVariant : Variant := ⟨utf8 "b", utf8 "k", utf8 "a", [], [], 10000000000, []⟩

def slotWritten : Provider := ((oneSlot.setMultiLevel Env.reference 1 slotVariant).map (·.2)).getD oneSlot

/-- `one_slot_drops_variant` on the write of `k`: the call returns nil, and neither the entry
nor the file `/c/k` is left. -/
theorem one_slot_write_lost :
    oneSlot.capacity = 1 ∧ oneSlot.index.entries.length ≤ 1 ∧
      slotVariant.variedKey ≠ mappingKey slotVariant.baseKey ∧
      compress Env.reference oneSlot.compression slotVariant.value = .ok (utf8 "a") ∧
      Env.reference.writeOk (oneSlot.joinedFP slotVariant.variedKey) = true ∧
      oneSlot.setMultiLevel Env.reference 1 slotVariant = some (none, slotWritten) ∧
      slotWritten.index.lookup slotVariant.variedKey = none ∧
      (isMapping (oneSlot.joinedFP slotVariant.variedKey) = false →
        slotWritten.fs.lookup (oneSlot.joinedFP slotVariant.variedKey) = none) :=
  have hrun : oneSlot.setMultiLevel Env.reference 1 slotVariant = some (none, slotWritten) := rfl
  ⟨by decide, by decide, by decide, rfl, rfl, hrun,
    one_slot_drops_variant (by decide) (by decide) (by decide) rfl rfl hrun⟩

end Provider

end Simplefs
