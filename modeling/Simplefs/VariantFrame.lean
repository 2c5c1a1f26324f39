import Simplefs.Layout

/-! # What each phase of SetMultiLevel does

The registration writes the variant's file and puts its path first in the index; the
mapping update changes only the mapping key's entry and evicts, at capacity, only the least
recently used entry, which is not the variant just registered unless the capacity is one.
-/
namespace Simplefs.Provider

variable {env : Env} {p w : Provider} {key data path x : Bytes} {d : Int}

theorem getIndex_fixed (p : Provider) (key : Bytes) : Fixed p (p.getIndex key).2 :=
  ⟨rfl, rfl, rfl, rfl, rfl, rfl⟩

/-- No entry but `key`'s holds a value whose eviction may remove the file at `path`. -/
def Sole (p : Provider) (key path : Bytes) : Prop :=
  ∀ x e, p.index.lookup x = some e → x ≠ key → mayRemove e.value path = false

theorem Sole.of_shrinks (h : Sole p key path) (hs : Shrinks p w) : Sole w key path := by
  intro x e hx hne
  rcases hs x with h' | h'
  · exact h x e (h' ▸ hx) hne
  · simp [h'] at hx

theorem register_fixed (p : Provider) (key data : Bytes) (d : Int) : Fixed p (p.register key data d) :=
  (show Fixed p { p with fs := p.fs.writeFile (p.joinedFP key) data } from ⟨rfl, rfl, rfl, rfl, rfl, rfl⟩).trans
    (fixed_apply _ _)

theorem register_lookup_self (hd : 0 < d) :
    (p.register key data d).index.lookup key = some ⟨p.joinedFP key, d, p.now + d⟩ := by
  simp only [register, setIndex, apply_index, Index.set]
  split <;> simp [Entry.update_of_pos _ _ _ hd, Entry.create_of_pos _ _ hd]

theorem register_head : (p.register key data d).index.entries.head?.map (·.1) = some key := by
  simp [register, setIndex, Index.head_set]

theorem register_lookup_ne (h : x ≠ key) :
    (p.register key data d).index.lookup x = p.index.lookup x ∨ (p.register key data d).index.lookup x = none := by
  simpa [register, setIndex] using Index.lookup_set_ne h

theorem register_sole (h : Sole p key path) : Sole (p.register key data d) key path := by
  intro x e hx hne
  rcases @register_lookup_ne p key data x d hne with h' | h'
  · exact h x e (h' ▸ hx) hne
  · simp [h'] at hx

theorem register_file (h : Sole p key (p.joinedFP key)) :
    (p.register key data d).fs.lookup (p.joinedFP key) = some data := by
  rw [register, setIndex, apply, foldl_notify_lookup]
  · simp [Fs.lookup_writeFile]
  · intro x v hx
    obtain ⟨hk, -, -, e, hb, rfl⟩ := Index.eviction_mem_set hx
    have hl := Index.lookup_of_back hb
    exact resolve_ne_of_mayRemove (h x e hl fun hxk => hk (hxk ▸ AList.lookup_isSome.mp (by simp [hl])))

theorem updateMapping_fixed (env : Env) (w : Provider) (a : Variant) (now : Int) :
    Fixed w (updateMapping env w a now).2 := by
  unfold updateMapping; dsimp only; split
  · exact getIndex_fixed _ _
  · exact (getIndex_fixed _ _).trans (fixed_apply _ _)

theorem updateMapping_of_error {a : Variant} {now : Int} (h : (updateMapping env w a now).1.isSome) :
    (updateMapping env w a now).2 = (w.getIndex (mappingKey a.baseKey)).2 := by
  revert h; unfold updateMapping; dsimp only; split <;> simp

theorem updateMapping_lookup {a : Variant} {now : Int} (hk : key ≠ mappingKey a.baseKey)
    (hhead : w.index.entries.head?.map (·.1) = some key) (hcap : w.capacity ≠ 1) :
    (updateMapping env w a now).2.index.lookup key = w.index.lookup key := by
  unfold updateMapping; dsimp only; split
  · simp [getIndex, hk]
  · simp only [setIndex, apply_index, getIndex]
    by_cases hm : mappingKey a.baseKey ∈ (w.index.get w.now (mappingKey a.baseKey)).2
    · rw [Index.lookup_set_ne_of_room hk (.inl hm), Index.lookup_get_ne hk]
    · have hw : mappingKey a.baseKey ∉ w.index := by simpa using hm
      rw [Index.get_of_not_mem hw]
      exact Index.lookup_set_head hhead hk hcap

theorem updateMapping_file {a : Variant} {now : Int}
    (hhead : w.index.entries.head?.map (·.1) = some key) (hcap : w.capacity ≠ 1)
    (hsole : Sole w key path) : (updateMapping env w a now).2.fs.lookup path = w.fs.lookup path := by
  unfold updateMapping; dsimp only; split
  · rfl
  · rw [setIndex, apply, foldl_notify_lookup]
    · rfl
    · intro x v hx
      obtain ⟨hm, hc0, hlen, e, hb, rfl⟩ := Index.eviction_mem_set hx
      have hw : mappingKey a.baseKey ∉ w.index := by simpa [getIndex] using hm
      have hr : (w.getIndex (mappingKey a.baseKey)).2.index = w.index := by
        simp [getIndex, Index.get_of_not_mem hw]
      have hc : (w.getIndex (mappingKey a.baseKey)).2.capacity = w.capacity := rfl
      rw [hr] at hb hlen
      rw [hc] at hc0 hlen
      have hxk : x ≠ key := fun hxk => Index.back_ne_head hhead (by omega) (by simp [hb, hxk])
      exact resolve_ne_of_mayRemove (hsole x e (Index.lookup_of_back hb) hxk)

theorem setMultiLevel_of_written {fuel : Nat} {a : Variant} {o : Outcome} {q : Provider}
    (hc : compress env p.compression a.value = .ok data) (hrun : p.setMultiLevel env fuel a = some (o, q))
    (hw : env.writeOk (p.joinedFP a.variedKey) = true) :
    ∃ r, p.recoverEnoughSpaceIfNeeded fuel data.length = some r ∧ Fixed p r ∧ Shrinks p r ∧
      updateMapping env (r.register a.variedKey data a.duration) a p.now = (o, q) := by
  rcases setMultiLevel_cases hrun with ⟨e, he, -⟩ | ⟨data', r, hc', hr, ⟨hw', -⟩ | ⟨-, hq⟩⟩
  · rw [hc] at he; cases he
  · rw [hw] at hw'; cases hw'
  · rw [hc] at hc'; cases hc'
    obtain ⟨hfix, hshr, -⟩ := recover_spec hr
    exact ⟨r, hr, hfix, hshr, hq⟩

theorem compress_of_nil {fuel : Nat} {a : Variant} {q : Provider}
    (hrun : p.setMultiLevel env fuel a = some (none, q)) :
    ∃ data, compress env p.compression a.value = .ok data := by
  rcases setMultiLevel_cases hrun with ⟨e, -, he, -⟩ | ⟨data, -, hc, -⟩
  · cases he
  · exact ⟨data, hc⟩

end Simplefs.Provider
