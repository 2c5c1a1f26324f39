import Simplefs.Interleaving
import Simplefs.Eviction
import Simplefs.Mapping
import Simplefs.Layout

/-! # What a schedule step does

Every step of a schedule is one move of the provider (`World.step_move`), so each invariant
is proved once per move: the capacity holds (`capacity_respected`), files appear only at
calls' paths (`files_from_calls`), and with no budget every call returns (`calls_return`).
-/
namespace Simplefs

theorem Run.inv_of_forall {σ α : Type} {R : σ → α → σ → Prop} (I : σ → Prop) (P : α → Prop)
    (hstep : ∀ s a t, P a → I s → R s a t → I t) {s u : σ} {as : List α} (h : Run R s as u)
    (hP : ∀ a ∈ as, P a) (hs : I s) : I u := by
  induction h with
  | nil => exact hs
  | cons hr _ ih =>
    exact ih (fun a ha => hP a (List.mem_cons_of_mem _ ha)) (hstep _ _ _ (hP _ (List.mem_cons_self _ _)) hs hr)

/-- One move of the provider; `V` holds of every value a `cache.Set` stores and of every
path a write writes. -/
inductive Move (V : Bytes → Prop) (p : Provider) : Provider → Prop
  | stay : Move V p p
  | get (key : Bytes) : Move V p (p.getIndex key).2
  | set {value : Bytes} (key : Bytes) (ttl : Int) : V value → Move V p (p.setIndex key value ttl)
  | delete (key : Bytes) : Move V p (p.delete key)
  | reset : Move V p p.reset
  | sweep : Move V p p.sweep
  | write (key data : Bytes) : V (p.joinedFP key) → Move V p { p with fs := p.fs.writeFile (p.joinedFP key) data }
  | tick (dt : Nat) : Move V p (p.tick dt)

namespace Move

variable {V V' : Bytes → Prop} {p q : Provider}

theorem mono (h : ∀ v, V v → V' v) : Move V p q → Move V' p q
  | stay => stay
  | get key => get key
  | set key ttl hv => set key ttl (h _ hv)
  | delete key => delete key
  | reset => reset
  | sweep => sweep
  | write key data hv => write key data (h _ hv)
  | tick dt => tick dt

theorem size_path (h : Move V p q) : q.size = p.size ∧ q.path = p.path := by
  cases h <;> simp [Provider.getIndex, Provider.setIndex, Provider.delete, Provider.reset, Provider.sweep,
    Provider.tick]

theorem directorySize (h : Move V p q) : q.directorySize = p.directorySize := by
  cases h <;> simp [Provider.getIndex, Provider.setIndex, Provider.delete, Provider.reset, Provider.sweep,
    Provider.tick]

end Move

/-! ## Each step is a move -/

theorem mergeVariant_snd (env : Env) (p : Provider) (a : Variant) (now : Int) :
    (mergeVariant env p a now).2 = (p.getIndex (Provider.mappingKey a.baseKey)).2 := rfl

theorem Call.advance_move {env : Env} {p q : Provider} {c : Call} {ph : Phase}
    (h : c.advance env p = some (q, ph)) :
    Move (fun v => v = p.joinedFP c.arg.variedKey ∨ c.phase = .writeMapping v) p q := by
  unfold Call.advance at h
  split at h
  · split at h <;> cases h
    · unfold Provider.reclaimOne; split
      · exact .delete _
      · exact .stay
    · exact .stay
  · split at h <;> cases h
    · exact .write _ _ (.inl rfl)
    · exact .stay
  · cases h; exact .set _ _ (.inl rfl)
  · split at h <;> cases h <;>
    · rename_i heq
      have hq := congrArg Prod.snd heq
      simp only [mergeVariant_snd] at hq
      rw [← hq]
      exact .get _
  · rename_i val hph; cases h; exact .set _ _ (.inr hph)
  all_goals cases h

theorem Call.advance_writeMapping {env : Env} {p q : Provider} {c : Call} {val : Bytes}
    (h : c.advance env p = some (q, .writeMapping val)) : ∃ u, env.mappingUpdater u = .ok val := by
  unfold Call.advance at h
  split at h
  · split at h <;> cases h
  · split at h <;> cases h
  · cases h
  · split at h <;> cases h
    rename_i heq
    exact ⟨_, congrArg Prod.fst heq⟩
  all_goals cases h

/-- The values a step stores and the paths it writes: a running call's path, a record a
running call is about to write, or a `Set` action's value. -/
def World.stored (w : World) (act : Action) (v : Bytes) : Prop :=
  (∃ c ∈ w.calls, v = w.store.joinedFP c.arg.variedKey ∨ c.phase = .writeMapping v) ∨
    ∃ k d, act = .set k v d

theorem World.step_move {env : Env} {w w' : World} {act : Action} (h : World.Step env w act w') :
    Move (w.stored act) w.store w'.store := by
  cases act with
  | launch a => cases h; exact .stay
  | call i =>
    simp only [World.Step, World.step, Option.bind_eq_some, Option.map_eq_some'] at h
    obtain ⟨c, hc, ⟨q, ph⟩, hadv, rfl⟩ := h
    exact (Call.advance_move hadv).mono fun v hv => .inl ⟨c, List.getElem?_mem hc, hv⟩
  | get key => cases h; rw [Provider.get_snd]; exact .get _
  | getMultiLevel key => cases h; exact .get _
  | set key value d => cases h; exact .set _ _ (.inr ⟨key, d, rfl⟩)
  | delete key => cases h; exact .delete _
  | deleteMany pattern =>
    obtain ⟨q, hq, rfl⟩ := Option.map_eq_some'.mp h
    rcases Provider.deleteMany_spec hq with rfl | ⟨_, _, -, -, rfl⟩
    · exact .stay
    · exact .delete _
  | reset => cases h; exact .reset
  | sweep => cases h; exact .sweep
  | tick dt => cases h; exact .tick _

/-! ## Capacity -/

namespace Index

variable {now : Int} {c : Index} {key : Bytes} {cap : Nat}

/-- At most `cap` entries, `0` meaning no bound: what `WithCapacity` promises. -/
def Within (cap : Nat) (c : Index) : Prop := cap = 0 ∨ c.entries.length ≤ cap

theorem Within.mono {r : Index} (h : Within cap c) (hle : r.entries.length ≤ c.entries.length) :
    Within cap r :=
  h.imp_right fun h' => hle.trans h'

theorem length_kerase_of_mem (h : key ∈ c) : (c.entries.kerase key).length + 1 = c.entries.length := by
  obtain ⟨b, l₁, l₂, -, he, hk⟩ := List.exists_of_kerase h
  rw [hk, he]
  simp only [List.length_append, List.length_cons]
  omega

theorem length_insert (c : Index) (key : Bytes) (e : Entry) :
    (c.insert key e).entries.length = if key ∈ c then c.entries.length else c.entries.length + 1 := by
  rw [AList.insert_entries, List.length_cons]
  split
  · have := length_kerase_of_mem (c := c) ‹_›
    omega
  · rw [List.kerase_of_not_mem_keys ‹_›]

theorem length_get_le (c : Index) (key : Bytes) : (c.get now key).2.entries.length ≤ c.entries.length := by
  unfold get; split
  · rename_i e he
    split
    · exact le_rfl
    · rw [length_insert, if_pos (AList.lookup_isSome.mp (by simp [he]))]
  · exact le_rfl

theorem Within.set (h : Within cap c) (v : Bytes) (ttl : Int) : Within cap (c.set now cap key v ttl).1 := by
  unfold Index.set; split
  · rename_i e he
    exact h.mono (by rw [length_insert, if_pos (AList.lookup_isSome.mp (by simp [he]))])
  · rename_i hk
    have hk' : key ∉ c := fun hm => by simpa [hk] using AList.lookup_isSome.mpr hm
    dsimp only
    split_ifs with hfull
    · unfold evictBack
      cases hb : c.back with
      | none =>
        have : c.entries = [] := List.getLast?_eq_none_iff.mp hb
        simp [this] at hfull
      | some i =>
        have hi : i.1 ∈ c := AList.lookup_isSome.mp (by simp [lookup_of_back hb])
        have hlen : (c.erase i.1).entries.length + 1 = c.entries.length := length_kerase_of_mem hi
        have hle : c.entries.length ≤ cap := h.resolve_left hfull.1
        have hnot : key ∉ c.erase i.1 := fun hm => hk' (AList.mem_erase.mp hm).2
        exact .inr (by simp only [length_insert, if_neg hnot]; omega)
    · rcases Decidable.not_and_iff_or_not_not.mp hfull with h0 | hlt
      · exact .inl (not_not.mp h0)
      · exact .inr (by simp only [length_insert, if_neg hk']; omega)

end Index

namespace Provider

/-- The index holds at most as many entries as the capacity, when one is set. -/
def Bounded (p : Provider) : Prop := Index.Within p.capacity p.index

end Provider

theorem Move.bounded {V : Bytes → Prop} {p q : Provider} (h : Move V p q) (hb : p.Bounded) : q.Bounded := by
  have hcap : q.capacity = p.capacity := by simp [Provider.capacity, h.size_path.1]
  unfold Provider.Bounded at hb ⊢
  rw [hcap]
  cases h with
  | stay => exact hb
  | get key => exact hb.mono (Index.length_get_le _ _)
  | set key ttl _ => simpa [Provider.setIndex] using hb.set _ _
  | delete key =>
    refine hb.mono ?_
    simp only [Provider.delete, Provider.apply_index, Index.delete]
    split
    · exact (List.kerase_sublist _ _).length_le
    · exact le_rfl
  | reset => exact .inr (by simp [Provider.reset, Index.deleteAll])
  | sweep => exact hb.mono (by simpa [Provider.sweep, Index.deleteExpired, Index.keep] using List.length_filter_le _ _)
  | write => exact hb
  | tick => exact hb

/-- In every interleaving of calls, other operations, sweeps and clock steps, ttlcache's
capacity holds: with a capacity set, the index never holds more entries than it. -/
theorem capacity_respected {env : Env} {w w' : World} {acts : List Action}
    (hrun : Run (World.Step env) w acts w')
    (hw : w.store.capacity = 0 ∨ w.store.index.entries.length ≤ w.store.capacity) :
    w'.store.capacity = 0 ∨ w'.store.index.entries.length ≤ w'.store.capacity :=
  hrun.inv (fun u => u.store.Bounded) (fun _ _ _ hb h => (World.step_move h).bounded hb) hw

def oneSlotStart : World := ⟨(Provider.factory (utf8 "/c") [] 1 (-1) (utf8 "none") 0 ∅ 0).init, []⟩

def oneSlotActs : List Action :=
  .launch ⟨utf8 "b", utf8 "k", utf8 "a", [], [], 10000000000, []⟩ :: List.replicate 5 (.call 0) ++
    [.set (utf8 "x") (utf8 "v") 10000000000]

def oneSlotEnd : World :=
  (World.runChecked Env.reference (fun _ _ _ => true) oneSlotStart oneSlotActs).getD oneSlotStart

/-- With room for one entry, the write's record evicts its variant and the `Set` evicts the
record: one entry is left. -/
theorem one_slot_respected :
    Run (World.Step Env.reference) oneSlotStart oneSlotActs oneSlotEnd ∧
      (oneSlotStart.store.capacity = 0 ∨ oneSlotStart.store.index.entries.length ≤ oneSlotStart.store.capacity) ∧
      (oneSlotEnd.store.capacity = 0 ∨ oneSlotEnd.store.index.entries.length ≤ oneSlotEnd.store.capacity) ∧
      oneSlotEnd.store.index.entries.length = 1 := by
  have h : World.runChecked Env.reference (fun _ _ _ => true) oneSlotStart oneSlotActs = some oneSlotEnd := rfl
  have hrun : Run (World.Step Env.reference) oneSlotStart oneSlotActs oneSlotEnd :=
    (World.run_of_runChecked h).mono fun _ _ _ hs => hs.1
  exact ⟨hrun, .inr (by decide), capacity_respected hrun (.inr (by decide)), by decide⟩

/-! ## Files -/

theorem Move.takesFiles {V : Bytes → Prop} {p q : Provider} (h : Move V p q) : p.TakesFiles q := by
  intro x e hx hgone
  cases h with
  | stay => rw [hx] at hgone; cases hgone
  | get key => simp [Provider.getIndex, Index.lookup_get, hx] at hgone
  | set key ttl _ => exact Provider.takesFiles_apply (Index.announces_set _ _ _ _ _) x e hx hgone
  | delete key => exact Provider.takesFiles_apply (Index.announces_delete _ _) x e hx hgone
  | reset => exact Provider.takesFiles_apply (Index.announces_deleteAll _) x e hx hgone
  | sweep => exact Provider.takesFiles_apply (Index.announces_deleteExpired _) x e hx hgone
  | write => simp [hx] at hgone
  | tick => simp [Provider.tick, hx] at hgone

/-- `Init` on `/c` next to a file `/d/x` holding `z`. -/
def besideStart : Provider :=
  (Provider.factory (utf8 "/c") [] 0 (-1) (utf8 "none") 0 ((∅ : Fs).writeFile (utf8 "/d/x") (utf8 "z")) 0).init

theorem Move.unnamed {V : Bytes → Prop} {p q : Provider} (h : Move V p q) {f : Bytes}
    (hV : ∀ v, V v → Fs.mayAlias v f = false)
    (hf : p.index.names f = false) : q.index.names f = false ∧ q.fs.lookup f = p.fs.lookup f := by
  have hconf : ∀ {vs r}, p.index.Confined vs r → vs.any (Provider.mayRemove · f) = false →
      (p.apply r).index.names f = false ∧ (p.apply r).fs.lookup f = p.fs.lookup f := by
    intro vs r hc hvs
    refine ⟨?_, Provider.apply_fs_of_confined hc hf⟩
    rw [Provider.apply_index]
    by_contra hn
    rcases hc.1 f (by simpa using hn) with h' | h'
    · rw [hf] at h'; cases h'
    · rw [hvs] at h'; cases h'
  cases h with
  | stay => exact ⟨hf, rfl⟩
  | get key => exact ⟨by simpa [Provider.getIndex] using hf, rfl⟩
  | set key ttl hv => exact hconf (Index.confined_set _ _ _ _ _) (by simp [Provider.mayRemove, hV _ hv])
  | delete key => exact hconf (Index.removes_delete _ _).confined rfl
  | reset => exact hconf (Index.confined_deleteAll _) rfl
  | sweep => exact hconf (Index.removes_deleteExpired _).confined rfl
  | write key data hv => exact ⟨hf, Fs.lookup_writeFile_ne _ (Ne.symm (Fs.resolve_ne_of_mayAlias (hV _ hv)))⟩
  | tick => exact ⟨hf, rfl⟩

/-- No entry's value may name the file `f`, and no running call may write it, at its path or
as the mapping record it is about to store. -/
def World.Unnamed (f : Bytes) (w : World) : Prop :=
  w.store.index.names f = false ∧ ∀ c ∈ w.calls, (∀ v, c.phase = .writeMapping v → Fs.mayAlias v f = false) ∧
    Fs.mayAlias (w.store.joinedFP c.arg.variedKey) f = false

theorem World.unnamed_step {env : Env} {w w' : World} {act : Action} {f : Bytes}
    (hupd : ∀ u r, env.mappingUpdater u = .ok r → Fs.mayAlias r f = false)
    (hset : ∀ k v d, act = .set k v d → Fs.mayAlias v f = false)
    (hlaunch : ∀ a, act = .launch a → Fs.mayAlias (w.store.joinedFP a.variedKey) f = false)
    (hu : w.Unnamed f) (h : World.Step env w act w') :
    w'.Unnamed f ∧ w'.store.fs.lookup f = w.store.fs.lookup f := by
  have hm := World.step_move h
  have hV : ∀ v, w.stored act v → Fs.mayAlias v f = false := by
    rintro v (⟨c, hc, rfl | hph⟩ | ⟨k, d, rfl⟩)
    · exact (hu.2 c hc).2
    · exact (hu.2 c hc).1 v hph
    · exact hset k v d rfl
  obtain ⟨hn, hfs⟩ := hm.unnamed hV hu.1
  have hP : ∀ k, w'.store.joinedFP k = w.store.joinedFP k := fun k => by
    simp [Provider.joinedFP, hm.size_path.2]
  refine ⟨⟨hn, fun c' hc' => ?_⟩, hfs⟩
  rw [hP]
  cases act with
  | launch a =>
    cases h
    rcases List.mem_append.mp hc' with hc' | hc'
    · exact hu.2 c' hc'
    · rw [List.mem_singleton] at hc'
      subst hc'
      refine ⟨fun v hph => ?_, hlaunch a rfl⟩
      unfold startPhase at hph; split at hph <;> cases hph
  | call i =>
    simp only [World.Step, World.step, Option.bind_eq_some, Option.map_eq_some'] at h
    obtain ⟨c, hc, ⟨q, ph⟩, hadv, rfl⟩ := h
    rcases List.mem_or_eq_of_mem_set hc' with hc' | rfl
    · exact hu.2 c' hc'
    · refine ⟨fun v hph => ?_, (hu.2 c (List.getElem?_mem hc)).2⟩
      dsimp only at hph
      subst hph
      obtain ⟨u, hu'⟩ := Call.advance_writeMapping hadv
      exact hupd u _ hu'
  | deleteMany pattern =>
    obtain ⟨q, -, rfl⟩ := Option.map_eq_some'.mp h
    exact hu.2 c' hc'
  | _ => cases h; exact hu.2 c' hc'

/-- `Env.reference` with a `MappingUpdater` that always fails. -/
def Env.noMerge : Env := { Env.reference with mappingUpdater := fun _ => .error "no merge" }

def besideActs : List Action :=
  .launch ⟨utf8 "b", utf8 "k", utf8 "a", [], [], 10000000000, []⟩ :: List.replicate 4 (.call 0) ++
    [.set (utf8 "j") (utf8 "/c/v") 10000000000, .delete (utf8 "j"), .reset]

def besideEnd : World :=
  (World.runChecked Env.noMerge (fun _ _ _ => true) ⟨besideStart, []⟩ besideActs).getD ⟨besideStart, []⟩

theorem Call.advance_fs {env : Env} {p q : Provider} {c : Call} {ph : Phase}
    (h : c.advance env p = some (q, ph)) {f : Bytes} (hf : q.fs.lookup f ≠ none) :
    p.fs.lookup f ≠ none ∨ f = p.joinedFP c.arg.variedKey := by
  unfold Call.advance at h
  split at h
  · split at h <;> cases h
    · unfold Provider.reclaimOne at hf; split at hf
      · exact .inl (Provider.lookup_apply_ne_none hf)
      · exact .inl hf
    · exact .inl hf
  · split at h <;> cases h
    · by_cases hfp : f = p.joinedFP c.arg.variedKey
      · exact .inr hfp
      · exact .inl (by simpa [Fs.writeFile, AList.lookup_insert_ne hfp] using hf)
    · exact .inl hf
  · cases h; exact .inl (Provider.lookup_apply_ne_none hf)
  · split at h <;> cases h <;>
    · rename_i heq
      have hq := congrArg Prod.snd heq
      simp only [mergeVariant_snd] at hq
      rw [← hq] at hf
      exact .inl hf
  · cases h; exact .inl (Provider.lookup_apply_ne_none hf)
  all_goals cases h

theorem World.step_fs {env : Env} {w w' : World} {act : Action} (h : World.Step env w act w') {f : Bytes}
    (hf : w'.store.fs.lookup f ≠ none) :
    w.store.fs.lookup f ≠ none ∨ ∃ c ∈ w.calls, f = w.store.joinedFP c.arg.variedKey := by
  cases act with
  | call i =>
    simp only [World.Step, World.step, Option.bind_eq_some, Option.map_eq_some'] at h
    obtain ⟨c, hc, ⟨q, ph⟩, hadv, rfl⟩ := h
    exact (Call.advance_fs hadv hf).imp_right fun he => ⟨c, List.getElem?_mem hc, he⟩
  | get key => cases h; rw [Provider.get_snd] at hf; exact .inl hf
  | deleteMany pattern =>
    obtain ⟨q, hq, rfl⟩ := Option.map_eq_some'.mp h
    rcases Provider.deleteMany_spec hq with rfl | ⟨_, _, -, -, rfl⟩
    · exact .inl hf
    · exact .inl (Provider.lookup_apply_ne_none hf)
  | launch a => cases h; exact .inl hf
  | getMultiLevel key => cases h; exact .inl hf
  | tick dt => cases h; exact .inl hf
  | _ => cases h; exact .inl (Provider.lookup_apply_ne_none hf)

theorem World.step_calls {env : Env} {w w' : World} {act : Action} (h : World.Step env w act w') :
    ∀ c ∈ w.calls, ∃ c' ∈ w'.calls, c'.arg = c.arg := by
  intro c hc
  cases act with
  | launch a => cases h; exact ⟨c, List.mem_append_left _ hc, rfl⟩
  | call i =>
    simp only [World.Step, World.step, Option.bind_eq_some, Option.map_eq_some'] at h
    obtain ⟨c₀, hc₀, ⟨q, ph⟩, -, rfl⟩ := h
    obtain ⟨j, hj⟩ := List.mem_iff_getElem?.mp hc
    by_cases hij : i = j
    · subst hij
      rw [hc₀] at hj
      cases hj
      have hi : i < w.calls.length := (List.getElem?_eq_some_iff.mp hc₀).1
      exact ⟨{ c with phase := ph }, List.mem_iff_getElem?.mpr ⟨i, by simp [List.getElem?_set, hi]⟩, rfl⟩
    · exact ⟨c, List.mem_iff_getElem?.mpr ⟨j, by rw [List.getElem?_set_ne hij, hj]⟩, rfl⟩
  | deleteMany pattern =>
    obtain ⟨q, -, rfl⟩ := Option.map_eq_some'.mp h
    exact ⟨c, hc, rfl⟩
  | _ => cases h; exact ⟨c, hc, rfl⟩

/-- In every interleaving the provider creates files only at its calls' paths: a file present
at the end was present at the start or is at the path of a call, and a call whose key is not
`""`, `"."` or `".."` has that path directly inside the cleaned storage directory. -/
theorem files_from_calls {env : Env} {w w' : World} {acts : List Action} (hrun : Run (World.Step env) w acts w')
    {f : Bytes} (hf : w'.store.fs.lookup f ≠ none) :
    w.store.fs.lookup f ≠ none ∨ ∃ c ∈ w'.calls, f = w.store.joinedFP c.arg.variedKey ∧
      (c.arg.variedKey ≠ [] ∧ c.arg.variedKey ≠ utf8 "." ∧ c.arg.variedKey ≠ utf8 ".." →
        Fs.inDir w.store.path f = true) := by
  have hinv := hrun.inv
    (fun u => u.store.path = w.store.path ∧ ∀ g, u.store.fs.lookup g ≠ none →
      w.store.fs.lookup g ≠ none ∨ ∃ c ∈ u.calls, g = w.store.joinedFP c.arg.variedKey)
    (fun u act u' hu h => by
      obtain ⟨hpath, hfiles⟩ := hu
      refine ⟨(World.step_move h).size_path.2.trans hpath, fun g hg => ?_⟩
      rcases World.step_fs h hg with hg | ⟨c, hc, rfl⟩
      · rcases hfiles g hg with h0 | ⟨c, hc, rfl⟩
        · exact .inl h0
        · obtain ⟨c', hc', harg⟩ := World.step_calls h c hc
          exact .inr ⟨c', hc', by rw [harg]⟩
      · obtain ⟨c', hc', harg⟩ := World.step_calls h c hc
        exact .inr ⟨c', hc', by rw [harg, Provider.joinedFP, Provider.joinedFP, hpath]⟩)
    ⟨rfl, fun _ hg => .inl hg⟩
  rcases hinv.2 f hf with h0 | ⟨c, hc, rfl⟩
  · exact .inl h0
  · exact .inr ⟨c, hc, rfl, fun hk => by simp [Fs.inDir, (Provider.dir_joinedFP w.store hk).1]⟩

def writeActs : List Action := .launch ⟨utf8 "b", utf8 "k", utf8 "a", [], [], 10000000000, []⟩ :: List.replicate 5 (.call 0)

def writeEnd : World :=
  (World.runChecked Env.reference (fun _ _ _ => true) ⟨besideStart, []⟩ writeActs).getD ⟨besideStart, []⟩

/-- The file `/c/k`, new after the write, is at the call's path, inside `/c`. -/
theorem new_file_in_dir :
    Run (World.Step Env.reference) ⟨besideStart, []⟩ writeActs writeEnd ∧
      besideStart.fs.lookup (utf8 "/c/k") = none ∧ writeEnd.store.fs.lookup (utf8 "/c/k") ≠ none ∧
      (besideStart.fs.lookup (utf8 "/c/k") ≠ none ∨ ∃ c ∈ writeEnd.calls,
        utf8 "/c/k" = besideStart.joinedFP c.arg.variedKey ∧
        (c.arg.variedKey ≠ [] ∧ c.arg.variedKey ≠ utf8 "." ∧ c.arg.variedKey ≠ utf8 ".." →
          Fs.inDir besideStart.path (utf8 "/c/k") = true)) := by
  have h : World.runChecked Env.reference (fun _ _ _ => true) ⟨besideStart, []⟩ writeActs = some writeEnd := rfl
  have hrun : Run (World.Step Env.reference) ⟨besideStart, []⟩ writeActs writeEnd :=
    (World.run_of_runChecked h).mono fun _ _ _ hs => hs.1
  have hf : writeEnd.store.fs.lookup (utf8 "/c/k") ≠ none := by decide
  exact ⟨hrun, by decide, hf, files_from_calls hrun hf⟩

/-! ## Progress -/

/-- The steps a call can still take with no budget: one per phase left. -/
def Phase.rank : Phase → Nat
  | .reclaim _ => 5
  | .write _ => 4
  | .register => 3
  | .readMapping => 2
  | .writeMapping _ => 1
  | .done | .skipped | .failed _ => 0

def Action.isCall (i : Nat) : Action → Bool
  | .call j => j = i
  | _ => false

theorem Call.advance_isSome (env : Env) (p : Provider) {c : Call} (h : c.phase.outcome = none) :
    (c.advance env p).isSome := by
  unfold Call.advance
  split
  any_goals rfl
  · split <;> rfl
  all_goals rename_i hph; simp [hph, Phase.outcome] at h

theorem Call.advance_rank {env : Env} {p q : Provider} {c : Call} {ph : Phase} (hb : p.directorySize < 0)
    (h : c.advance env p = some (q, ph)) : ph.rank < c.phase.rank := by
  have hover : ∀ size, p.overBudget size = false := fun size => by
    simp only [Provider.overBudget, Bool.and_eq_false_iff, decide_eq_false_iff_not]
    omega
  unfold Call.advance at h
  cases hph : c.phase <;> simp only [hph] at h ⊢
  case reclaim data =>
    simp only [hover, Bool.false_eq_true, if_false, Option.some.injEq, Prod.mk.injEq] at h
    simp [← h.2, Phase.rank]
  case write data => split at h <;> cases h <;> simp [Phase.rank]
  case register => cases h; simp [Phase.rank]
  case readMapping => split at h <;> cases h <;> simp [Phase.rank]
  case writeMapping val => cases h; simp [Phase.rank]
  all_goals cases h

theorem World.step_rank {env : Env} {w w' : World} {act : Action} (h : World.Step env w act w')
    (hb : w.store.directorySize < 0) {i : Nat} {c : Call} (hc : w.calls[i]? = some c) :
    ∃ c', w'.calls[i]? = some c' ∧ c'.phase.rank + (if act.isCall i then 1 else 0) ≤ c.phase.rank := by
  cases act
  case launch a =>
    cases h
    exact ⟨c, by rw [List.getElem?_append_left (List.getElem?_eq_some_iff.mp hc).1, hc], by simp [Action.isCall]⟩
  case call j =>
    simp only [World.Step, World.step, Option.bind_eq_some, Option.map_eq_some'] at h
    obtain ⟨c₁, hc₁, ⟨q, ph⟩, hadv, rfl⟩ := h
    by_cases hj : j = i
    · subst hj
      rw [hc] at hc₁
      cases hc₁
      refine ⟨{ c with phase := ph }, ?_, ?_⟩
      · rw [List.getElem?_set_eq_of_lt _ (List.getElem?_eq_some_iff.mp hc).1]
      · have := Call.advance_rank hb hadv
        simp only [Action.isCall, decide_True, if_true]
        omega
    · exact ⟨c, by rw [List.getElem?_set_ne hj, hc], by simp [Action.isCall, hj]⟩
  all_goals
    simp only [World.Step, World.step] at h
    first
    | (cases h; exact ⟨c, hc, by simp [Action.isCall]⟩)
    | (obtain ⟨_, _, rfl⟩ := Option.map_eq_some'.mp h; exact ⟨c, hc, by simp [Action.isCall]⟩)

/-- With no budget, in every schedule, a call takes at most as many steps of its own as its
phase's rank, at most five, and each step of its own moves it on; and a call still running
can always take its next step. So whatever the other calls and operations do in between,
every call returns after at most five steps of its own. With a budget a reclamation round
can repeat forever. -/
theorem calls_return {env : Env} {w w' : World} {acts : List Action} (hrun : Run (World.Step env) w acts w')
    (hb : w.store.directorySize < 0) {i : Nat} {c : Call} (hc : w.calls[i]? = some c) :
    ∃ c', w'.calls[i]? = some c' ∧ acts.countP (Action.isCall i) + c'.phase.rank ≤ c.phase.rank ∧
      (c'.phase.outcome = none → ∃ w'', World.Step env w' (.call i) w'') := by
  induction hrun generalizing c with
  | nil u =>
    refine ⟨c, hc, by simp, fun hrun => ?_⟩
    obtain ⟨⟨q, ph⟩, hr⟩ := Option.isSome_iff_exists.mp (Call.advance_isSome env u.store hrun)
    exact ⟨⟨q, u.calls.set i { c with phase := ph }⟩, by simp [World.Step, World.step, hc, hr]⟩
  | @cons u v _ act acts hstep _ ih =>
    obtain ⟨c₁, hc₁, hle⟩ := World.step_rank hstep hb hc
    obtain ⟨c', hc', hle', hnext⟩ := ih (by rw [(World.step_move hstep).directorySize]; exact hb) hc₁
    refine ⟨c', hc', ?_, hnext⟩
    rw [List.countP_cons]
    omega

/-- The call writing the variant `k` of `b`, compressed to `a`, about to reclaim. -/
def pendingCall : Call := ⟨⟨utf8 "b", utf8 "k", utf8 "a", [], [], 10000000000, []⟩, 0, .reclaim (utf8 "a")⟩

def pendingStart : World := ⟨oneSlotStart.store, [pendingCall]⟩

def pendingActs : List Action :=
  [.call 0, .set (utf8 "x") (utf8 "v") 10000000000, .call 0, .sweep, .call 0, .call 0, .call 0]

def pendingEnd : World :=
  (World.runChecked Env.reference (fun _ _ _ => true) pendingStart pendingActs).getD pendingStart

/-- The call takes five steps of its own and has returned nil. -/
theorem pending_call_returns :
    Run (World.Step Env.reference) pendingStart pendingActs pendingEnd ∧ pendingStart.store.directorySize < 0 ∧
      pendingStart.calls[0]? = some pendingCall ∧
      (∃ c', pendingEnd.calls[0]? = some c' ∧ pendingActs.countP (Action.isCall 0) + c'.phase.rank ≤ pendingCall.phase.rank ∧
        (c'.phase.outcome = none → ∃ w'', World.Step Env.reference pendingEnd (.call 0) w'')) ∧
      (pendingEnd.calls[0]?.map (·.phase.outcome)) = some (some none) := by
  have h : World.runChecked Env.reference (fun _ _ _ => true) pendingStart pendingActs = some pendingEnd := rfl
  have hrun : Run (World.Step Env.reference) pendingStart pendingActs pendingEnd :=
    (World.run_of_runChecked h).mono fun _ _ _ hs => hs.1
  have hb : pendingStart.store.directorySize < 0 := by decide
  exact ⟨hrun, hb, rfl, calls_return hrun hb rfl, by decide⟩

end Simplefs
