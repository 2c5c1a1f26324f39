import Simplefs.Balance
import Simplefs.Schedule

/-! # actualSize under interleaving

In every interleaving of calls on fresh keys, with each hook finished before the next step,
`actualSize` falls short by exactly the bytes written and not yet registered
(`actualSize_interleaved`), and is exact where no call is between the two (`Accounted.balanced`).
-/
namespace Simplefs

open Provider (Known Inert PlainKey Entries gap balanceStart balanceKeys balanceCall)

/-- The phases in which a call has yet to register its path. -/
def Phase.willRegister : Phase → Bool
  | .reclaim _ | .write _ | .register => true
  | _ => false

/-- The bytes of the file a call has written and not yet registered. -/
def Call.unregistered (p₀ : Provider) (fs : Fs) (c : Call) : Int :=
  match c.phase with
  | .register => fs.sizeAt (p₀.joinedFP c.arg.variedKey)
  | _ => 0

theorem Call.unregistered_of_ne {p₀ : Provider} {fs : Fs} {c : Call} (h : c.phase ≠ .register) :
    c.unregistered p₀ fs = 0 := by
  unfold Call.unregistered; split
  · rename_i hr; exact absurd hr h
  · rfl

/-- The bytes of all files written and not yet registered. -/
def World.pending (p₀ : Provider) (w : World) : Int :=
  (w.calls.map (Call.unregistered p₀ w.store.fs)).foldr (· + ·) 0

theorem foldr_add_append_singleton (l : List Int) (x : Int) :
    (l ++ [x]).foldr (· + ·) 0 = l.foldr (· + ·) 0 + x := by
  rw [List.foldr_append, List.foldr_cons, List.foldr_nil, Int.add_zero, foldr_add_init]

theorem foldr_add_set : ∀ {l : List Int} {i : Nat} {x : Int}, l[i]? = some x → ∀ y : Int,
    (l.set i y).foldr (· + ·) 0 = l.foldr (· + ·) 0 - x + y
  | [], _, _, h, _ => by cases h
  | a :: l, 0, x, h, y => by
    simp only [List.getElem?_cons_zero, Option.some.injEq] at h
    subst h
    simp only [List.set_cons_zero, List.foldr_cons]
    omega
  | a :: l, i + 1, x, h, y => by
    rw [List.getElem?_cons_succ] at h
    simp only [List.set_cons_succ, List.foldr_cons, foldr_add_set h y]
    omega

theorem foldr_add_of_zero : ∀ {l : List Int}, (∀ x ∈ l, x = 0) → l.foldr (· + ·) 0 = 0
  | [], _ => rfl
  | x :: l, h => by
    rw [List.foldr_cons, h x (List.mem_cons_self _ _), foldr_add_of_zero fun y hy => h y (List.mem_cons_of_mem _ hy)]
    rfl

theorem foldr_unregistered_set {p₀ : Provider} {fs : Fs} {cs : List Call} {i : Nat} {c : Call}
    (hc : cs[i]? = some c) (ph : Phase) :
    ((cs.set i { c with phase := ph }).map (Call.unregistered p₀ fs)).foldr (· + ·) 0 =
      (cs.map (Call.unregistered p₀ fs)).foldr (· + ·) 0 - c.unregistered p₀ fs +
        Call.unregistered p₀ fs { c with phase := ph } := by
  rw [List.map_set, foldr_add_set (x := c.unregistered p₀ fs) (by simp [hc])]

theorem pending_congr {p₀ : Provider} {s s' : Provider} {cs : List Call}
    (h : ∀ c ∈ cs, c.phase = .register →
      s'.fs.lookup (p₀.joinedFP c.arg.variedKey) = s.fs.lookup (p₀.joinedFP c.arg.variedKey)) :
    World.pending p₀ ⟨s', cs⟩ = World.pending p₀ ⟨s, cs⟩ := by
  unfold World.pending
  congr 1
  refine List.map_congr_left fun c hc => ?_
  unfold Call.unregistered
  split
  · rename_i hph
    simp only [Fs.sizeAt, h c hc hph]
  · rfl

/-- What a schedule may do: launch a call of `A` on a key that neither the index nor another
call holds, and never a raw `Set`. -/
def Admitted (A : Variant → Prop) (w : World) : Action → Prop
  | .launch a => A a ∧ a.variedKey ∉ w.store.index ∧ ∀ c ∈ w.calls, c.arg.variedKey ≠ a.variedKey
  | .set _ _ _ => False
  | _ => True

theorem map_set_of_eq {α β : Type} {f : α → β} {l : List α} {i : Nat} {a b : α} (h : l[i]? = some a)
    (hf : f b = f a) : (l.set i b).map f = l.map f := by
  apply List.ext_getElem?
  intro j
  rw [List.getElem?_map, List.getElem?_map, List.getElem?_set']
  split
  · rename_i hij
    subst hij
    simp [h, hf]
  · rfl

theorem mem_set_of_ne {α : Type} {l : List α} {i : Nat} {a b x : α} (h : l[i]? = some a) (hx : x ∈ l)
    (hne : x ≠ a) : x ∈ l.set i b := by
  obtain ⟨j, hj⟩ := List.mem_iff_getElem?.mp hx
  have hij : i ≠ j := fun hij => hne (by subst hij; rw [h] at hj; exact (Option.some.inj hj).symm)
  exact List.mem_iff_getElem?.mpr ⟨j, by rw [List.getElem?_set_ne hij, hj]⟩

theorem mem_set_self_of {α : Type} {l : List α} {i : Nat} {a b : α} (h : l[i]? = some a) : b ∈ l.set i b :=
  List.mem_iff_getElem?.mpr ⟨i, by rw [List.getElem?_set_self (List.getElem?_eq_some_iff.mp h).1]⟩

section Accounting

variable {A : Variant → Prop} {p₀ : Provider}

/-- What keeps `actualSize` short by exactly the pending bytes: the serial invariant of
`Balance`, where a key of `A` outside the index may have a file while its call is about to
register it; every call is of `A`, on its own key, and a call that has yet to register finds
its key outside the index. -/
structure Accounted (A : Variant → Prop) (p₀ : Provider) (w : World) : Prop where
  path : w.store.path = p₀.path
  exact : gap p₀.path w.store + w.pending p₀ = 0
  entries : Entries A p₀ w.store
  calls : ∀ c ∈ w.calls, A c.arg
  keys : (w.calls.map fun c => c.arg.variedKey).Nodup
  fresh : ∀ c ∈ w.calls, c.phase.willRegister = true → c.arg.variedKey ∉ w.store.index
  records : ∀ c ∈ w.calls, ∀ val, c.phase = .writeMapping val → Inert A p₀ val
  stray : ∀ a, A a → a.variedKey ∉ w.store.index →
    (∀ c ∈ w.calls, c.arg.variedKey = a.variedKey → c.phase ≠ .register) →
      w.store.fs.lookup (p₀.joinedFP a.variedKey) = none
  files : ∀ f, w.store.fs.lookup f ≠ none → Known A p₀ f

variable {s : Provider} {cs : List Call}

theorem Accounted.call_eq (h : Accounted A p₀ ⟨s, cs⟩) {c c' : Call} (hc : c ∈ cs) (hc' : c' ∈ cs)
    (hk : c.arg.variedKey = c'.arg.variedKey) : c = c' :=
  List.inj_on_of_nodup_map h.keys hc hc' hk

theorem Accounted.file_kept (h : Accounted A p₀ ⟨s, cs⟩) (hA : ∀ a, A a → PlainKey p₀ a.variedKey)
    {r : Index × List Event}
    (hev : ∀ x v, Event.eviction x v ∈ r.2 → ∃ e, s.index.lookup x = some e ∧ e.value = v ∧ r.1.lookup x = none)
    {c : Call} (hc : c ∈ cs) (hph : c.phase.willRegister = true) :
    (s.apply r).fs.lookup (p₀.joinedFP c.arg.variedKey) = s.fs.lookup (p₀.joinedFP c.arg.variedKey) := by
  rw [Provider.apply_fs_lookup, if_neg]
  simp only [List.any_eq_true, not_exists, not_and, Bool.not_eq_true]
  intro ev hmem
  cases ev with
  | insertion => rfl
  | eviction x v =>
    obtain ⟨e, hx, rfl, -⟩ := hev x v hmem
    exact h.entries.evict_keeps hA (h.calls c hc) hx fun hxk => h.fresh c hc hph (hxk ▸ AList.lookup_isSome.mp (by simp [hx]))

theorem Accounted.pending_apply (h : Accounted A p₀ ⟨s, cs⟩) (hA : ∀ a, A a → PlainKey p₀ a.variedKey)
    {r : Index × List Event}
    (hev : ∀ x v, Event.eviction x v ∈ r.2 → ∃ e, s.index.lookup x = some e ∧ e.value = v ∧ r.1.lookup x = none) :
    World.pending p₀ ⟨s.apply r, cs⟩ = World.pending p₀ ⟨s, cs⟩ :=
  pending_congr fun c hc hph => h.file_kept hA hev hc (by rw [hph]; rfl)

theorem Accounted.apply_removes (h : Accounted A p₀ ⟨s, cs⟩) (hA : ∀ a, A a → PlainKey p₀ a.variedKey)
    {r : Index × List Event} (hr : s.index.Removes r) (hann : s.index.Announces r)
    (hevs : ∀ ev ∈ r.2, ∃ k v, ev = .eviction k v) : Accounted A p₀ ⟨s.apply r, cs⟩ := by
  have hsub : ∀ x, x ∈ r.1 → x ∈ s.index := fun x hx => by
    obtain ⟨e, he⟩ := Option.isSome_iff_exists.mp (AList.lookup_isSome.mpr hx)
    exact AList.lookup_isSome.mp (by simp [hr.1 x e he])
  refine ⟨(Provider.apply_path s r).trans h.path, ?_, h.entries.apply_removes hr, h.calls, h.keys,
    fun c hc hw hk => h.fresh c hc hw (hsub _ (by simpa using hk)), h.records,
    fun a ha hk hP => Provider.stray_apply h.entries hA hann ha (by simpa using hk) fun hk' => h.stray a ha hk' hP,
    fun f hf => h.files f (Provider.lookup_apply_ne_none hf)⟩
  show gap p₀.path (s.apply r) + World.pending p₀ ⟨s.apply r, cs⟩ = 0
  rw [Provider.gap_apply_removes h.entries hA h.files hr hevs, h.pending_apply hA hr.2]
  exact h.exact

theorem Accounted.getIndex (h : Accounted A p₀ ⟨s, cs⟩) (key : Bytes) : Accounted A p₀ ⟨(s.getIndex key).2, cs⟩ := by
  have hmem : ∀ x, x ∈ (s.getIndex key).2.index ↔ x ∈ s.index := fun x => by simp [Provider.getIndex]
  exact ⟨h.path, h.exact, h.entries.getIndex key, h.calls, h.keys, fun c hc hw hk => h.fresh c hc hw ((hmem _).mp hk),
    h.records, fun a ha hk hP => h.stray a ha (by rwa [hmem] at hk) hP, h.files⟩

theorem Accounted.tick (h : Accounted A p₀ ⟨s, cs⟩) (dt : Nat) : Accounted A p₀ ⟨s.tick dt, cs⟩ :=
  ⟨h.path, h.exact, ⟨h.entries.data, h.entries.record⟩, h.calls, h.keys, h.fresh, h.records, h.stray, h.files⟩

theorem Accounted.setRecord (h : Accounted A p₀ ⟨s, cs⟩) (hA : ∀ a, A a → PlainKey p₀ a.variedKey)
    {key v : Bytes} (hkey : isMapping key = true) (hv : Inert A p₀ v) (ttl : Int) :
    Accounted A p₀ ⟨s.setIndex key v ttl, cs⟩ := by
  have hmap : isMapping key = false → False := fun hm => by rw [hkey] at hm; cases hm
  refine ⟨(Provider.apply_path _ _).trans h.path, ?_,
    h.entries.setIndex (fun hm => (hmap hm).elim) fun _ => hv, h.calls, h.keys, fun c hc hw hk => ?_, h.records,
    fun a ha hk hP => ?_, fun f hf => h.files f (Provider.lookup_apply_ne_none hf)⟩
  · show gap p₀.path (s.setIndex key v ttl) + World.pending p₀ ⟨s.apply _, cs⟩ = 0
    rw [Provider.gap_setIndex (fun _ _ hx => h.entries.harmless hA h.files hx) fun _ hm => (hmap hm).elim,
      if_pos (.inr hkey), Int.add_zero, h.pending_apply hA fun _ _ hx => Index.evicted_set hx]
    exact h.exact
  · rcases Index.mem_of_mem_set (by simpa [Provider.setIndex] using hk) with hck | hx
    · have hm := (hA c.arg (h.calls c hc)).2.1
      rw [hck, hkey] at hm; cases hm
    · exact h.fresh c hc hw hx
  · have hgone : a.variedKey ∉ (s.index.set s.now s.capacity key v ttl).1 := by simpa [Provider.setIndex] using hk
    exact Provider.stray_apply h.entries hA (Index.announces_set _ _ _ _ _) ha hgone fun hk' => h.stray a ha hk' hP

theorem Accounted.set_calls (h : Accounted A p₀ ⟨s, cs⟩) {i : Nat} {c : Call} (hc : cs[i]? = some c) (ph : Phase) :
    (∀ c' ∈ cs.set i { c with phase := ph }, A c'.arg) ∧
      ((cs.set i { c with phase := ph }).map fun c => c.arg.variedKey).Nodup := by
  refine ⟨fun c' hc' => ?_, by rw [map_set_of_eq (f := fun c : Call => c.arg.variedKey) (b := { c with phase := ph }) hc rfl]; exact h.keys⟩
  rcases List.mem_or_eq_of_mem_set hc' with hc' | rfl
  · exact h.calls c' hc'
  · exact h.calls c (List.mem_iff_getElem?.mpr ⟨i, hc⟩)

theorem Accounted.other_call (h : Accounted A p₀ ⟨s, cs⟩) {i : Nat} {c c' : Call} {ph : Phase}
    (hc : cs[i]? = some c) (hc' : c' ∈ cs.set i { c with phase := ph }) (hne : c'.phase ≠ ph) :
    c' ∈ cs ∧ c'.arg.variedKey ≠ c.arg.variedKey := by
  have hnew : c' ≠ { c with phase := ph } := fun he => hne (by rw [he])
  rcases List.mem_or_eq_of_mem_set hc' with hmem | heq
  · exact ⟨hmem, fun hk => hnew (List.inj_on_of_nodup_map (h.set_calls hc ph).2 hc' (mem_set_self_of hc) hk)⟩
  · exact absurd heq hnew

theorem Accounted.rephase (h : Accounted A p₀ ⟨s, cs⟩) {i : Nat} {c : Call} {ph : Phase} (hc : cs[i]? = some c)
    (hold : c.phase ≠ .register) (hnew : ph ≠ .register) (hwill : ph.willRegister = true → c.phase.willRegister = true)
    (hrec : ∀ val, ph = .writeMapping val → Inert A p₀ val) :
    Accounted A p₀ ⟨s, cs.set i { c with phase := ph }⟩ := by
  have hcs := h.set_calls hc ph
  refine ⟨h.path, ?_, h.entries, hcs.1, hcs.2, fun c' hc' hw => ?_, fun c' hc' val hval => ?_, fun a ha hk hP => ?_, h.files⟩
  · show gap p₀.path s + ((cs.set i { c with phase := ph }).map (Call.unregistered p₀ s.fs)).foldr (· + ·) 0 = 0
    have h0 : gap p₀.path s + World.pending p₀ ⟨s, cs⟩ = 0 := h.exact
    rw [foldr_unregistered_set hc, Call.unregistered_of_ne (c := { c with phase := ph }) hnew, Call.unregistered_of_ne hold]
    simp only [World.pending] at h0
    omega
  · rcases List.mem_or_eq_of_mem_set hc' with hc' | rfl
    · exact h.fresh c' hc' hw
    · exact h.fresh c (List.mem_iff_getElem?.mpr ⟨i, hc⟩) (hwill hw)
  · rcases List.mem_or_eq_of_mem_set hc' with hc' | rfl
    · exact h.records c' hc' val hval
    · exact hrec val hval
  · refine h.stray a ha hk fun c' hc' hkey => ?_
    by_cases hcc : c' = c
    · subst hcc; exact hold
    · exact hP c' (mem_set_of_ne hc hc' hcc) hkey

theorem Accounted.write (h : Accounted A p₀ ⟨s, cs⟩) (hA : ∀ a, A a → PlainKey p₀ a.variedKey)
    {i : Nat} {c : Call} {data : Bytes} (hc : cs[i]? = some c) (hph : c.phase = .write data) :
    Accounted A p₀ ⟨{ s with fs := s.fs.writeFile (s.joinedFP c.arg.variedKey) data },
      cs.set i { c with phase := .register }⟩ := by
  have hcmem := List.mem_iff_getElem?.mpr ⟨i, hc⟩
  have ha := h.calls c hcmem
  have hpa := hA c.arg ha
  have hP := Provider.joinedFP_of_path h.path c.arg.variedKey
  have hcs := h.set_calls hc .register
  set f := p₀.joinedFP c.arg.variedKey
  have hf : Fs.resolve f = f := resolve_joinedFP _ _
  have hnone : s.fs.lookup f = none :=
    h.stray c.arg ha (h.fresh c hcmem (by rw [hph]; rfl)) fun c' hc' hk => by
      rw [h.call_eq hc' hcmem hk, hph]; exact fun h' => by cases h'
  have hother : ∀ c' ∈ cs, c'.phase = .register → (s.fs.writeFile f data).lookup (p₀.joinedFP c'.arg.variedKey) =
      s.fs.lookup (p₀.joinedFP c'.arg.variedKey) := fun c' hc' hr => by
    have hne : c'.arg.variedKey ≠ c.arg.variedKey := fun hk => by
      rw [h.call_eq hc' hcmem hk, hph] at hr; cases hr
    rw [Fs.lookup_writeFile_ne _ (by rw [hf]; exact Provider.joinedFP_ne hA ha (h.calls c' hc') hne)]
  refine ⟨h.path, ?_, ⟨h.entries.data, h.entries.record⟩, hcs.1, hcs.2, fun c' hc' hw => ?_, fun c' hc' val hval => ?_,
    fun a' ha' hk hP' => ?_, fun g hg => ?_⟩
  · show gap p₀.path { s with fs := s.fs.writeFile (s.joinedFP c.arg.variedKey) data } +
      ((cs.set i { c with phase := .register }).map
        (Call.unregistered p₀ (s.fs.writeFile (s.joinedFP c.arg.variedKey) data))).foldr (· + ·) 0 = 0
    rw [hP]
    have hpend : (cs.map (Call.unregistered p₀ (s.fs.writeFile f data))).foldr (· + ·) 0 = World.pending p₀ ⟨s, cs⟩ :=
      (pending_congr hother : World.pending p₀ ⟨{ s with fs := s.fs.writeFile f data }, cs⟩ = _)
    have hc0 : Call.unregistered p₀ (s.fs.writeFile f data) c = 0 := Call.unregistered_of_ne (by rw [hph]; nofun)
    have hc1 : Call.unregistered p₀ (s.fs.writeFile f data) { c with phase := .register } = data.length := by
      simp [Call.unregistered, Fs.sizeAt, Fs.writeFile, f]
    rw [foldr_unregistered_set hc, hpend, hc0, hc1]
    have h0 := h.exact
    simp only [Provider.gap, Fs.dirSize_writeFile] at h0 ⊢
    rw [hf]
    simp only [Provider.inDir_joinedFP hpa, if_true, Fs.sizeAt, hnone, Option.map_none', Option.getD_none] at h0 ⊢
    omega
  · rcases List.mem_or_eq_of_mem_set hc' with hc' | rfl
    · exact h.fresh c' hc' hw
    · exact h.fresh c hcmem (by rw [hph]; rfl)
  · rcases List.mem_or_eq_of_mem_set hc' with hc' | rfl
    · exact h.records c' hc' val hval
    · cases hval
  · by_cases hk' : a'.variedKey = c.arg.variedKey
    · exact absurd rfl (hP' _ (mem_set_self_of hc) hk'.symm)
    · show (s.fs.writeFile (s.joinedFP c.arg.variedKey) data).lookup _ = none
      rw [hP, Fs.lookup_writeFile_ne _ (by rw [hf]; exact Provider.joinedFP_ne hA ha ha' hk')]
      refine h.stray a' ha' hk fun c' hc' hkey => ?_
      have hcc : c' ≠ c := fun hcc => hk' (hcc ▸ hkey).symm
      exact hP' c' (mem_set_of_ne hc hc' hcc) hkey
  · by_cases hgf : g = s.joinedFP c.arg.variedKey
    · exact .inr ⟨c.arg, ha, hgf.trans hP⟩
    · exact h.files g (by simpa [Fs.writeFile, AList.lookup_insert_ne hgf] using hg)

theorem Accounted.register (h : Accounted A p₀ ⟨s, cs⟩) (hA : ∀ a, A a → PlainKey p₀ a.variedKey)
    {i : Nat} {c : Call} (hc : cs[i]? = some c) (hph : c.phase = .register) :
    Accounted A p₀ ⟨s.setIndex c.arg.variedKey (s.joinedFP c.arg.variedKey) c.arg.duration,
      cs.set i { c with phase := .readMapping }⟩ := by
  have hcmem := List.getElem?_mem hc
  have ha := h.calls c hcmem
  have hcs := h.set_calls hc .readMapping
  have hkey : c.arg.variedKey ∉ s.index := h.fresh c hcmem (by rw [hph]; rfl)
  rw [Provider.joinedFP_of_path h.path]
  refine ⟨(Provider.apply_path _ _).trans h.path, ?_,
    h.entries.setIndex (fun _ => ⟨rfl, c.arg, ha, rfl⟩) (fun hm => by rw [(hA c.arg ha).2.1] at hm; cases hm),
    hcs.1, hcs.2, fun c' hc' hw hk' => ?_, fun c' hc' val hval => h.records c' (h.other_call hc hc' (by rw [hval]; nofun)).1 val hval,
    fun a' ha' hk' hP => ?_, fun f hf => h.files f (Provider.lookup_apply_ne_none hf)⟩
  · have hc0 : Call.unregistered p₀ (s.setIndex c.arg.variedKey (p₀.joinedFP c.arg.variedKey) c.arg.duration).fs c =
        s.fs.sizeAt (p₀.joinedFP c.arg.variedKey) := by
      simp only [Call.unregistered, hph, Fs.sizeAt]
      rw [Provider.setIndex, h.file_kept hA (fun _ _ hx => Index.evicted_set hx) hcmem (by rw [hph]; rfl)]
    have hpend : World.pending p₀ ⟨s.setIndex c.arg.variedKey (p₀.joinedFP c.arg.variedKey) c.arg.duration, cs⟩ =
        World.pending p₀ ⟨s, cs⟩ := h.pending_apply hA fun _ _ hx => Index.evicted_set hx
    have h0 : gap p₀.path s + World.pending p₀ ⟨s, cs⟩ = 0 := h.exact
    show gap p₀.path _ + ((cs.set i _).map (Call.unregistered p₀ _)).foldr (· + ·) 0 = 0
    rw [foldr_unregistered_set hc, hc0, Call.unregistered_of_ne (c := { c with phase := .readMapping }) (fun h => by cases h),
      Provider.gap_setIndex (fun _ _ hx => h.entries.harmless hA h.files hx)
        fun _ _ _ _ hx => by rw [resolve_joinedFP]; exact h.entries.evict_keeps hA ha hx,
      if_neg (by simp [hkey, (hA c.arg ha).2.1]), resolve_joinedFP]
    simp only [World.pending] at hpend h0 ⊢
    omega
  · obtain ⟨hc'', hne⟩ := h.other_call hc hc' fun he => by rw [he] at hw; cases hw
    rcases Index.mem_of_mem_set (by simpa [Provider.setIndex] using hk') with hck | hx
    · exact hne hck
    · exact h.fresh c' hc'' hw hx
  · have hgone : a'.variedKey ∉ (s.index.set s.now s.capacity c.arg.variedKey (p₀.joinedFP c.arg.variedKey)
        c.arg.duration).1 := by simpa [Provider.setIndex] using hk'
    refine Provider.stray_apply h.entries hA (Index.announces_set _ _ _ _ _) ha' hgone fun hk'' =>
      h.stray a' ha' hk'' fun c' hc' hkey' => ?_
    by_cases hcc : c' = c
    · subst hcc; exact absurd Index.mem_set_self (hkey' ▸ hgone)
    · exact hP c' (mem_set_of_ne hc hc' hcc) hkey'

theorem Accounted.launch (h : Accounted A p₀ ⟨s, cs⟩) {env : Env} {a : Variant} (ha : A a)
    (hk : a.variedKey ∉ s.index) (hnew : ∀ c ∈ cs, c.arg.variedKey ≠ a.variedKey) :
    Accounted A p₀ ⟨s, cs ++ [⟨a, s.now, startPhase env s a⟩]⟩ := by
  have hstart : startPhase env s a ≠ .register ∧ ∀ val, startPhase env s a ≠ .writeMapping val := by
    unfold startPhase; split <;> exact ⟨nofun, fun _ => nofun⟩
  have hmem : ∀ {c}, c ∈ cs ++ [⟨a, s.now, startPhase env s a⟩] → c ∈ cs ∨ c = ⟨a, s.now, startPhase env s a⟩ :=
    fun hc => by simpa using hc
  refine ⟨h.path, ?_, h.entries, fun c hc => ?_, ?_, fun c hc hw => ?_, fun c hc val hval => ?_,
    fun a' ha' hk' hP => h.stray a' ha' hk' fun c hc => hP c (List.mem_append_left _ hc), h.files⟩
  · have h0 := h.exact
    show gap p₀.path s + ((cs ++ _).map (Call.unregistered p₀ s.fs)).foldr (· + ·) 0 = 0
    rw [List.map_append, List.map_singleton, foldr_add_append_singleton, Call.unregistered_of_ne hstart.1]
    simp only [World.pending] at h0
    omega
  · rcases hmem hc with hc | rfl
    · exact h.calls c hc
    · exact ha
  · rw [List.map_append, List.map_singleton]
    refine h.keys.append (List.nodup_singleton _) fun x hx hx' => ?_
    obtain ⟨c, hc, rfl⟩ := List.mem_map.mp hx
    exact hnew c hc (List.mem_singleton.mp hx')
  · rcases hmem hc with hc | rfl
    · exact h.fresh c hc hw
    · exact hk
  · rcases hmem hc with hc | rfl
    · exact h.records c hc val hval
    · exact absurd hval (hstart.2 val)

theorem Accounted.advance (h : Accounted A p₀ ⟨s, cs⟩) (hA : ∀ a, A a → PlainKey p₀ a.variedKey)
    {env : Env} (hrec : ∀ u r, env.mappingUpdater u = .ok r → Inert A p₀ r) {i : Nat} {c : Call} {q : Provider}
    {ph : Phase} (hc : cs[i]? = some c) (hadv : c.advance env s = some (q, ph)) :
    Accounted A p₀ ⟨q, cs.set i { c with phase := ph }⟩ := by
  unfold Call.advance at hadv
  split at hadv
  · rename_i data hph
    have hre : ∀ {t : Provider} {ph' : Phase}, Accounted A p₀ ⟨t, cs⟩ → (ph' = .reclaim data ∨ ph' = .write data) →
        Accounted A p₀ ⟨t, cs.set i { c with phase := ph' }⟩ := fun ht hph' =>
      ht.rephase hc (by rw [hph]; nofun) (by rcases hph' with rfl | rfl <;> nofun) (fun _ => by rw [hph]; rfl)
        fun _ hv => by rcases hph' with rfl | rfl <;> cases hv
    split at hadv <;> cases hadv
    · refine hre ?_ (.inl rfl)
      unfold Provider.reclaimOne; split
      · exact h.apply_removes hA (Index.removes_delete _ _) (Index.announces_delete _ _) (Index.delete_evictions _ _)
      · exact h
    · exact hre h (.inr rfl)
  · rename_i data hph
    split at hadv <;> cases hadv
    · exact h.write hA hc hph
    · exact h.rephase hc (by rw [hph]; nofun) nofun (fun hw => by cases hw) fun _ hv => by cases hv
  · rename_i hph
    cases hadv
    exact h.register hA hc hph
  · rename_i hph
    have hget : ∀ {r : Except String Bytes} {t : Provider}, mergeVariant env s c.arg c.start = (r, t) →
        Accounted A p₀ ⟨t, cs⟩ := fun {_ t} heq => by
      have ht : (s.getIndex (Provider.mappingKey c.arg.baseKey)).2 = t := congrArg Prod.snd heq
      exact ht ▸ h.getIndex _
    split at hadv <;> cases hadv <;> rename_i heq
    · exact (hget heq).rephase hc (by rw [hph]; nofun) nofun (fun hw => by cases hw)
        fun _ hv => by cases hv; exact hrec _ _ (congrArg Prod.fst heq)
    · exact (hget heq).rephase hc (by rw [hph]; nofun) nofun (fun hw => by cases hw) fun _ hv => by cases hv
  · rename_i val hph
    cases hadv
    exact (h.setRecord hA ( isMapping_prefix _) (h.records c (List.getElem?_mem hc) val hph) _).rephase hc
      (by rw [hph]; nofun) nofun (fun hw => by cases hw) fun _ hv => by cases hv
  all_goals cases hadv

theorem Accounted.step {env : Env} {w w' : World} {act : Action} (h : Accounted A p₀ w)
    (hA : ∀ a, A a → PlainKey p₀ a.variedKey) (hrec : ∀ u r, env.mappingUpdater u = .ok r → Inert A p₀ r)
    (hstep : World.Step env w act w') (hadm : Admitted A w act) : Accounted A p₀ w' := by
  obtain ⟨s, cs⟩ := w
  cases act with
  | launch a => cases hstep; exact h.launch hadm.1 hadm.2.1 hadm.2.2
  | call i =>
    simp only [World.Step, World.step, Option.bind_eq_some, Option.map_eq_some'] at hstep
    obtain ⟨c, hc, ⟨q, ph⟩, hadv, rfl⟩ := hstep
    exact h.advance hA hrec hc hadv
  | get key => cases hstep; rw [Provider.get_snd]; exact h.getIndex key
  | getMultiLevel key => cases hstep; exact h.getIndex _
  | set => exact hadm.elim
  | delete key =>
    cases hstep
    exact h.apply_removes hA (Index.removes_delete _ _) (Index.announces_delete _ _) (Index.delete_evictions _ _)
  | deleteMany pattern =>
    obtain ⟨q, hq, rfl⟩ := Option.map_eq_some'.mp hstep
    rcases Provider.deleteMany_spec hq with rfl | ⟨_, _, -, -, rfl⟩
    · exact h
    · exact h.apply_removes hA (Index.removes_delete _ _) (Index.announces_delete _ _) (Index.delete_evictions _ _)
  | reset =>
    cases hstep
    exact h.apply_removes hA (Index.removes_deleteAll _) (Index.announces_deleteAll _) (Index.deleteAll_evictions _)
  | sweep =>
    cases hstep
    exact h.apply_removes hA (Index.removes_deleteExpired _) (Index.announces_deleteExpired _)
      (Index.deleteExpired_evictions _)
  | tick dt => cases hstep; exact h.tick dt

theorem Provider.Balanced.accounted (hb : Provider.Balanced A p₀ s) : Accounted A p₀ ⟨s, []⟩ :=
  ⟨hb.path, by simpa [World.pending] using hb.exact, hb.entries, nofun, List.nodup_nil, nofun, nofun,
    fun a ha hk _ => hb.stray a ha hk, hb.files⟩

theorem Accounted.balanced (h : Accounted A p₀ ⟨s, cs⟩) (hidle : ∀ c ∈ cs, c.phase ≠ .register) :
    Provider.Balanced A p₀ s := by
  have h0 : World.pending p₀ ⟨s, cs⟩ = 0 := foldr_add_of_zero fun x hx => by
    obtain ⟨c, hc, rfl⟩ := List.mem_map.mp hx
    exact Call.unregistered_of_ne (hidle c hc)
  refine ⟨h.path, by simpa [h0] using h.exact, h.entries, fun a ha hk => h.stray a ha hk fun c hc _ => hidle c hc,
    h.files⟩

end Accounting

def balanceAdmitted (w : World) : Action → Bool
  | .launch a => (a.variedKey = utf8 "k" || a.variedKey = utf8 "j") && !decide (a.variedKey ∈ w.store.index) &&
      w.calls.all fun c => !decide (c.arg.variedKey = a.variedKey)
  | .set _ _ _ => false
  | _ => true

theorem balanceAdmitted_admitted (w : World) (act : Action) (h : balanceAdmitted w act = true) :
    Admitted balanceKeys w act := by
  cases act with
  | launch a =>
    simp only [balanceAdmitted, Bool.and_eq_true, Bool.or_eq_true, decide_eq_true_eq, Bool.not_eq_true',
      decide_eq_false_iff_not, List.all_eq_true] at h
    exact ⟨h.1.1, h.1.2, h.2⟩
  | set => cases h
  | _ => trivial

def interleavedActs : List Action :=
  [.launch (balanceCall "k"), .call 0, .call 0, .launch (balanceCall "j"), .call 1, .call 1, .call 0]

def interleavedEnd : World :=
  (World.runChecked Env.reference (fun u act _ => balanceAdmitted u act) ⟨balanceStart, []⟩ interleavedActs).getD
    ⟨balanceStart, []⟩

end Simplefs
