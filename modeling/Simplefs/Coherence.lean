import Simplefs.LostUpdate

/-! # Files and mapping records of written variants

A `Delete` between a rewrite's file write and its registration removes the new file
(`rewrite_race`). Calls that do not interleave, with every hook finished before the next
operation, keep each entry's file and record in step (`serial_coherent`).
-/
namespace Simplefs

open Provider (mappingKey plainVariant)

/-! ## A delete between the write and the registration -/

/-- A provider with no capacity and no budget, compressing under the empty name. -/
def raceStart : Provider := (Provider.factory (utf8 "/c") [] 0 (-1) [] 0 ∅ 0).init

def rewriteVariant : Variant := ⟨utf8 "b", utf8 "k", utf8 "z", [], [], 10000000000, []⟩

def rewriteRace : List Action :=
  .launch plainVariant :: List.replicate 5 (.call 0) ++ .launch rewriteVariant :: List.replicate 2 (.call 1) ++
    .delete (utf8 "k") :: List.replicate 3 (.call 1)

def racedRewrite : World :=
  (World.runChecked Env.reference (fun _ _ _ => true) ⟨raceStart, []⟩ rewriteRace).getD ⟨raceStart, []⟩

/-- After `rewriteRace` no call is running and `k` is live, but its file is gone and `Get(k)`
returns the path. -/
theorem rewrite_race :
    Run (World.Step Env.reference) ⟨raceStart, []⟩ rewriteRace racedRewrite ∧ racedRewrite.idle ∧
      (racedRewrite.store.getIndex (utf8 "k")).1.map (·.value) = some (utf8 "/c/k") ∧
      racedRewrite.store.fs.lookup (utf8 "/c/k") = none ∧
      (racedRewrite.store.get Env.reference (utf8 "k")).1 = some (utf8 "/c/k") := by
  have h : World.runChecked Env.reference (fun _ _ _ => true) ⟨raceStart, []⟩ rewriteRace =
      some racedRewrite := rfl
  exact ⟨(World.run_of_runChecked h).mono fun _ _ _ hs => hs.1, by decide, by decide, by decide, by decide⟩

/-! ## Serial runs -/

namespace Provider

/-- The bytes of `b`'s mapping record. -/
def recordOf (p : Provider) (b : Bytes) : Option Bytes := (p.index.lookup (mappingKey b)).map (·.value)

/-- Distinct varied keys of `A` have distinct paths under the directory `dir`. -/
def PathsDistinct (A : Variant → Prop) (dir : Bytes) : Prop :=
  ∀ a a', A a → A a' → join dir (pathEscape a.variedKey) = join dir (pathEscape a'.variedKey) →
    a.variedKey = a'.variedKey

/-- No varied key of `A` is a mapping key. -/
def KeysPlain (A : Variant → Prop) : Prop := ∀ a b, A a → a.variedKey ≠ mappingKey b

section Coherence

variable {env : Env} (V : MappingView env) (A : Variant → Prop)

/-- Entry `e` of key `k` was registered by a call `a` of `A` on `k`: it holds `k`'s path, the
file there holds the bytes `a` wrote, and `a`'s base-key record holds `a`'s headers and
etag for `k`. -/
def Written (p : Provider) (k : Bytes) (e : Entry) : Prop :=
  e.value = p.joinedFP k ∧ ∃ a data, A a ∧ a.variedKey = k ∧ compress env p.compression a.value = .ok data ∧
    p.fs.lookup e.value = some data ∧
    ∃ r, p.recordOf a.baseKey = some r ∧ V.variant r k = some (a.variedHeaders, a.etag)

/-- Every entry is a mapping record that never expires and that the updater accepts, or was
registered by a call of `A`. -/
def Coherent (p : Provider) : Prop :=
  ∀ k e, p.index.lookup k = some e → (∃ b, k = mappingKey b ∧ e.ttl ≤ 0 ∧ V.valid e.value) ∨ p.Written V A k e

/-- The steps `serial_coherent` covers: no raw `Set`, `SetMultiLevel` only for calls of `A`,
and no `Delete` or `DeleteMany` that removes a mapping record. -/
def Allowed (s : Provider) : Op → Provider → Prop
  | .set _ _ _, _ => False
  | .setMultiLevel a, _ => A a
  | .delete _, t | .deleteMany _, t =>
    ∀ b, (s.index.lookup (mappingKey b)).isSome → (t.index.lookup (mappingKey b)).isSome
  | _, _ => True

variable {V A} {s : Provider}

theorem Written.key_eq (hp : PathsDistinct A s.path) {k x : Bytes} {e e' : Entry}
    (hk : s.Written V A k e) (hx : s.Written V A x e') (hv : e'.value = e.value) : x = k := by
  obtain ⟨hke, a, -, ha, rfl, -⟩ := hk
  obtain ⟨hxe, a', -, ha', rfl, -⟩ := hx
  exact hp a' a ha' ha (hxe.symm.trans (hv.trans hke))

theorem Coherent.record (hc : s.Coherent V A) (hkeys : KeysPlain A) {b : Bytes} {e : Entry}
    (he : s.index.lookup (mappingKey b) = some e) : e.ttl ≤ 0 ∧ V.valid e.value := by
  rcases hc _ e he with ⟨b', hb, ht, hv⟩ | ⟨-, a, -, ha, hk, -⟩
  · exact ⟨ht, hv⟩
  · exact absurd hk (hkeys a b ha)

theorem Coherent.apply_removes (hc : s.Coherent V A) (hp : PathsDistinct A s.path)
    {r : Index × List Event} (hr : s.index.Removes r)
    (hrec : ∀ b, (s.index.lookup (mappingKey b)).isSome → (r.1.lookup (mappingKey b)).isSome) :
    (s.apply r).Coherent V A := by
  obtain ⟨hsub, hev⟩ := hr
  have hrecOf : ∀ b x, s.recordOf b = some x → (s.apply r).recordOf b = some x := by
    intro b x hb
    obtain ⟨e, he, rfl⟩ := Option.map_eq_some'.mp hb
    obtain ⟨e', he'⟩ := Option.isSome_iff_exists.mp (hrec b (by simp [he]))
    have heq := hsub _ _ he'
    rw [he] at heq
    cases heq
    simp [recordOf, he']
  intro k e hk
  rw [apply_index] at hk
  rcases hc k e (hsub k e hk) with hrecd | hw
  · exact .inl hrecd
  obtain ⟨hpath, a, data, ha, rfl, hcomp, hfs, rb, hrb, hvar⟩ := hw
  refine .inr ⟨by simpa [joinedFP] using hpath, a, data, ha, rfl, by simpa using hcomp, ?_, rb,
    hrecOf _ _ hrb, hvar⟩
  rw [apply, foldl_notify_lookup _ _ _ fun x v hx => ?_]
  · exact hfs
  obtain ⟨e', hx0, rfl, hxn⟩ := hev x v hx
  have hne : x ≠ a.variedKey := fun h => by rw [h, hk] at hxn; cases hxn
  rcases hc x e' hx0 with ⟨b, rfl, -⟩ | hxw
  · have hb := hrec b (by simp [hx0])
    rw [hxn] at hb
    cases hb
  · intro _ hv
    rw [hxw.1, resolve_joinedFP, ← hxw.1] at hv
    exact hne (Written.key_eq hp ⟨hpath, a, data, ha, rfl, hcomp, hfs, rb, hrb, hvar⟩ hxw hv)

theorem Coherent.getIndex (hc : s.Coherent V A) (key : Bytes) : (s.getIndex key).2.Coherent V A := by
  have hval : ∀ x, ((s.getIndex key).2.index.lookup x).map (·.value) = (s.index.lookup x).map (·.value) := by
    simp [Provider.getIndex, Index.lookup_get, Option.map_map, Function.comp_def, apply_ite]
  intro k e hk
  simp only [Provider.getIndex, Index.lookup_get] at hk
  obtain ⟨e0, he0, rfl⟩ := Option.map_eq_some'.mp hk
  have hv : (if k = key ∧ e0.isExpired s.now = false then e0.touch s.now else e0).value = e0.value := by
    simp [apply_ite]
  have ht : (if k = key ∧ e0.isExpired s.now = false then e0.touch s.now else e0).ttl = e0.ttl := by
    simp [apply_ite]
  rcases hc k e0 he0 with ⟨b, hb, httl, hvalid⟩ | ⟨hpath, a, data, ha, hk', hcomp, hfs, rb, hrb, hvar⟩
  · exact .inl ⟨b, hb, ht ▸ httl, hv ▸ hvalid⟩
  · exact .inr ⟨hv.trans hpath, a, data, ha, hk', hcomp, by rw [hv]; exact hfs, rb, (hval _).trans hrb, hvar⟩

theorem coherent_reset (s : Provider) : s.reset.Coherent V A := by
  intro k e hk
  simp [reset, Index.deleteAll] at hk

theorem mappingKey_inj {b b' : Bytes} (h : mappingKey b = mappingKey b') : b = b' :=
  List.append_cancel_left h

/-! ### Without a capacity, a set evicts nothing -/

theorem setIndex_lookup_ne_of_unbounded {p : Provider} (hcap : p.capacity = 0) {key x v : Bytes}
    {ttl : Int} (h : x ≠ key) : (p.setIndex key v ttl).index.lookup x = p.index.lookup x := by
  simp only [setIndex, apply_index]
  exact Index.lookup_set_ne_of_room h (.inr (.inl hcap))

theorem setIndex_fs_of_unbounded {p : Provider} (hcap : p.capacity = 0) {key v : Bytes} {ttl : Int}
    (path : Bytes) : (p.setIndex key v ttl).fs.lookup path = p.fs.lookup path := by
  rw [setIndex, apply, foldl_notify_lookup]
  intro x v hx _
  exact absurd hcap (Index.eviction_mem_set hx).2.1

theorem register_lookup_ne_of_unbounded (hcap : s.capacity = 0) {key data x : Bytes} {d : Int}
    (h : x ≠ key) : (s.register key data d).index.lookup x = s.index.lookup x := by
  have hcap' : ({ s with fs := s.fs.writeFile (s.joinedFP key) data } : Provider).capacity = 0 := hcap
  exact setIndex_lookup_ne_of_unbounded hcap' h

theorem register_fs_of_unbounded (hcap : s.capacity = 0) {key data : Bytes} {d : Int} (path : Bytes) :
    (s.register key data d).fs.lookup path = (s.fs.writeFile (s.joinedFP key) data).lookup path := by
  have hcap' : ({ s with fs := s.fs.writeFile (s.joinedFP key) data } : Provider).capacity = 0 := hcap
  exact setIndex_fs_of_unbounded hcap' path

theorem recover_of_unbounded {fuel : Nat} {q : Provider} {size : Int} (hdir : s.directorySize = -1)
    (h : s.recoverEnoughSpaceIfNeeded fuel size = some q) : q = s := by
  cases fuel with
  | zero => simp [recoverEnoughSpaceIfNeeded] at h
  | succ n =>
    simp [recoverEnoughSpaceIfNeeded, overBudget, hdir] at h
    exact h.symm

theorem Coherent.register_merge (hc : s.Coherent V A) (hcap : s.capacity = 0)
    (hp : PathsDistinct A s.path) (hkeys : KeysPlain A) {a : Variant} (ha : A a) {data : Bytes}
    (hdata : compress env s.compression a.value = .ok data) {o : Outcome} {q : Provider}
    (hq : updateMapping env (s.register a.variedKey data a.duration) a s.now = (o, q)) :
    q.Coherent V A := by
  set R := s.register a.variedKey data a.duration with hR
  have hkm : a.variedKey ≠ mappingKey a.baseKey := hkeys a a.baseKey ha
  -- The registration: `a`'s path under its key, its file written, nothing else changed.
  have hRne : ∀ x, x ≠ a.variedKey → R.index.lookup x = s.index.lookup x :=
    fun _ hx => register_lookup_ne_of_unbounded hcap hx
  have hRk : (R.index.lookup a.variedKey).map (·.value) = some (s.joinedFP a.variedKey) := by
    simp only [hR, register, setIndex, apply_index, Index.lookup_set_self]
  have hRfs : ∀ P, R.fs.lookup P = (s.fs.writeFile (s.joinedFP a.variedKey) data).lookup P :=
    fun P => register_fs_of_unbounded hcap P
  -- The mapping read: the record never expires, and the updater accepts it.
  have hrecR : R.index.lookup (mappingKey a.baseKey) = s.index.lookup (mappingKey a.baseKey) := hRne _ hkm.symm
  have hitem : ((R.getIndex (mappingKey a.baseKey)).1.map (·.value)).getD [] = (s.recordOf a.baseKey).getD [] := by
    rw [getIndex_value_of_nonpos fun e he => (hc.record hkeys (hrecR ▸ he)).1, hrecR]
    rfl
  have hvalid : V.valid ((s.recordOf a.baseKey).getD []) := by
    cases hr : s.index.lookup (mappingKey a.baseKey) with
    | none => simpa [recordOf, hr] using V.valid_empty
    | some e => simpa [recordOf, hr] using (hc.record hkeys hr).2
  obtain ⟨val, hval, hvv⟩ := V.merge_ok ⟨a.variedKey, ((R.getIndex (mappingKey a.baseKey)).1.map (·.value)).getD [],
    s.now, s.now + a.duration, s.now + a.duration + R.stale, a.variedHeaders, a.etag, a.realKey⟩ (hitem ▸ hvalid)
  -- The mapping write: the merged record, and nothing else changed.
  simp only [updateMapping, hval, Prod.mk.injEq] at hq
  obtain ⟨-, rfl⟩ := hq
  set Q := (R.getIndex (mappingKey a.baseKey)).2.setIndex (mappingKey a.baseKey) val
    (negativeNow (R.getIndex (mappingKey a.baseKey)).2.now)
  have hfix : Fixed s Q :=
    (register_fixed s _ data a.duration).trans ((getIndex_fixed R _).trans (fixed_apply _ _))
  have hQcap : (R.getIndex (mappingKey a.baseKey)).2.capacity = 0 := by
    rw [capacity, (getIndex_fixed R _).size, (register_fixed s _ data a.duration).size]; exact hcap
  have hQm : Q.index.lookup (mappingKey a.baseKey) = some ⟨val, negativeNow R.now, 0⟩ :=
    lookup_setIndex_negativeNow _ _ _ _
  have hQne : ∀ x, x ≠ mappingKey a.baseKey → Q.index.lookup x = R.index.lookup x := fun x hx => by
    rw [setIndex_lookup_ne_of_unbounded hQcap hx]
    simp [Provider.getIndex, hx]
  have hQfs : ∀ P, Q.fs.lookup P = R.fs.lookup P := fun P => setIndex_fs_of_unbounded hQcap P
  have hQrec : ∀ b, b ≠ a.baseKey → Q.recordOf b = s.recordOf b := fun b hb => by
    simp only [recordOf]
    rw [hQne _ (fun h => hb (mappingKey_inj h)), hRne _ (fun h => hkeys a b ha h.symm)]
  intro x e hx
  by_cases hxm : x = mappingKey a.baseKey
  · subst hxm
    rw [hQm] at hx
    cases hx
    exact .inl ⟨a.baseKey, rfl, (negativeNow_nonpos _).1, hvv⟩
  rw [hQne x hxm] at hx
  by_cases hxk : x = a.variedKey
  · -- The call's own entry.
    subst hxk
    have he : e.value = s.joinedFP a.variedKey := by simpa [hx] using hRk
    refine .inr ⟨by rw [he, joinedFP, joinedFP, hfix.path], a, data, ha, rfl, hfix.compression ▸ hdata,
      by rw [hQfs, hRfs, he]; simp [Fs.writeFile], val, by simp [recordOf, hQm], ?_⟩
    rw [V.merge _ _ hval, if_pos rfl]
  · -- Another variant: its file and its record entry are kept.
    rw [hRne x hxk] at hx
    rcases hc x e hx with hrecd | ⟨hpath, a', data', ha', rfl, hcomp, hfs, rb, hrb, hvar⟩
    · exact .inl hrecd
    have hne : e.value ≠ s.joinedFP a.variedKey := fun h => hxk (hp a' a ha' ha (hpath.symm.trans h))
    refine .inr ⟨by rw [hpath, joinedFP, joinedFP, hfix.path], a', data', ha', rfl, hfix.compression ▸ hcomp,
      by simp [hQfs, hRfs, Fs.writeFile, AList.lookup_insert_ne hne, hfs], ?_⟩
    by_cases hb : a'.baseKey = a.baseKey
    · refine ⟨val, by rw [recordOf, hb, hQm]; rfl, ?_⟩
      rw [V.merge _ _ hval, if_neg hxk, hitem, ← hb, hrb]
      exact hvar
    · exact ⟨rb, (hQrec _ hb).trans hrb, hvar⟩

theorem Coherent.of_setMultiLevel (hc : s.Coherent V A) (hcap : s.capacity = 0)
    (hdir : s.directorySize = -1) (hp : PathsDistinct A s.path) (hkeys : KeysPlain A) {a : Variant}
    (ha : A a) {fuel : Nat} {o : Outcome} {q : Provider} (h : s.setMultiLevel env fuel a = some (o, q)) :
    q.Coherent V A := by
  rcases setMultiLevel_cases h with ⟨-, -, -, rfl⟩ | ⟨data, r, hdata, hr, ⟨-, -, rfl⟩ | ⟨-, hq⟩⟩
  · exact hc
  · rwa [recover_of_unbounded hdir hr]
  · obtain rfl := recover_of_unbounded hdir hr
    exact hc.register_merge hcap hp hkeys ha hdata hq

theorem exec_settings {fuel : Nat} {op : Op} {t : Provider} (h : s.exec env fuel op = some t) :
    t.size = s.size ∧ t.directorySize = s.directorySize ∧ t.path = s.path := by
  have hfix : Fixed s t → t.size = s.size ∧ t.directorySize = s.directorySize ∧ t.path = s.path :=
    fun hf => ⟨hf.size, hf.directorySize, hf.path⟩
  cases op with
  | get key => cases h; exact hfix (by rw [get_snd]; exact getIndex_fixed _ _)
  | getMultiLevel key => cases h; exact hfix (getIndex_fixed _ _)
  | setMultiLevel a =>
    obtain ⟨⟨o, q⟩, hq, rfl⟩ := Option.map_eq_some'.mp h
    exact hfix (setMultiLevel_fixed hq)
  | deleteMany pattern =>
    rcases deleteMany_spec h with rfl | ⟨_, _, -, -, rfl⟩
    · exact ⟨rfl, rfl, rfl⟩
    · exact hfix (fixed_apply _ _)
  | tick dt => cases h; exact ⟨rfl, rfl, rfl⟩
  | set | delete | reset | sweep => cases h; exact hfix (fixed_apply _ _)

theorem coherent_step (hc : s.Coherent V A) (hcap : s.capacity = 0) (hdir : s.directorySize = -1)
    (hp : PathsDistinct A s.path) (hkeys : KeysPlain A) {op : Op} {t : Provider}
    (hstep : Step env s op t) (hal : Allowed A s op t) : t.Coherent V A := by
  obtain ⟨fuel, h⟩ := hstep
  cases op with
  | get key => cases h; rw [get_snd]; exact hc.getIndex key
  | getMultiLevel key => cases h; exact hc.getIndex _
  | set => exact hal.elim
  | setMultiLevel a =>
    obtain ⟨⟨o, q⟩, hq, rfl⟩ := Option.map_eq_some'.mp h
    exact hc.of_setMultiLevel hcap hdir hp hkeys hal hq
  | delete key =>
    cases h
    exact hc.apply_removes hp (Index.removes_delete _ _) fun b hb => by simpa [delete] using hal b hb
  | deleteMany pattern =>
    rcases deleteMany_spec h with rfl | ⟨_, _, -, -, rfl⟩
    · exact hc
    · exact hc.apply_removes hp (Index.removes_delete _ _) fun b hb => by simpa [delete] using hal b hb
  | reset => cases h; exact coherent_reset s
  | sweep =>
    cases h
    refine hc.apply_removes hp (Index.removes_deleteExpired _) fun b hb => ?_
    obtain ⟨e, he⟩ := Option.isSome_iff_exists.mp hb
    have ht := (hc.record hkeys he).1
    simp [Index.lookup_deleteExpired, he, Entry.isExpired, Option.filter, not_lt.mpr ht]
  | tick dt => cases h; exact hc

/-- In a serial run from an empty index under `Factory`'s default capacity (none) and
directory budget (none), with no raw `Set`, `SetMultiLevel` calls of `A` only, and no
`Delete` or `DeleteMany` removing a mapping record, where the varied keys of `A` are not
mapping keys and have distinct paths: the entry of any varied key of `A` holds its path,
the file there holds the bytes a call of `A` on the key wrote, and that call's base-key
record holds its headers and etag for the key. -/
theorem serial_coherent {p q : Provider} {ops : List Op} (hcap : p.capacity = 0)
    (hdir : p.directorySize = -1) (hempty : p.index = ∅) (hp : PathsDistinct A p.path)
    (hkeys : KeysPlain A) (hrun : Run (fun s op t => Step env s op t ∧ Allowed A s op t) p ops q)
    {k : Bytes} {e : Entry} (hk : q.index.lookup k = some e) (hA : ∃ a, A a ∧ a.variedKey = k) :
    q.Written V A k e := by
  have hinv : q.Coherent V A ∧ q.size = p.size ∧ q.directorySize = p.directorySize ∧ q.path = p.path :=
    hrun.inv (fun s => s.Coherent V A ∧ s.size = p.size ∧ s.directorySize = p.directorySize ∧ s.path = p.path)
      (fun s _ t ⟨hc, hs, hd, hpa⟩ ⟨hstep, hal⟩ => by
        obtain ⟨hs', hd', hpa'⟩ := exec_settings hstep.choose_spec
        have hcap' : s.capacity = 0 := by rw [capacity, hs]; exact hcap
        exact ⟨coherent_step hc hcap' (hd.trans hdir) (by rw [hpa]; exact hp) hkeys hstep hal,
          hs'.trans hs, hd'.trans hd, hpa'.trans hpa⟩)
      ⟨fun k e hk => by simp [hempty] at hk, rfl, rfl, rfl⟩
  obtain ⟨a, ha, rfl⟩ := hA
  rcases hinv.1 _ e hk with ⟨b, hb, -⟩ | hw
  · exact absurd hb (hkeys a b ha)
  · exact hw

end Coherence

def rewriteCalls (a : Variant) : Prop := a = plainVariant ∨ a = rewriteVariant

def serialRewrite : List Op := [.setMultiLevel plainVariant, .get (utf8 "k"), .setMultiLevel rewriteVariant]

def rewriteFirst : Provider := ((raceStart.setMultiLevel Env.reference 1 plainVariant).map (·.2)).getD raceStart

def rewriteRead : Provider := (rewriteFirst.get Env.reference (utf8 "k")).2

def rewriteEnd : Provider := ((rewriteRead.setMultiLevel Env.reference 1 rewriteVariant).map (·.2)).getD rewriteRead

/-- `serial_coherent` after `serialRewrite`: `k`'s entry, file and record entry are the second
write's. -/
theorem serial_rewrite_coherent :
    raceStart.capacity = 0 ∧ raceStart.directorySize = -1 ∧ raceStart.index = ∅ ∧
      Run (fun s op t => Step Env.reference s op t ∧ Allowed rewriteCalls s op t) raceStart serialRewrite
        rewriteEnd ∧
      rewriteEnd.index.lookup (utf8 "k") = some ⟨utf8 "/c/k", 10000000000, 10000000000⟩ ∧
      rewriteEnd.Written referenceView rewriteCalls (utf8 "k") ⟨utf8 "/c/k", 10000000000, 10000000000⟩ := by
  have hcap : raceStart.capacity = 0 := rfl
  have hdir : raceStart.directorySize = -1 := rfl
  have hempty : raceStart.index = ∅ := rfl
  have h₁ : Step Env.reference raceStart (.setMultiLevel plainVariant) rewriteFirst := ⟨1, rfl⟩
  have h₂ : Step Env.reference rewriteFirst (.get (utf8 "k")) rewriteRead := ⟨0, rfl⟩
  have h₃ : Step Env.reference rewriteRead (.setMultiLevel rewriteVariant) rewriteEnd := ⟨1, rfl⟩
  have hrun : Run (fun s op t => Step Env.reference s op t ∧ Allowed rewriteCalls s op t) raceStart
      serialRewrite rewriteEnd :=
    .cons ⟨h₁, .inl rfl⟩ (.cons ⟨h₂, trivial⟩ (.cons ⟨h₃, .inr rfl⟩ (.nil _)))
  have hp : PathsDistinct rewriteCalls raceStart.path := by
    rintro a a' (rfl | rfl) (rfl | rfl) - <;> rfl
  have hkeys : KeysPlain rewriteCalls := by
    have hk : (utf8 "k").length = 1 := by decide
    have hm : mappingKeyPrefix.length = 4 := by decide
    rintro a b (rfl | rfl) h <;>
    · have hl := congrArg List.length h
      simp only [plainVariant, rewriteVariant, mappingKey, List.length_append, hk, hm] at hl
      omega
  have hk : rewriteEnd.index.lookup (utf8 "k") = some ⟨utf8 "/c/k", 10000000000, 10000000000⟩ := by decide
  exact ⟨hcap, hdir, hempty, hrun, hk,
    serial_coherent hcap hdir hempty hp hkeys hrun hk ⟨rewriteVariant, .inr rfl, rfl⟩⟩

end Provider

end Simplefs
