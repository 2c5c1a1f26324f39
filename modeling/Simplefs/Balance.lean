import Simplefs.Coherence
import Simplefs.Layout
import Simplefs.Eviction

/-! # When actualSize is exact

Along serial runs from `Init` with plain keys, no raw `Set`, no rewrite of a held key and
records that name no file, `actualSize` stays exact (`actualSize_exact`) and the files are the
data entries' paths (`files_match_entries`), for schedules that let every hook finish before
the next operation; a rewrite makes the count drift (`rewrite_counter_drifts`).
-/
namespace Simplefs

theorem foldr_add_init (l : List Int) (n : Int) : l.foldr (· + ·) n = l.foldr (· + ·) 0 + n := by
  induction l with
  | nil => simp
  | cons x l ih => simp only [List.foldr_cons, ih]; omega

namespace Fs

/-- The size of the file at `f`, `0` when there is none. -/
def sizeAt (fs : Fs) (f : Bytes) : Int := ((fs.lookup f).map fun b => (b.length : Int)).getD 0

/-- The bytes of the files of `l` directly inside `root`. -/
def sizesIn (root : Bytes) (l : List (Σ _ : Bytes, Bytes)) : Int :=
  ((l.filter fun f => inDir root f.1).map fun f => (f.2.length : Int)).foldr (· + ·) 0

theorem sizesIn_append (root : Bytes) (l₁ l₂ : List (Σ _ : Bytes, Bytes)) :
    sizesIn root (l₁ ++ l₂) = sizesIn root l₁ + sizesIn root l₂ := by
  simp only [sizesIn, List.filter_append, List.map_append, List.foldr_append]
  exact foldr_add_init _ _

theorem sizesIn_cons (root : Bytes) (f : Σ _ : Bytes, Bytes) (l : List (Σ _ : Bytes, Bytes)) :
    sizesIn root (f :: l) = (if inDir root f.1 then (f.2.length : Int) else 0) + sizesIn root l := by
  simp only [sizesIn, List.filter_cons]
  split <;> simp

theorem dirSize_eq (fs : Fs) (root : Bytes) : fs.dirSize root = sizesIn root fs.entries := rfl

theorem dirSize_remove (fs : Fs) (root f : Bytes) :
    (fs.remove f).dirSize root = fs.dirSize root - if inDir root (resolve f) then fs.sizeAt (resolve f) else 0 := by
  show sizesIn root (fs.entries.kerase (resolve f)) = sizesIn root fs.entries - _
  generalize resolve f = g
  by_cases hf : g ∈ fs
  · obtain ⟨b, l₁, l₂, -, he, hk⟩ := List.exists_of_kerase hf
    have hl : fs.lookup g = some b := AList.mem_lookup_iff.mpr (by rw [he]; simp)
    rw [hk, he, sizesIn_append, sizesIn_append, sizesIn_cons, sizeAt, hl]
    split
    · simp only [Option.map_some', Option.getD_some]; omega
    · simp
  · rw [List.kerase_of_not_mem_keys hf, sizeAt, AList.lookup_eq_none.mpr hf]
    split <;> simp

theorem dirSize_writeFile (fs : Fs) (root f data : Bytes) :
    (fs.writeFile f data).dirSize root = fs.dirSize root - (if inDir root (resolve f) then fs.sizeAt (resolve f) else 0) +
      if inDir root (resolve f) then (data.length : Int) else 0 := by
  have hr : sizesIn root (fs.entries.kerase (resolve f)) = (fs.remove f).dirSize root := rfl
  show sizesIn root (⟨resolve f, data⟩ :: fs.entries.kerase (resolve f)) = _
  rw [sizesIn_cons, hr, dirSize_remove]
  dsimp only
  split <;> omega

theorem sizeAt_of_lookup {fs : Fs} {f b : Bytes} (h : fs.lookup f = some b) : fs.sizeAt f = b.length := by
  simp [sizeAt, h]

end Fs

namespace Index

variable {now : Int} {c : Index} {key v : Bytes} {ttl : Int} {cap : Nat}

theorem set_snd_of_not_mem (h : key ∉ c) :
    ∃ evs, (c.set now cap key v ttl).2 = evs ++ [.insertion key v] ∧
      ∀ ev ∈ evs, ∃ x e, ev = .eviction x e.value ∧ c.lookup x = some e ∧ x ≠ key := by
  have hk : c.lookup key = none := AList.lookup_eq_none.mpr h
  unfold Index.set
  simp only [hk]
  split_ifs
  · unfold evictBack
    cases hb : c.back with
    | none => exact ⟨[], rfl, by simp⟩
    | some i =>
      have hl := lookup_of_back hb
      refine ⟨[.eviction i.1 i.2.value], rfl, ?_⟩
      rintro ev hev
      rw [List.mem_singleton] at hev
      subst hev
      exact ⟨i.1, i.2, rfl, hl, fun he => h (he ▸ AList.lookup_isSome.mp (by simp [hl]))⟩
  · exact ⟨[], rfl, by simp⟩

end Index

namespace Provider

/-- The bytes `actualSize` counts beyond those of the files directly inside `root`. -/
def gap (root : Bytes) (p : Provider) : Int := p.actualSize - p.fs.dirSize root

/-- An eviction of `v` keeps the count: `v` contains `IDX_` (the hook skips it), names a file
inside `root` (its size leaves both), or names no file. -/
def Harmless (root : Bytes) (p : Provider) (v : Bytes) : Prop :=
  isMapping v = true ∨ Fs.inDir root (Fs.resolve v) = true ∨ p.fs.readFile v = none

theorem gap_notify_eviction {root k v : Bytes} {p : Provider} (h : Harmless root p v) :
    gap root (p.notify (.eviction k v)) = gap root p := by
  simp only [gap, notify, onEviction]
  split
  · rfl
  · rename_i hm
    rcases h with h | h | h
    · exact absurd h hm
    · cases hs : p.fs.stat v with
      | none => rfl
      | some n =>
        obtain ⟨b, hb, rfl⟩ := Option.map_eq_some'.mp hs
        simp only [Fs.dirSize_remove, h, if_true, Fs.sizeAt_of_lookup hb]
        omega
    · simp [Fs.stat, h]

theorem gap_notify_insertion (root k v : Bytes) (p : Provider) :
    gap root (p.notify (.insertion k v)) = gap root p + if isMapping k then 0 else p.fs.sizeAt (Fs.resolve v) := by
  simp only [gap, notify, onInsertion]
  split
  · simp
  · cases hs : p.fs.stat v with
    | none =>
      have hl : p.fs.lookup (Fs.resolve v) = none := by simpa [Fs.stat, Fs.readFile] using hs
      simp [Fs.sizeAt, hl]
    | some n =>
      obtain ⟨b, hb, rfl⟩ := Option.map_eq_some'.mp hs
      simp only [Fs.sizeAt_of_lookup hb]
      omega

theorem Harmless.notify {root v : Bytes} {p : Provider} (h : Harmless root p v) (ev : Event) :
    Harmless root (p.notify ev) v := by
  rcases h with h | h | h
  · exact .inl h
  · exact .inr (.inl h)
  · exact .inr (.inr (by rw [Fs.readFile, notify_fs_lookup, ← Fs.readFile, h]; split <;> rfl))

theorem gap_foldl_evictions {root : Bytes} :
    ∀ {evs : List Event} {p : Provider}, (∀ ev ∈ evs, ∃ k v, ev = .eviction k v ∧ Harmless root p v) →
      gap root (evs.foldl notify p) = gap root p
  | [], _, _ => rfl
  | ev :: evs, p, h => by
    obtain ⟨k, v, rfl, hv⟩ := h ev (List.mem_cons_self _ _)
    rw [List.foldl_cons, gap_foldl_evictions, gap_notify_eviction hv]
    intro ev' hev'
    obtain ⟨k', v', rfl, hv'⟩ := h ev' (List.mem_cons_of_mem _ hev')
    exact ⟨k', v', rfl, hv'.notify _⟩

theorem gap_setIndex {root : Bytes} {s : Provider} {key v : Bytes} {ttl : Int}
    (hharm : ∀ x e, s.index.lookup x = some e → Harmless root s e.value)
    (hkeep : key ∉ s.index → isMapping key = false →
      ∀ x e, s.index.lookup x = some e → x ≠ key → Event.removes (.eviction x e.value) (Fs.resolve v) = false) :
    gap root (s.setIndex key v ttl) =
      gap root s + if key ∈ s.index ∨ isMapping key = true then 0 else s.fs.sizeAt (Fs.resolve v) := by
  by_cases hk : key ∈ s.index
  · rw [if_pos (.inl hk), Int.add_zero, setIndex, apply, Index.set_snd_of_mem hk]
    rfl
  · have hevs : ∃ evs, (s.index.set s.now s.capacity key v ttl).2 = evs ++ [.insertion key v] ∧
        ∀ ev ∈ evs, ∃ x e, ev = .eviction x e.value ∧ s.index.lookup x = some e ∧ x ≠ key :=
      Index.set_snd_of_not_mem hk
    obtain ⟨evs, hevs, hall⟩ := hevs
    have hg : gap root (evs.foldl notify { s with index := (s.index.set s.now s.capacity key v ttl).1 }) =
        gap root s := by
      refine gap_foldl_evictions fun ev hev => ?_
      obtain ⟨x, e, rfl, hx, -⟩ := hall ev hev
      exact ⟨x, e.value, rfl, hharm x e hx⟩
    rw [setIndex, apply, hevs, List.foldl_append, List.foldl_cons, List.foldl_nil, gap_notify_insertion, hg]
    cases hm : isMapping key
    · have hsz : (evs.foldl notify { s with index := (s.index.set s.now s.capacity key v ttl).1 }).fs.sizeAt (Fs.resolve v) =
          s.fs.sizeAt (Fs.resolve v) := by
        unfold Fs.sizeAt
        rw [foldl_notify_fs, if_neg]
        simp only [List.any_eq_true, not_exists, not_and, Bool.not_eq_true]
        intro ev hev
        obtain ⟨x, e, rfl, hx, hne⟩ := hall ev hev
        exact hkeep hk hm x e hx hne
      simp [hk, hsz]
    · simp [hk]

/-! ## The invariant -/

section Balance

variable (A : Variant → Prop) (p₀ : Provider)

/-- A path a file can be at: one present at the start, or the path of a call of `A`. -/
def Known (f : Bytes) : Prop := p₀.fs.lookup f ≠ none ∨ ∃ a, A a ∧ f = p₀.joinedFP a.variedKey

/-- Bytes of a mapping record the eviction hook cannot act on: they contain `IDX_`, or no
file can be where they resolve. -/
def Inert (v : Bytes) : Prop := isMapping v = true ∨ ¬ Known A p₀ (Fs.resolve v)

/-- A key whose writes the hooks account for: not `""`, `"."` or `".."`, so that its path is a
file directly inside the directory, and with no `IDX_` in it or in its path. -/
def PlainKey (k : Bytes) : Prop :=
  (k ≠ [] ∧ k ≠ utf8 "." ∧ k ≠ utf8 "..") ∧ isMapping k = false ∧ isMapping (p₀.joinedFP k) = false

/-- The steps the result covers: no raw `Set`, and `SetMultiLevel` only for calls of `A`
whose key the index does not hold, live or expired. -/
def Fresh (s : Provider) : Op → Prop
  | .set _ _ _ => False
  | .setMultiLevel a => A a ∧ a.variedKey ∉ s.index
  | _ => True

/-- Data entries hold the path of a call of `A` on their key; mapping records are inert. -/
structure Entries (s : Provider) : Prop where
  data : ∀ x e, s.index.lookup x = some e → isMapping x = false →
    e.value = p₀.joinedFP x ∧ ∃ a, A a ∧ a.variedKey = x
  record : ∀ x e, s.index.lookup x = some e → isMapping x = true → Inert A p₀ e.value

/-- What keeps `actualSize` exact along a run from `p₀`: the path is `p₀`'s, the count
is exact, the entries are as above, a key of `A` that the index does not hold has no file,
and every file is at a known path. -/
structure Balanced (s : Provider) : Prop where
  path : s.path = p₀.path
  exact : gap p₀.path s = 0
  entries : Entries A p₀ s
  stray : ∀ a, A a → a.variedKey ∉ s.index → s.fs.lookup (p₀.joinedFP a.variedKey) = none
  files : ∀ f, s.fs.lookup f ≠ none → Known A p₀ f

variable {A p₀}

theorem joinedFP_of_path {s : Provider} (h : s.path = p₀.path) (k : Bytes) : s.joinedFP k = p₀.joinedFP k := by
  simp [joinedFP, h]

theorem inDir_joinedFP {k : Bytes} (hk : PlainKey p₀ k) : Fs.inDir p₀.path (p₀.joinedFP k) = true := by
  simpa [Fs.inDir] using (dir_joinedFP p₀ hk.1).1

theorem Entries.harmless {s : Provider} (he : Entries A p₀ s) (hA : ∀ a, A a → PlainKey p₀ a.variedKey)
    (hfiles : ∀ f, s.fs.lookup f ≠ none → Known A p₀ f) {x : Bytes} {e : Entry}
    (hx : s.index.lookup x = some e) : Harmless p₀.path s e.value := by
  cases hm : isMapping x
  · obtain ⟨hv, a, ha, rfl⟩ := he.data x e hx hm
    exact .inr (.inl (by rw [hv, resolve_joinedFP]; exact inDir_joinedFP (hA a ha)))
  · rcases he.record x e hx hm with h | h
    · exact .inl h
    · exact .inr (.inr (by by_contra hn; exact h (hfiles _ hn)))

theorem stray_apply {s : Provider} {r : Index × List Event} (he : Entries A p₀ s)
    (hA : ∀ a, A a → PlainKey p₀ a.variedKey) (hann : s.index.Announces r) {a : Variant} (ha : A a)
    (hgone : a.variedKey ∉ r.1) (hbefore : a.variedKey ∉ s.index → s.fs.lookup (p₀.joinedFP a.variedKey) = none) :
    (s.apply r).fs.lookup (p₀.joinedFP a.variedKey) = none := by
  by_cases hmem : a.variedKey ∈ s.index
  · obtain ⟨e, hl⟩ := Option.isSome_iff_exists.mp (AList.lookup_isSome.mpr hmem)
    obtain ⟨hv, -⟩ := he.data _ e hl (hA a ha).2.1
    have h := takesFiles_apply hann _ e hl (by simpa using AList.lookup_eq_none.mpr hgone) (hv ▸ (hA a ha).2.2)
    rwa [Fs.readFile, hv, resolve_joinedFP] at h
  · rw [apply_fs_lookup, hbefore hmem]
    split <;> rfl

theorem Entries.apply_removes {s : Provider} {r : Index × List Event} (he : Entries A p₀ s) (hr : s.index.Removes r) :
    Entries A p₀ (s.apply r) :=
  ⟨fun x e hx => he.data x e (hr.1 x e (by simpa using hx)), fun x e hx => he.record x e (hr.1 x e (by simpa using hx))⟩

theorem gap_apply_removes {s : Provider} {r : Index × List Event} (he : Entries A p₀ s)
    (hA : ∀ a, A a → PlainKey p₀ a.variedKey) (hfiles : ∀ f, s.fs.lookup f ≠ none → Known A p₀ f)
    (hr : s.index.Removes r) (hev : ∀ ev ∈ r.2, ∃ k v, ev = .eviction k v) : gap p₀.path (s.apply r) = gap p₀.path s :=
  gap_foldl_evictions fun ev hev' => by
    obtain ⟨k, v, rfl⟩ := hev ev hev'
    obtain ⟨e, he', rfl, -⟩ := hr.2 k v hev'
    exact ⟨k, e.value, rfl, he.harmless hA hfiles he'⟩

theorem Balanced.apply_removes {s : Provider} {r : Index × List Event} (hb : Balanced A p₀ s)
    (hA : ∀ a, A a → PlainKey p₀ a.variedKey) (hr : s.index.Removes r) (hann : s.index.Announces r)
    (hev : ∀ ev ∈ r.2, ∃ k v, ev = .eviction k v) : Balanced A p₀ (s.apply r) where
  path := (apply_path s r).trans hb.path
  exact := by rw [gap_apply_removes hb.entries hA hb.files hr hev, hb.exact]
  entries := hb.entries.apply_removes hr
  stray a ha hk := stray_apply hb.entries hA hann ha (by simpa using hk) (hb.stray a ha)
  files f hf := hb.files f (lookup_apply_ne_none hf)

theorem Balanced.delete {s : Provider} (hb : Balanced A p₀ s) (hA : ∀ a, A a → PlainKey p₀ a.variedKey)
    (key : Bytes) : Balanced A p₀ (s.delete key) :=
  hb.apply_removes hA (Index.removes_delete _ _) (Index.announces_delete _ _) (Index.delete_evictions _ _)

theorem Balanced.reset {s : Provider} (hb : Balanced A p₀ s) (hA : ∀ a, A a → PlainKey p₀ a.variedKey) :
    Balanced A p₀ s.reset :=
  hb.apply_removes hA (Index.removes_deleteAll _) (Index.announces_deleteAll _) (Index.deleteAll_evictions _)

theorem Balanced.sweep {s : Provider} (hb : Balanced A p₀ s) (hA : ∀ a, A a → PlainKey p₀ a.variedKey) :
    Balanced A p₀ s.sweep :=
  hb.apply_removes hA (Index.removes_deleteExpired _) (Index.announces_deleteExpired _)
    (Index.deleteExpired_evictions _)

theorem Entries.getIndex {s : Provider} (he : Entries A p₀ s) (key : Bytes) : Entries A p₀ (s.getIndex key).2 := by
  have hl : ∀ x e, (s.getIndex key).2.index.lookup x = some e → ∃ e', s.index.lookup x = some e' ∧ e.value = e'.value := by
    intro x e hx
    simp only [Provider.getIndex, Index.lookup_get] at hx
    obtain ⟨e', he', rfl⟩ := Option.map_eq_some'.mp hx
    exact ⟨e', he', by split <;> simp⟩
  constructor
  · intro x e hx hm
    obtain ⟨e', he', hv⟩ := hl x e hx
    rw [hv]; exact he.data x e' he' hm
  · intro x e hx hm
    obtain ⟨e', he', hv⟩ := hl x e hx
    rw [hv]; exact he.record x e' he' hm

theorem Balanced.getIndex {s : Provider} (hb : Balanced A p₀ s) (key : Bytes) :
    Balanced A p₀ (s.getIndex key).2 :=
  ⟨hb.path, hb.exact, hb.entries.getIndex key, fun a ha hk => hb.stray a ha (by simpa [Provider.getIndex] using hk),
    hb.files⟩

theorem Balanced.tick {s : Provider} (hb : Balanced A p₀ s) (dt : Nat) : Balanced A p₀ (s.tick dt) :=
  ⟨hb.path, hb.exact, ⟨hb.entries.data, hb.entries.record⟩, hb.stray, hb.files⟩

theorem Entries.setIndex {s : Provider} (he : Entries A p₀ s) {key v : Bytes} {ttl : Int}
    (hv : isMapping key = false → v = p₀.joinedFP key ∧ ∃ a, A a ∧ a.variedKey = key)
    (hrec : isMapping key = true → Inert A p₀ v) : Entries A p₀ (s.setIndex key v ttl) := by
  have hl : ∀ x e, (s.setIndex key v ttl).index.lookup x = some e →
      (x = key ∧ e.value = v) ∨ s.index.lookup x = some e := fun x e hx =>
    Index.lookup_set_eq_some (by rwa [Provider.setIndex, apply_index] at hx)
  constructor
  · intro x e hx hm
    rcases hl x e hx with ⟨rfl, rfl⟩ | hx
    · exact hv hm
    · exact he.data x e hx hm
  · intro x e hx hm
    rcases hl x e hx with ⟨rfl, rfl⟩ | hx
    · exact hrec hm
    · exact he.record x e hx hm

theorem stray_setIndex {s : Provider} (he : Entries A p₀ s) (hA : ∀ a, A a → PlainKey p₀ a.variedKey)
    {key v : Bytes} {ttl : Int}
    (hstray : ∀ a, A a → a.variedKey ≠ key → a.variedKey ∉ s.index → s.fs.lookup (p₀.joinedFP a.variedKey) = none)
    {a : Variant} (ha : A a) (hk : a.variedKey ∉ (s.setIndex key v ttl).index) :
    (s.setIndex key v ttl).fs.lookup (p₀.joinedFP a.variedKey) = none := by
  have hne : a.variedKey ≠ key := by
    rintro rfl
    exact hk (by simpa [Provider.setIndex] using Index.mem_set_self)
  exact stray_apply he hA (Index.announces_set _ _ _ _ _) ha (by simpa [Provider.setIndex] using hk) (hstray a ha hne)

theorem joinedFP_ne {a a' : Variant} (hA : ∀ a, A a → PlainKey p₀ a.variedKey) (ha : A a) (ha' : A a')
    (hne : a'.variedKey ≠ a.variedKey) : p₀.joinedFP a'.variedKey ≠ p₀.joinedFP a.variedKey :=
  fun h => hne (joinedFP_injective p₀ (hA a' ha').1 (hA a ha).1 h)

theorem Entries.evict_keeps {s : Provider} (he : Entries A p₀ s) (hA : ∀ a, A a → PlainKey p₀ a.variedKey)
    {a : Variant} (ha : A a) {x : Bytes} {e : Entry} (hx : s.index.lookup x = some e) (hne : x ≠ a.variedKey) :
    Event.removes (.eviction x e.value) (p₀.joinedFP a.variedKey) = false := by
  simp only [Event.removes, Bool.and_eq_false_iff, decide_eq_false_iff_not, Bool.not_eq_false']
  cases hm : isMapping x
  · obtain ⟨hv, a', ha', rfl⟩ := he.data x e hx hm
    exact .inr (by rw [hv, resolve_joinedFP]; exact joinedFP_ne hA ha ha' hne)
  · rcases he.record x e hx hm with h | h
    · exact .inl h
    · exact .inr fun hv => h (hv ▸ .inr ⟨a, ha, rfl⟩)

theorem Balanced.setRecord {s : Provider} (hb : Balanced A p₀ s) (hA : ∀ a, A a → PlainKey p₀ a.variedKey)
    {key v : Bytes} (hkey : isMapping key = true) (hv : Inert A p₀ v) (ttl : Int) :
    Balanced A p₀ (s.setIndex key v ttl) := by
  refine ⟨(apply_path _ _).trans hb.path, ?_, hb.entries.setIndex (fun h => by rw [hkey] at h; cases h) fun _ => hv,
    fun a ha hk => stray_setIndex hb.entries hA (fun a' ha' _ => hb.stray a' ha') ha hk,
    fun g hg => hb.files g (lookup_apply_ne_none hg)⟩
  have hmap : isMapping key = false → False := fun hm => by rw [hkey] at hm; cases hm
  rw [gap_setIndex (fun _ _ hx => hb.entries.harmless hA hb.files hx) fun _ hm => (hmap hm).elim,
    if_pos (.inr hkey), Int.add_zero, hb.exact]

theorem Balanced.register {s : Provider} (hb : Balanced A p₀ s) (hA : ∀ a, A a → PlainKey p₀ a.variedKey)
    {a : Variant} (ha : A a) (hk : a.variedKey ∉ s.index) (data : Bytes) (d : Int) :
    Balanced A p₀ (s.register a.variedKey data d) := by
  have hpa := hA a ha
  have hP := joinedFP_of_path hb.path a.variedKey
  let s₁ : Provider := { s with fs := s.fs.writeFile (p₀.joinedFP a.variedKey) data }
  have hreg : s.register a.variedKey data d = s₁.setIndex a.variedKey (p₀.joinedFP a.variedKey) d := by
    simp only [Provider.register, hP]
  rw [hreg]
  have hnofile : s.fs.lookup (p₀.joinedFP a.variedKey) = none := hb.stray a ha hk
  have hfiles₁ : ∀ g, s₁.fs.lookup g ≠ none → Known A p₀ g := by
    intro g hg
    by_cases hgf : g = p₀.joinedFP a.variedKey
    · exact .inr ⟨a, ha, hgf⟩
    · exact hb.files g (by simpa [s₁, Fs.writeFile, AList.lookup_insert_ne hgf] using hg)
  have he₁ : Entries A p₀ s₁ := ⟨hb.entries.data, hb.entries.record⟩
  have hgap₁ : gap p₀.path s₁ = -data.length := by
    have h0 := hb.exact
    rw [gap, Fs.dirSize_writeFile, resolve_joinedFP]
    simp only [gap, inDir_joinedFP hpa, if_true, Fs.sizeAt, hnofile, Option.map_none', Option.getD_none] at h0 ⊢
    omega
  have hdata : isMapping a.variedKey = true → False := fun hm => by rw [hpa.2.1] at hm; cases hm
  refine ⟨(apply_path _ _).trans hb.path, ?_, he₁.setIndex (fun _ => ⟨rfl, a, ha, rfl⟩) fun hm => (hdata hm).elim,
    fun a' ha' hk' => stray_setIndex he₁ hA (fun a'' ha'' hne hnot => ?_) ha' hk',
    fun g hg => hfiles₁ g (lookup_apply_ne_none hg)⟩
  · rw [gap_setIndex (fun _ _ hx => he₁.harmless hA hfiles₁ hx) fun _ _ _ _ hx => by rw [resolve_joinedFP]; exact he₁.evict_keeps hA ha hx,
      if_neg (by simp [hk, hpa.2.1]), hgap₁]
    simp only [s₁, Fs.sizeAt, Fs.lookup_writeFile_self, Option.map_some', Option.getD_some]
    omega
  · rw [Fs.lookup_writeFile_ne _ (by rw [resolve_joinedFP]; exact joinedFP_ne hA ha ha'' hne)]
    exact hb.stray a'' ha'' hnot

theorem Balanced.updateMapping {env : Env} {s : Provider} (hb : Balanced A p₀ s)
    (hA : ∀ a, A a → PlainKey p₀ a.variedKey) (hrec : ∀ u r, env.mappingUpdater u = .ok r → Inert A p₀ r)
    (a : Variant) (now : Int) : Balanced A p₀ (Provider.updateMapping env s a now).2 := by
  unfold Provider.updateMapping; dsimp only; split
  · exact hb.getIndex _
  · rename_i val hval
    exact (hb.getIndex _).setRecord hA ( isMapping_prefix _) (hrec _ _ hval) _

theorem Balanced.recover (hA : ∀ a, A a → PlainKey p₀ a.variedKey) :
    ∀ {fuel : Nat} {s r : Provider} {size : Int}, Balanced A p₀ s →
      s.recoverEnoughSpaceIfNeeded fuel size = some r → Balanced A p₀ r
  | 0, _, _, _, _, h => by simp [recoverEnoughSpaceIfNeeded] at h
  | fuel + 1, s, r, size, hb, h => by
    simp only [recoverEnoughSpaceIfNeeded] at h
    split at h
    · refine Balanced.recover hA ?_ h
      unfold reclaimOne; split
      · exact hb.delete hA _
      · exact hb
    · cases h; exact hb

theorem Balanced.setMultiLevel {env : Env} {s q : Provider} (hb : Balanced A p₀ s)
    (hA : ∀ a, A a → PlainKey p₀ a.variedKey) (hrec : ∀ u r, env.mappingUpdater u = .ok r → Inert A p₀ r)
    {fuel : Nat} {a : Variant} {o : Outcome} (ha : A a) (hk : a.variedKey ∉ s.index)
    (h : s.setMultiLevel env fuel a = some (o, q)) : Balanced A p₀ q := by
  rcases setMultiLevel_cases h with ⟨-, -, -, rfl⟩ | ⟨data, r, -, hr, ⟨-, -, rfl⟩ | ⟨-, hq⟩⟩
  · exact hb
  · exact hb.recover hA hr
  · have hkr : a.variedKey ∉ r.index := fun hm => by
      rcases (recover_spec hr).2.1 a.variedKey with h' | h'
      · exact hk (AList.lookup_isSome.mp (h' ▸ AList.lookup_isSome.mpr hm))
      · exact absurd (AList.lookup_isSome.mpr hm) (by simp [h'])
    have hq' := ((hb.recover hA hr).register hA ha hkr data a.duration).updateMapping hA hrec a s.now
    rwa [hq] at hq'

theorem Balanced.step {env : Env} {s t : Provider} {op : Op} (hb : Balanced A p₀ s)
    (hA : ∀ a, A a → PlainKey p₀ a.variedKey) (hrec : ∀ u r, env.mappingUpdater u = .ok r → Inert A p₀ r)
    (hstep : Step env s op t) (hf : Fresh A s op) : Balanced A p₀ t := by
  obtain ⟨fuel, h⟩ := hstep
  cases op with
  | get key => cases h; rw [get_snd]; exact hb.getIndex key
  | getMultiLevel key => cases h; exact hb.getIndex _
  | set => exact hf.elim
  | setMultiLevel a =>
    obtain ⟨⟨o, q⟩, hq, rfl⟩ := Option.map_eq_some'.mp h
    exact hb.setMultiLevel hA hrec hf.1 hf.2 hq
  | delete key => cases h; exact hb.delete hA key
  | deleteMany pattern =>
    rcases deleteMany_spec h with rfl | ⟨_, _, -, -, rfl⟩
    · exact hb
    · exact hb.delete hA _
  | reset => cases h; exact hb.reset hA
  | sweep => cases h; exact hb.sweep hA
  | tick dt => cases h; exact hb.tick dt

theorem Balanced.start (hempty : p₀.index = ∅) (hexact : p₀.actualSize = p₀.fs.dirSize p₀.path)
    (hfree : ∀ a, A a → p₀.fs.lookup (p₀.joinedFP a.variedKey) = none) : Balanced A p₀ p₀ :=
  ⟨rfl, by simp [gap, hexact], ⟨fun x e hx => by simp [hempty] at hx, fun x e hx => by simp [hempty] at hx⟩,
    fun a ha _ => hfree a ha, fun _ hf => .inl hf⟩

/-! ## Every data entry has its file -/

/-- Every data entry's file is on disk. -/
def Backed (s : Provider) : Prop :=
  ∀ x e, s.index.lookup x = some e → isMapping x = false → s.fs.readFile e.value ≠ none

theorem Backed.apply {s : Provider} {r : Index × List Event} (he : Entries A p₀ s)
    (hA : ∀ a, A a → PlainKey p₀ a.variedKey) (he' : Entries A p₀ (s.apply r))
    (hev : ∀ x v, Event.eviction x v ∈ r.2 → ∃ e, s.index.lookup x = some e ∧ e.value = v ∧ r.1.lookup x = none)
    (hfile : ∀ x e, r.1.lookup x = some e → isMapping x = false → s.fs.readFile e.value ≠ none) :
    Backed (s.apply r) := by
  intro x e hx hm
  have hx' : r.1.lookup x = some e := by simpa using hx
  obtain ⟨hv, a, ha, rfl⟩ := he'.data _ e hx hm
  rw [Fs.readFile, apply_fs_lookup, if_neg]
  · exact hfile _ e hx' hm
  simp only [List.any_eq_true, not_exists, not_and, Bool.not_eq_true]
  intro ev hmem
  cases ev with
  | insertion => rfl
  | eviction y w =>
    obtain ⟨ey, hy, rfl, hgone⟩ := hev y _ hmem
    have hne : y ≠ a.variedKey := fun h => by rw [h, hx'] at hgone; cases hgone
    simp only [Event.removes, Bool.and_eq_false_iff, decide_eq_false_iff_not, Bool.not_eq_false']
    cases hmy : isMapping y
    · obtain ⟨hvy, a', ha', rfl⟩ := he.data y ey hy hmy
      exact .inr (by simpa only [hvy, hv, resolve_joinedFP] using joinedFP_ne hA ha ha' hne)
    · rcases he.record y ey hy hmy with h | h
      · exact .inl h
      · exact .inr fun hvy => h (by rw [hvy, hv, resolve_joinedFP]; exact .inr ⟨a, ha, rfl⟩)

theorem Backed.apply_removes {s : Provider} {r : Index × List Event} (hk : Backed s) (he : Entries A p₀ s)
    (hA : ∀ a, A a → PlainKey p₀ a.variedKey) (hr : s.index.Removes r) (he' : Entries A p₀ (s.apply r)) :
    Backed (s.apply r) :=
  Backed.apply he hA he' hr.2 fun x e hx hm => hk x e (hr.1 x e hx) hm

theorem Backed.setIndex {s : Provider} (hk : Backed s) (he : Entries A p₀ s)
    (hA : ∀ a, A a → PlainKey p₀ a.variedKey) {key v : Bytes} {ttl : Int}
    (he' : Entries A p₀ (s.setIndex key v ttl)) (hv : isMapping key = false → s.fs.readFile v ≠ none) :
    Backed (s.setIndex key v ttl) :=
  Backed.apply he hA he' (fun _ _ h => Index.evicted_set h) fun x e hx hm => by
    rcases Index.lookup_set_eq_some hx with ⟨rfl, rfl⟩ | hx
    · exact hv hm
    · exact hk x e hx hm

theorem Backed.getIndex {s : Provider} (hk : Backed s) (key : Bytes) : Backed (s.getIndex key).2 := by
  intro x e hx hm
  obtain ⟨e', he', hv⟩ : ∃ e', s.index.lookup x = some e' ∧ e.value = e'.value := by
    simp only [Provider.getIndex, Index.lookup_get] at hx
    obtain ⟨e', he', rfl⟩ := Option.map_eq_some'.mp hx
    exact ⟨e', he', by split <;> simp⟩
  rw [hv]
  exact hk x e' he' hm

theorem Backed.register {s : Provider} (hb : Balanced A p₀ s) (hk : Backed s)
    (hA : ∀ a, A a → PlainKey p₀ a.variedKey) {a : Variant} (ha : A a) (hkey : a.variedKey ∉ s.index)
    (data : Bytes) (d : Int) : Backed (s.register a.variedKey data d) := by
  have hP := joinedFP_of_path hb.path a.variedKey
  let s₁ : Provider := { s with fs := s.fs.writeFile (p₀.joinedFP a.variedKey) data }
  have hreg : s.register a.variedKey data d = s₁.setIndex a.variedKey (p₀.joinedFP a.variedKey) d := by
    simp only [Provider.register, hP]
  have he' := (hb.register hA ha hkey data d).entries
  rw [hreg] at he' ⊢
  have hkeep : ∀ f, s.fs.lookup f ≠ none → s₁.fs.lookup f ≠ none := fun f hf => by
    by_cases hfp : f = p₀.joinedFP a.variedKey
    · simp [s₁, Fs.writeFile, hfp]
    · simpa [s₁, Fs.writeFile, AList.lookup_insert_ne hfp] using hf
  exact Backed.setIndex (fun x e hx hm => hkeep _ (hk x e hx hm)) ⟨hb.entries.data, hb.entries.record⟩ hA he'
    fun _ => by simp [s₁, Fs.readFile]

theorem Backed.updateMapping {env : Env} {s : Provider} (hb : Balanced A p₀ s) (hk : Backed s)
    (hA : ∀ a, A a → PlainKey p₀ a.variedKey) (hrec : ∀ u r, env.mappingUpdater u = .ok r → Inert A p₀ r)
    (a : Variant) (now : Int) : Backed (Provider.updateMapping env s a now).2 := by
  unfold Provider.updateMapping; dsimp only; split
  · exact hk.getIndex _
  · rename_i val hval
    have hb' := hb.getIndex (mappingKey a.baseKey)
    have hmk : isMapping (mappingKey a.baseKey) = true := isMapping_prefix _
    exact (hk.getIndex _).setIndex hb'.entries hA (hb'.setRecord hA hmk (hrec _ _ hval) _).entries
      fun hm => by rw [hmk] at hm; cases hm

theorem Backed.recover (hA : ∀ a, A a → PlainKey p₀ a.variedKey) :
    ∀ {fuel : Nat} {s r : Provider} {size : Int}, Balanced A p₀ s → Backed s →
      s.recoverEnoughSpaceIfNeeded fuel size = some r → Backed r
  | 0, _, _, _, _, _, h => by simp [recoverEnoughSpaceIfNeeded] at h
  | fuel + 1, s, r, size, hb, hk, h => by
    simp only [recoverEnoughSpaceIfNeeded] at h
    split at h
    · have hone : Balanced A p₀ s.reclaimOne ∧ Backed s.reclaimOne := by
        unfold reclaimOne; split
        · exact ⟨hb.delete hA _, hk.apply_removes hb.entries hA (Index.removes_delete _ _) (hb.delete hA _).entries⟩
        · exact ⟨hb, hk⟩
      exact Backed.recover hA hone.1 hone.2 h
    · cases h; exact hk

theorem Backed.setMultiLevel {env : Env} {s q : Provider} (hb : Balanced A p₀ s) (hk : Backed s)
    (hA : ∀ a, A a → PlainKey p₀ a.variedKey) (hrec : ∀ u r, env.mappingUpdater u = .ok r → Inert A p₀ r)
    {fuel : Nat} {a : Variant} {o : Outcome} (ha : A a) (hkey : a.variedKey ∉ s.index)
    (h : s.setMultiLevel env fuel a = some (o, q)) : Backed q := by
  rcases setMultiLevel_cases h with ⟨-, -, -, rfl⟩ | ⟨data, r, -, hr, ⟨-, -, rfl⟩ | ⟨-, hq⟩⟩
  · exact hk
  · exact hk.recover hA hb hr
  · have hkr : a.variedKey ∉ r.index := fun hm => by
      rcases (recover_spec hr).2.1 a.variedKey with h' | h'
      · exact hkey (AList.lookup_isSome.mp (h' ▸ AList.lookup_isSome.mpr hm))
      · exact absurd (AList.lookup_isSome.mpr hm) (by simp [h'])
    have hbr := hb.recover hA hr
    have hq' := ((Backed.recover hA hb hk hr).register hbr hA ha hkr data a.duration).updateMapping
      (hbr.register hA ha hkr data a.duration) hA hrec a s.now
    rwa [hq] at hq'

theorem Backed.step {env : Env} {s t : Provider} {op : Op} (hb : Balanced A p₀ s) (hk : Backed s)
    (hA : ∀ a, A a → PlainKey p₀ a.variedKey) (hrec : ∀ u r, env.mappingUpdater u = .ok r → Inert A p₀ r)
    (hstep : Step env s op t) (hf : Fresh A s op) : Backed t := by
  obtain ⟨fuel, h⟩ := hstep
  cases op with
  | get key => cases h; rw [get_snd]; exact hk.getIndex key
  | getMultiLevel key => cases h; exact hk.getIndex _
  | set => exact hf.elim
  | setMultiLevel a =>
    obtain ⟨⟨o, q⟩, hq, rfl⟩ := Option.map_eq_some'.mp h
    exact hk.setMultiLevel hb hA hrec hf.1 hf.2 hq
  | delete key => cases h; exact hk.apply_removes hb.entries hA (Index.removes_delete _ _) (hb.delete hA key).entries
  | deleteMany pattern =>
    rcases deleteMany_spec h with rfl | ⟨_, _, -, -, rfl⟩
    · exact hk
    · exact hk.apply_removes hb.entries hA (Index.removes_delete _ _) (hb.delete hA _).entries
  | reset => cases h; exact fun x e hx => by simp [reset, Index.deleteAll] at hx
  | sweep => cases h; exact hk.apply_removes hb.entries hA (Index.removes_deleteExpired _) (hb.sweep hA).entries
  | tick dt => cases h; exact hk

end Balance

/-- Along every serial run from `p₀` in which no `SetMultiLevel` writes a key the index holds
(live or expired) and no raw `Set` stores a value, `actualSize` stays equal to the bytes of
the files directly inside the storage directory, when it starts so with an empty index, as
`Init` leaves it, the calls' keys are plain and no file is at their paths at the start, and
`MappingUpdater` produces only bytes that contain `IDX_` or name no file. -/
theorem actualSize_exact {env : Env} {A : Variant → Prop} {p₀ q : Provider} {ops : List Op}
    (hA : ∀ a, A a → PlainKey p₀ a.variedKey) (hrec : ∀ u r, env.mappingUpdater u = .ok r → Inert A p₀ r)
    (hempty : p₀.index = ∅) (hexact : p₀.actualSize = p₀.fs.dirSize p₀.path)
    (hfree : ∀ a, A a → p₀.fs.lookup (p₀.joinedFP a.variedKey) = none)
    (hrun : Run (fun s op t => Step env s op t ∧ Fresh A s op) p₀ ops q) :
    q.actualSize = q.fs.dirSize q.path := by
  have hb : Balanced A p₀ q :=
    hrun.inv (Balanced A p₀) (fun _ _ _ hb h => hb.step hA hrec h.1 h.2) (.start hempty hexact hfree)
  have h0 := hb.exact
  rw [hb.path]
  simp only [gap] at h0
  omega

theorem reference_inert {A : Variant → Prop} {p₀ : Provider} (hK : ∀ f, Known A p₀ f → f.head? = some 47) :
    ∀ u r, Env.reference.mappingUpdater u = .ok r → Inert A p₀ r := by
  refine fun _ r h => .inr fun hk => ?_
  have h47 := resolve_head_separator (hK _ hk)
  rw [referenceUpdater_head h] at h47
  cases h47

def balanceKeys (a : Variant) : Prop := a.variedKey = utf8 "k" ∨ a.variedKey = utf8 "j"

def balanceFresh (s : Provider) : Op → Bool
  | .set _ _ _ => false
  | .setMultiLevel a => (a.variedKey = utf8 "k" || a.variedKey = utf8 "j") && !decide (a.variedKey ∈ s.index)
  | _ => true

theorem balanceKeys_fresh (s : Provider) (op : Op) (h : balanceFresh s op = true) : Fresh balanceKeys s op := by
  cases op with
  | set => cases h
  | setMultiLevel a =>
    simp only [balanceFresh, Bool.and_eq_true, Bool.or_eq_true, decide_eq_true_eq, Bool.not_eq_true',
      decide_eq_false_iff_not] at h
    exact h
  | _ => trivial

/-- `Init` on `/c` with room for two entries, no budget, payloads stored as they are, a file
`a b` in `/c` and a file `/d/x` outside it. -/
def balanceStart : Provider :=
  (factory (utf8 "/c") [] 2 (-1) (utf8 "none") 0
    (((∅ : Fs).writeFile (utf8 "/c/a b") (utf8 "zz")).writeFile (utf8 "/d/x") (utf8 "q")) 0).init

def balanceCall (k : String) : Variant := ⟨utf8 "b", utf8 k, utf8 "a", [], [], 10000000000, []⟩

def balanceOps : List Op :=
  [.setMultiLevel (balanceCall "k"), .setMultiLevel (balanceCall "j"), .tick 20000000000, .sweep,
    .setMultiLevel (balanceCall "k"), .delete (utf8 "k"), .reset]

def balanceEnd : Provider := balanceOps.foldl (fun p op => (p.exec Env.reference 1 op).getD p) balanceStart

theorem balanceKeys_plain : ∀ a, balanceKeys a → PlainKey balanceStart a.variedKey := by
  rintro a (h | h) <;> rw [h] <;> unfold PlainKey <;> decide

theorem balanceKeys_known : ∀ f, Known balanceKeys balanceStart f → f.head? = some 47 := by
  rintro f (h | ⟨a, h | h, rfl⟩)
  · have hf : f ∈ [utf8 "/d/x", utf8 "/c/a b"] := AList.lookup_isSome.mp (Option.ne_none_iff_isSome.mp h)
    rcases List.mem_pair.mp hf with rfl | rfl <;> rfl
  all_goals rw [h]; rfl

theorem balanceKeys_free : ∀ a, balanceKeys a → balanceStart.fs.lookup (balanceStart.joinedFP a.variedKey) = none := by
  rintro a (h | h) <;> rw [h] <;> rfl

/-- The run above meets every assumption, so `actualSize` ends exact. -/
theorem balance_after_writes :
    (∀ a, balanceKeys a → PlainKey balanceStart a.variedKey) ∧
      (∀ u r, Env.reference.mappingUpdater u = .ok r → Inert balanceKeys balanceStart r) ∧
      balanceStart.index = ∅ ∧ balanceStart.actualSize = balanceStart.fs.dirSize balanceStart.path ∧
      (∀ a, balanceKeys a → balanceStart.fs.lookup (balanceStart.joinedFP a.variedKey) = none) ∧
      Run (fun s op t => Step Env.reference s op t ∧ Fresh balanceKeys s op) balanceStart balanceOps balanceEnd ∧
      balanceEnd.actualSize = balanceEnd.fs.dirSize balanceEnd.path := by
  have hrec : ∀ u r, Env.reference.mappingUpdater u = .ok r → Inert balanceKeys balanceStart r :=
    reference_inert balanceKeys_known
  have hrun : Run (fun s op t => Step Env.reference s op t ∧ Fresh balanceKeys s op) balanceStart balanceOps
      balanceEnd :=
    run_of_runChecked_isSome balanceKeys_fresh (by decide)
  have hexact : balanceStart.actualSize = balanceStart.fs.dirSize balanceStart.path := rfl
  exact ⟨balanceKeys_plain, hrec, rfl, hexact, balanceKeys_free, hrun,
    actualSize_exact balanceKeys_plain hrec rfl hexact balanceKeys_free hrun⟩

def accountingStart : Provider := (factory (utf8 "/c") [] 0 (-1) (utf8 "none") 0 ∅ 0).init

def rewriteK : Option (Outcome × Provider) :=
  (accountingStart.setMultiLevel Env.reference 1 ⟨utf8 "b", utf8 "k", utf8 "a", [], [], 10000000000, []⟩).bind
    fun r => r.2.setMultiLevel Env.reference 1 ⟨utf8 "b", utf8 "k", utf8 "aa", [], [], 10000000000, []⟩

/-- Without the condition that no write rewrites a held key: ttlcache updates the entry in
place and fires no notification, so after both writes return nil the directory holds two
bytes and `actualSize` says one. -/
theorem rewrite_counter_drifts :
    rewriteK.map (fun r => (r.1, r.2.actualSize, r.2.fs.dirSize r.2.path)) = some (none, 1, 2) := by
  decide

/-- Along every serial run of the kind `actualSize_exact` covers, from a start with an empty
index, an exact count and no file inside the storage directory, as `Init` leaves an empty
directory, the files directly inside the directory are exactly the paths the data entries
hold: no file outlives its entry, and no entry outlives its file. -/
theorem files_match_entries {env : Env} {A : Variant → Prop} {p₀ q : Provider} {ops : List Op}
    (hA : ∀ a, A a → PlainKey p₀ a.variedKey) (hrec : ∀ u r, env.mappingUpdater u = .ok r → Inert A p₀ r)
    (hempty : p₀.index = ∅) (hexact : p₀.actualSize = p₀.fs.dirSize p₀.path)
    (hdir : ∀ f, Fs.inDir p₀.path f = true → p₀.fs.lookup f = none)
    (hrun : Run (fun s op t => Step env s op t ∧ Fresh A s op) p₀ ops q) {f : Bytes} (hf : Fs.inDir q.path f = true) :
    q.fs.lookup f ≠ none ↔ ∃ x e, q.index.lookup x = some e ∧ isMapping x = false ∧ e.value = f := by
  obtain ⟨hb, hk⟩ : Balanced A p₀ q ∧ Backed q :=
    hrun.inv (fun s => Balanced A p₀ s ∧ Backed s)
      (fun _ _ _ h hs => ⟨h.1.step hA hrec hs.1 hs.2, h.2.step h.1 hA hrec hs.1 hs.2⟩)
      ⟨.start hempty hexact fun a ha => hdir _ (inDir_joinedFP (hA a ha)), fun x e hx => by simp [hempty] at hx⟩
  constructor
  · intro hfile
    rcases hb.files f hfile with h0 | ⟨a, ha, rfl⟩
    · exact absurd (hdir f (hb.path ▸ hf)) h0
    · have hmem : a.variedKey ∈ q.index := by
        by_contra hn
        exact hfile (hb.stray a ha hn)
      obtain ⟨e, he⟩ := Option.isSome_iff_exists.mp (AList.lookup_isSome.mpr hmem)
      exact ⟨_, e, he, (hA a ha).2.1, (hb.entries.data _ e he (hA a ha).2.1).1⟩
  · rintro ⟨x, e, hx, hm, rfl⟩
    have h := hk x e hx hm
    rwa [Fs.readFile, (hb.entries.data x e hx hm).1, resolve_joinedFP, ← (hb.entries.data x e hx hm).1] at h

/-- `Init` on an empty directory `/c` with room for two entries, no budget, payloads stored as
they are, and a file `/d/x` outside it. -/
def filesStart : Provider :=
  (factory (utf8 "/c") [] 2 (-1) (utf8 "none") 0 ((∅ : Fs).writeFile (utf8 "/d/x") (utf8 "q")) 0).init

def filesOps : List Op := [.setMultiLevel (balanceCall "k"), .setMultiLevel (balanceCall "j")]

def filesEnd : Provider := filesOps.foldl (fun p op => (p.exec Env.reference 1 op).getD p) filesStart

/-- The run above meets every assumption: the file `/c/j` is on disk exactly as some data entry
holds its path. -/
theorem files_after_eviction :
    (∀ a, balanceKeys a → PlainKey filesStart a.variedKey) ∧
      (∀ u r, Env.reference.mappingUpdater u = .ok r → Inert balanceKeys filesStart r) ∧
      filesStart.index = ∅ ∧ filesStart.actualSize = filesStart.fs.dirSize filesStart.path ∧
      (∀ f, Fs.inDir filesStart.path f = true → filesStart.fs.lookup f = none) ∧
      Run (fun s op t => Step Env.reference s op t ∧ Fresh balanceKeys s op) filesStart filesOps filesEnd ∧
      Fs.inDir filesEnd.path (utf8 "/c/j") = true ∧
      (filesEnd.fs.lookup (utf8 "/c/j") ≠ none ↔
        ∃ x e, filesEnd.index.lookup x = some e ∧ isMapping x = false ∧ e.value = utf8 "/c/j") := by
  have hA : ∀ a, balanceKeys a → PlainKey filesStart a.variedKey := by
    rintro a (h | h) <;> rw [h] <;> unfold PlainKey <;> decide
  have hout : ∀ f, filesStart.fs.lookup f ≠ none → f = utf8 "/d/x" := fun f h =>
    List.mem_singleton.mp (AList.lookup_isSome.mp (Option.ne_none_iff_isSome.mp h))
  have hK : ∀ f, Known balanceKeys filesStart f → f.head? = some 47 := by
    rintro f (h | ⟨a, h | h, rfl⟩)
    · rw [hout f h]; rfl
    all_goals rw [h]; rfl
  have hdir : ∀ f, Fs.inDir filesStart.path f = true → filesStart.fs.lookup f = none := by
    intro f hf
    by_contra h
    rw [hout f h] at hf
    exact absurd hf (by decide)
  have hrun : Run (fun s op t => Step Env.reference s op t ∧ Fresh balanceKeys s op) filesStart filesOps filesEnd :=
    run_of_runChecked_isSome balanceKeys_fresh (by decide)
  have hexact : filesStart.actualSize = filesStart.fs.dirSize filesStart.path := rfl
  have hin : Fs.inDir filesEnd.path (utf8 "/c/j") = true := by decide
  exact ⟨hA, reference_inert hK, rfl, hexact, hdir, hrun, hin,
    files_match_entries hA (reference_inert hK) rfl hexact hdir hrun hin⟩

def variantIdx : Variant := ⟨utf8 "b", utf8 "IDX_k", utf8 "a", [], [], 10000000000, []⟩

/-- Without plain keys: the eviction hook tests the value for `IDX_`, so after writing
`IDX_k` and deleting it, its file is still on disk and no index entry holds that path. -/
theorem deleted_variant_leaves_file :
    ((accountingStart.setMultiLevel Env.reference 1 variantIdx).map fun r =>
      let q := r.2.delete variantIdx.variedKey
      (r.1, q.fs.lookup (accountingStart.joinedFP variantIdx.variedKey),
        q.index.entries.all fun i => i.2.value ≠ accountingStart.joinedFP variantIdx.variedKey)) =
      some (none, some (utf8 "a"), true) := by
  decide

end Provider

end Simplefs
