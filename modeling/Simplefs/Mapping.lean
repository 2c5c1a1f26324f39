import Simplefs.SetMultiLevel

/-! # Mapping records

`MappingView` is any reading of records under which a successful `MappingUpdater` merge sets
its own key's entry and keeps the others; the reference encoding is one such updater, used
to run the provider on concrete inputs.
-/
namespace Simplefs

/-- A reading `variant record key` of mapping records: the empty record holds no variant,
the updater succeeds on every `valid` record and leaves a valid one, and a successful merge
sets its key's headers and etag and keeps every other key's. -/
structure MappingView (env : Env) where
  variant : Bytes → Bytes → Option (Headers × Bytes)
  valid : Bytes → Prop
  variant_empty : ∀ k, variant [] k = none
  valid_empty : valid []
  merge_ok : ∀ u, valid u.item → ∃ r, env.mappingUpdater u = .ok r ∧ valid r
  merge : ∀ u r, env.mappingUpdater u = .ok r → ∀ k,
    variant r k = if k = u.key then some (u.variedHeaders, u.etag) else variant u.item k

namespace MappingView

variable {env : Env} (V : MappingView env)

def hasVariant (r k : Bytes) : Prop := (V.variant r k).isSome

theorem hasVariant_merge {u : MappingUpdate} {r : Bytes} (h : env.mappingUpdater u = .ok r) (k : Bytes) :
    V.hasVariant r k ↔ k = u.key ∨ V.hasVariant u.item k := by
  unfold hasVariant; rw [V.merge u r h k]; by_cases hk : k = u.key <;> simp [hk]

end MappingView

/-! ## The reference encoding -/

/-- A string: every byte tagged with `1`, then a `0`. -/
def encodeStr (s : Bytes) : Bytes := s.flatMap (fun b => [1, b]) ++ [0]

/-- A list of strings, one after the other. -/
def encodeStrs (l : List Bytes) : Bytes := l.flatMap encodeStr

/-- Decoding of `encodeStrs`; `none` for bytes it does not produce. -/
def decodeStrs : Bytes → Option (List Bytes)
  | [] => some []
  | 0 :: rest => (decodeStrs rest).map ([] :: ·)
  | 1 :: b :: rest => (decodeStrs rest).bind fun
    | [] => none
    | k :: ks => some ((b :: k) :: ks)
  | _ => none

theorem decodeStrs_encodeStr (s rest : Bytes) :
    decodeStrs (encodeStr s ++ rest) = (decodeStrs rest).map (s :: ·) := by
  induction s with
  | nil => rfl
  | cons b s ih =>
    have h : encodeStr (b :: s) ++ rest = 1 :: b :: (encodeStr s ++ rest) := by simp [encodeStr]
    rw [h, decodeStrs, ih]
    cases decodeStrs rest <;> rfl

@[simp] theorem decodeStrs_encodeStrs (l : List Bytes) : decodeStrs (encodeStrs l) = some l := by
  induction l with
  | nil => rfl
  | cons s l ih =>
    rw [encodeStrs, List.flatMap_cons, decodeStrs_encodeStr, ← encodeStrs, ih]
    rfl

theorem mapM_map_of_inverse {α β : Type} {enc : α → β} {dec : β → Option α}
    (h : ∀ x, dec (enc x) = some x) (l : List α) : (l.map enc).mapM dec = some l := by
  induction l with
  | nil => rfl
  | cons x l ih => rw [List.map_cons, List.mapM_cons, h, ih]; rfl

/-- What a reference record keeps of a variant: its key, headers and etag. -/
structure Stored where
  key : Bytes
  variedHeaders : Headers
  etag : Bytes

/-- A header: its name, then its values. -/
def encodeHeader (h : Bytes × List Bytes) : Bytes := encodeStrs (h.1 :: h.2)

def decodeHeader (b : Bytes) : Option (Bytes × List Bytes) :=
  match decodeStrs b with
  | some (n :: vs) => some (n, vs)
  | _ => none

def encodeStored (m : Stored) : Bytes :=
  encodeStrs [m.key, m.etag, encodeStrs (m.variedHeaders.map encodeHeader)]

def decodeStored (b : Bytes) : Option Stored :=
  match decodeStrs b with
  | some [k, e, hs] => ((decodeStrs hs).bind (·.mapM decodeHeader)).map fun h => ⟨k, h, e⟩
  | _ => none

/-- A record: its variants, the most recently merged first. -/
def encodeRecord (l : List Stored) : Bytes := encodeStrs (l.map encodeStored)

def decodeRecord (r : Bytes) : Option (List Stored) := (decodeStrs r).bind (·.mapM decodeStored)

theorem decodeHeader_encodeHeader (h : Bytes × List Bytes) : decodeHeader (encodeHeader h) = some h := by
  simp [decodeHeader, encodeHeader]

theorem decodeStored_encodeStored (m : Stored) : decodeStored (encodeStored m) = some m := by
  rw [decodeStored, encodeStored, decodeStrs_encodeStrs]
  simp only [decodeStrs_encodeStrs, Option.some_bind, mapM_map_of_inverse decodeHeader_encodeHeader]
  rfl

@[simp] theorem decodeRecord_encodeRecord (l : List Stored) : decodeRecord (encodeRecord l) = some l := by
  rw [decodeRecord, encodeRecord, decodeStrs_encodeStrs, Option.some_bind,
    mapM_map_of_inverse decodeStored_encodeStored]

/-- The reference `MappingUpdater`: decode, put the variant first (dropping its older entry),
encode. A record that does not decode is an error, as a protobuf decoding failure is. -/
def referenceUpdater (u : MappingUpdate) : Except String Bytes :=
  match decodeRecord u.item with
  | some l => .ok (encodeRecord (⟨u.key, u.variedHeaders, u.etag⟩ :: l.filter (·.key ≠ u.key)))
  | none => .error "undecodable mapping record"

/-- An environment to run the model in: every write succeeds, both codecs are the
identity, merges use the reference encoding, and a pattern matches the keys containing it,
as a regular expression without metacharacters does. -/
def Env.reference : Env :=
  ⟨.ok, .ok, .ok, .ok, fun _ => true, referenceUpdater, fun pat => some fun s => contains s pat⟩

theorem find?_filter_key {l : List Stored} {k k' : Bytes} (h : k ≠ k') :
    (l.filter (·.key ≠ k')).find? (·.key = k) = l.find? (·.key = k) := by
  rw [List.find?_filter]
  congr 1
  funext m
  by_cases hm : m.key = k <;> simp [hm, h]

/-- The reference encoding read back. -/
def referenceView : MappingView Env.reference where
  variant r k := ((decodeRecord r).bind fun l => l.find? (·.key = k)).map fun m => (m.variedHeaders, m.etag)
  valid r := (decodeRecord r).isSome
  variant_empty _ := rfl
  valid_empty := rfl
  merge_ok u h := by
    obtain ⟨l, hl⟩ := Option.isSome_iff_exists.mp h
    refine ⟨encodeRecord (⟨u.key, u.variedHeaders, u.etag⟩ :: l.filter (·.key ≠ u.key)), ?_, ?_⟩
    · simp only [Env.reference, referenceUpdater, hl]
    · show (decodeRecord _).isSome = true
      simp
  merge u r h k := by
    simp only [Env.reference, referenceUpdater] at h
    split at h
    · rename_i l hl
      cases h
      by_cases hk : k = u.key
      · simp [hk]
      · simp only [decodeRecord_encodeRecord, Option.some_bind, hl, if_neg hk]
        rw [List.find?_cons_of_neg _ (by simpa using Ne.symm hk), find?_filter_key hk]
    · cases h

theorem referenceUpdater_head {u : MappingUpdate} {r : Bytes} (h : referenceUpdater u = .ok r) :
    r.head? = some 1 := by
  unfold referenceUpdater at h
  split at h
  · cases h
    have hne : encodeStored ⟨u.key, u.variedHeaders, u.etag⟩ ≠ [] := by simp [encodeStored, encodeStrs, encodeStr]
    obtain ⟨b, t, hbt⟩ := List.exists_cons_of_ne_nil hne
    simp [encodeRecord, encodeStrs, encodeStr, hbt]
  · cases h

end Simplefs
