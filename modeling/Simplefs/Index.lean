import Mathlib.Data.List.AList
import Simplefs.Basic

/-! # The TTL index

ttlcache v3.3.0's cache as one association list, most recently used first, with no default
TTL. Each operation returns the notifications it fires, in order (`Simplefs.Provider`).
-/
namespace Simplefs

/-- What ttlcache keeps per key: `Item.value`, `Item.ttl` and `Item.expiresAt`, times in
nanoseconds. -/
structure Entry where
  value : Bytes
  ttl : Int
  expiresAt : Int
deriving DecidableEq, Repr

/-- An `Item`: a key with its entry. -/
abbrev Item := Σ _ : Bytes, Entry

/-- The cache's `items.values` and `items.lru` in one: one entry per key, in LRU order,
the most recently used first. -/
abbrev Index := AList fun _ : Bytes => Entry

/-- A notification for the `OnInsertion` and `OnEviction` hooks. The eviction reason is
left out: the provider's hook never reads it. -/
inductive Event where
  | insertion (key value : Bytes)
  | eviction (key value : Bytes)
deriving DecidableEq, Repr

/-- `PreviousOrDefaultTTL`, the TTL that keeps an updated item's old TTL. -/
def previousOrDefaultTTL : Int := -2

namespace Entry

/-- `Item.isExpiredUnsafe`: an item whose `ttl ≤ 0` never expires. -/
def isExpired (now : Int) (e : Entry) : Bool := 0 < e.ttl && e.expiresAt < now

/-- `Item.touchUnsafe`. -/
def touch (now : Int) (e : Entry) : Entry :=
  if 0 < e.ttl then { e with expiresAt := now + e.ttl } else e

/-- `newItem`, after `set` has replaced `PreviousOrDefaultTTL` by the cache's default TTL,
which is `0` here. -/
def create (now : Int) (value : Bytes) (ttl : Int) : Entry :=
  touch now ⟨value, if ttl = previousOrDefaultTTL then 0 else ttl, 0⟩

/-- `Item.update`. -/
def update (now : Int) (value : Bytes) (ttl : Int) (e : Entry) : Entry :=
  if ttl = previousOrDefaultTTL then { e with value } else touch now ⟨value, ttl, 0⟩

@[simp] theorem touch_value (now : Int) (e : Entry) : (e.touch now).value = e.value := by
  unfold touch; split <;> rfl

@[simp] theorem touch_ttl (now : Int) (e : Entry) : (e.touch now).ttl = e.ttl := by
  unfold touch; split <;> rfl

@[simp] theorem create_value (now : Int) (v : Bytes) (ttl : Int) : (create now v ttl).value = v := by
  simp [create]

@[simp] theorem update_value (now : Int) (v : Bytes) (ttl : Int) (e : Entry) :
    (e.update now v ttl).value = v := by
  unfold update; split <;> simp

theorem create_of_pos {ttl : Int} (now : Int) (v : Bytes) (h : 0 < ttl) :
    create now v ttl = ⟨v, ttl, now + ttl⟩ := by
  have : ttl ≠ previousOrDefaultTTL := by simp [previousOrDefaultTTL]; omega
  simp [create, touch, this, h]

theorem update_of_pos {ttl : Int} (now : Int) (v : Bytes) (e : Entry) (h : 0 < ttl) :
    e.update now v ttl = ⟨v, ttl, now + ttl⟩ := by
  have : ttl ≠ previousOrDefaultTTL := by simp [previousOrDefaultTTL]; omega
  simp [update, touch, this, h]

theorem touch_not_expired (now : Int) (e : Entry) : (e.touch now).isExpired now = false := by
  unfold touch isExpired; split <;> simp_all; omega

end Entry

namespace Index

variable (now : Int)

/-- The last entry of the LRU list: `lru.Back()`. -/
def back (c : Index) : Option Item := c.entries.getLast?

/-- The entries for which `p` holds, in their order. -/
def keep (c : Index) (p : Item → Bool) : Index :=
  ⟨c.entries.filter p, c.nodupKeys.sublist (List.filter_sublist _)⟩

/-- `Cache.Get` with touch-on-hit: a live entry is touched and moved to the front, an
expired one is a miss and stays where it is. -/
def get (c : Index) (key : Bytes) : Option Entry × Index :=
  match c.lookup key with
  | some e => if e.isExpired now then (none, c) else (some (e.touch now), c.insert key (e.touch now))
  | none => (none, c)

/-- `evict(EvictionReasonCapacityReached, lru.Back())`. -/
def evictBack (c : Index) : Index × List Event :=
  match c.back with
  | some i => (c.erase i.1, [.eviction i.1 i.2.value])
  | none => (c, [])

/-- `Cache.Set`: a present key, expired or not, is updated and moved to the front with no
notification; a new key first evicts the LRU entry when `capacity` (`0`: none) is reached,
and is then inserted at the front with an insertion notification. -/
def set (capacity : Nat) (c : Index) (key value : Bytes) (ttl : Int) : Index × List Event :=
  match c.lookup key with
  | some e => (c.insert key (e.update now value ttl), [])
  | none =>
    let r := if capacity ≠ 0 ∧ capacity ≤ c.entries.length then evictBack c else (c, [])
    (r.1.insert key (Entry.create now value ttl), r.2 ++ [.insertion key value])

/-- `Cache.Delete`. -/
def delete (c : Index) (key : Bytes) : Index × List Event :=
  match c.lookup key with
  | some e => (c.erase key, [.eviction key e.value])
  | none => (c, [])

/-- `Cache.DeleteAll`: every entry is evicted. Go sends the notifications in map order,
which it leaves unspecified; this takes LRU order. -/
def deleteAll (c : Index) : Index × List Event :=
  (∅, c.entries.map fun i => .eviction i.1 i.2.value)

/-- `Cache.DeleteExpired`, which the background loop `Cache.Start` runs: every expired
entry is evicted. Go takes them in expiry order; this takes LRU order. -/
def deleteExpired (c : Index) : Index × List Event :=
  (c.keep fun i => !i.2.isExpired now,
    (c.entries.filter fun i => i.2.isExpired now).map fun i => .eviction i.1 i.2.value)

/-- The first item `Cache.Range` hands to a visitor that skips every item failing `p`:
the most recently used live item satisfying `p`. -/
def firstLive (c : Index) (p : Bytes → Bool) : Option Item :=
  c.entries.find? fun i => !i.2.isExpired now && p i.1

/-- The first item `Cache.RangeBackwards` hands to its visitor: the least recently used
live item. -/
def lastLive (c : Index) : Option Item :=
  c.entries.reverse.find? fun i => !i.2.isExpired now

/-- `Cache.Keys`: the live keys (Go returns them in map order). -/
def keys (c : Index) : List Bytes :=
  (c.entries.filter fun i => !i.2.isExpired now).map (·.1)

/-! ## Lookups after each operation -/

variable {now} {c : Index} {key x v : Bytes} {ttl : Int} {cap : Nat}

theorem get_fst (c : Index) (key : Bytes) :
    (c.get now key).1 = (c.lookup key).bind fun e => if e.isExpired now then none else some (e.touch now) := by
  unfold get; split <;> simp_all; split <;> rfl

theorem lookup_get_self (c : Index) (key : Bytes) : (c.get now key).2.lookup key =
    (c.lookup key).map fun e => if e.isExpired now then e else e.touch now := by
  unfold get; split <;> simp_all; split <;> simp_all

theorem get_of_not_mem (h : key ∉ c) : c.get now key = (none, c) := by
  simp [get, AList.lookup_eq_none.mpr h]

theorem head_get_hit {e : Entry} (he : c.lookup key = some e) (hlive : e.isExpired now = false) :
    (c.get now key).2.entries.head?.map (·.1) = some key := by
  simp [get, he, hlive, AList.insert_entries]

@[simp] theorem mem_get : x ∈ (c.get now key).2 ↔ x ∈ c := by
  unfold get; split
  · split
    · rfl
    · rename_i e he _
      simp only [AList.mem_insert]
      exact ⟨fun h => h.elim (fun h => h ▸ AList.lookup_isSome.mp (by simp [he])) id, .inr⟩
  · rfl

@[simp] theorem lookup_get_ne (h : x ≠ key) : (c.get now key).2.lookup x = c.lookup x := by
  unfold get; split <;> [split <;> simp [h]; rfl]

theorem lookup_get (c : Index) (key x : Bytes) : (c.get now key).2.lookup x =
    (c.lookup x).map fun e => if x = key ∧ e.isExpired now = false then e.touch now else e := by
  by_cases h : x = key
  · subst h
    rw [lookup_get_self]
    congr 1
    funext e
    by_cases he : e.isExpired now <;> simp [he]
  · simp [h]

theorem lookup_evictBack (c : Index) (x : Bytes) :
    (evictBack c).1.lookup x = if (c.back.map (·.1)) = some x then none else c.lookup x := by
  unfold evictBack
  cases c.back with
  | none => simp
  | some i =>
    by_cases h : i.1 = x
    · simp [h]
    · simp [h, AList.lookup_erase_ne (Ne.symm h)]

theorem lookup_of_back {i : Item} (h : c.back = some i) : c.lookup i.1 = some i.2 :=
  AList.mem_lookup_iff.mpr (List.mem_of_mem_getLast? h)

theorem back_ne_head (hhead : c.entries.head?.map (·.1) = some x) (hlen : 2 ≤ c.entries.length) :
    c.back.map (·.1) ≠ some x := by
  obtain ⟨i, hi, rfl⟩ := Option.map_eq_some'.mp hhead
  obtain ⟨l, hl⟩ := List.head?_eq_some_iff.mp hi
  have hnd := List.nodupKeys_cons.mp (hl ▸ c.nodupKeys)
  cases l with
  | nil => simp [hl] at hlen
  | cons j l =>
    intro h
    obtain ⟨b, hb, hbk⟩ := Option.map_eq_some'.mp h
    have hmem : b ∈ j :: l := by
      rw [back, hl, List.getLast?_cons_cons] at hb
      exact List.mem_of_mem_getLast? hb
    exact hnd.1 (hbk ▸ List.mem_keys_of_mem hmem)

theorem lookup_set_self (c : Index) (key v : Bytes) (ttl : Int) (cap : Nat) :
    ((c.set now cap key v ttl).1.lookup key).map (·.value) = some v := by
  unfold set; split <;> simp

theorem lookup_set_self_of_nonpos (c : Index) (key v : Bytes) (cap : Nat) (h : ttl ≤ 0)
    (h2 : ttl ≠ previousOrDefaultTTL) : (c.set now cap key v ttl).1.lookup key = some ⟨v, ttl, 0⟩ := by
  unfold set; split <;> simp [Entry.update, Entry.create, Entry.touch, h2, not_lt.mpr h]

theorem ttl_set_self_nonpos (h : ttl ≤ 0) (hold : ∀ e, c.lookup key = some e → e.ttl ≤ 0) :
    ∀ e, (c.set now cap key v ttl).1.lookup key = some e → e.ttl ≤ 0 := by
  unfold set
  split
  · rename_i e' he'
    simp only [AList.lookup_insert, Option.some.injEq, forall_eq']
    unfold Entry.update; split
    · exact hold e' he'
    · simpa using h
  · simp only [AList.lookup_insert, Option.some.injEq, forall_eq']
    simp only [Entry.create, Entry.touch_ttl]
    split <;> omega

theorem lookup_set_ne (h : x ≠ key) :
    (c.set now cap key v ttl).1.lookup x = c.lookup x ∨ (c.set now cap key v ttl).1.lookup x = none := by
  unfold set; split
  · simp [h]
  · simp only [AList.lookup_insert_ne h]; split
    · rw [lookup_evictBack]; split <;> simp
    · simp

theorem lookup_set_eq_some {e : Entry} (h : (c.set now cap key v ttl).1.lookup x = some e) :
    (x = key ∧ e.value = v) ∨ c.lookup x = some e := by
  by_cases hk : x = key
  · subst hk
    have hself : ((c.set now cap x v ttl).1.lookup x).map (·.value) = some v := lookup_set_self c x v ttl cap
    rw [h] at hself
    exact .inl ⟨rfl, Option.some.inj hself⟩
  · have hne : (c.set now cap key v ttl).1.lookup x = c.lookup x ∨ (c.set now cap key v ttl).1.lookup x = none :=
      lookup_set_ne hk
    rcases hne with h' | h' <;> rw [h'] at h
    · exact .inr h
    · cases h

theorem mem_set_self : key ∈ (c.set now cap key v ttl).1 := by
  have hself : ((c.set now cap key v ttl).1.lookup key).map (·.value) = some v := lookup_set_self c key v ttl cap
  exact AList.lookup_isSome.mp (by simpa using congrArg Option.isSome hself)

theorem mem_of_mem_set (h : x ∈ (c.set now cap key v ttl).1) : x = key ∨ x ∈ c := by
  obtain ⟨e, he⟩ := Option.isSome_iff_exists.mp (AList.lookup_isSome.mpr h)
  exact (lookup_set_eq_some he).imp And.left fun hx => AList.lookup_isSome.mp (by simp [hx])

theorem lookup_set_ne_of_room (h : x ≠ key) (hroom : key ∈ c ∨ cap = 0 ∨ c.entries.length < cap) :
    (c.set now cap key v ttl).1.lookup x = c.lookup x := by
  unfold set; split
  · simp [h]
  · rename_i hk
    have hfull : ¬ (cap ≠ 0 ∧ cap ≤ c.entries.length) := by
      rcases hroom with hm | h0 | hl
      · exact absurd (AList.lookup_isSome.mpr hm) (by simp [hk])
      all_goals omega
    simp [h, hfull]

theorem lookup_set_head (hhead : c.entries.head?.map (·.1) = some x) (hne : x ≠ key) (hcap : cap ≠ 1) :
    (c.set now cap key v ttl).1.lookup x = c.lookup x := by
  unfold set; split
  · simp [hne]
  · simp only [AList.lookup_insert_ne hne]; split
    · rename_i hfull
      rw [lookup_evictBack, if_neg (back_ne_head hhead (by omega))]
    · rfl

theorem eviction_mem_set {w : Bytes} (h : Event.eviction x w ∈ (c.set now cap key v ttl).2) :
    key ∉ c ∧ cap ≠ 0 ∧ cap ≤ c.entries.length ∧ ∃ e, c.back = some ⟨x, e⟩ ∧ e.value = w := by
  unfold set at h; split at h
  · simp at h
  · rename_i hk
    split at h
    · rename_i hfull
      unfold evictBack at h; split at h
      · rename_i i hb
        simp at h
        obtain ⟨rfl, rfl⟩ := h
        exact ⟨AList.lookup_eq_none.mp hk, hfull.1, hfull.2, i.2, hb, rfl⟩
      · simp at h
    · simp at h

theorem evicted_set {w : Bytes} (h : Event.eviction x w ∈ (c.set now cap key v ttl).2) :
    ∃ e, c.lookup x = some e ∧ e.value = w ∧ (c.set now cap key v ttl).1.lookup x = none := by
  obtain ⟨hk, hc0, hlen, e, hb, rfl⟩ := eviction_mem_set h
  have hx := lookup_of_back hb
  have hne : x ≠ key := fun h' => hk (h' ▸ AList.lookup_isSome.mp (by simp [hx]))
  refine ⟨e, hx, rfl, ?_⟩
  simp [set, AList.lookup_eq_none.mpr hk, hc0, hlen, evictBack, hb, AList.lookup_insert_ne hne]

theorem set_snd_of_mem (h : key ∈ c) : (c.set now cap key v ttl).2 = [] := by
  obtain ⟨e, he⟩ := Option.isSome_iff_exists.mp (AList.lookup_isSome.mpr h)
  simp [set, he]

theorem set_one_entries (hlen : c.entries.length ≤ 1) :
    ∃ e, (c.set now 1 key v ttl).1.entries = [⟨key, e⟩] ∧ e.value = v := by
  rcases c with ⟨_ | ⟨⟨a, e'⟩, _ | ⟨j, l⟩⟩, hnd⟩
  · exact ⟨Entry.create now v ttl, by simp [set, AList.lookup, AList.insert_entries], Entry.create_value now v ttl⟩
  · by_cases hk : key = a
    · subst hk
      exact ⟨e'.update now v ttl, by simp [set, AList.lookup, List.dlookup_cons_eq, AList.insert_entries],
        Entry.update_value now v ttl e'⟩
    · refine ⟨Entry.create now v ttl, ?_, Entry.create_value now v ttl⟩
      have hl : List.dlookup key ([⟨a, e'⟩] : List Item) = none := List.dlookup_cons_ne [] (⟨a, e'⟩ : Item) hk
      have he : (AList.erase a (⟨[⟨a, e'⟩], hnd⟩ : Index)).entries = [] := List.kerase_cons_eq rfl
      simp [set, AList.lookup, hl, evictBack, back, AList.insert_entries, he]
  · simp at hlen

theorem set_one_evicts {i : Item} (hc : c.entries = [i]) (hk : key ≠ i.1) :
    (c.set now 1 key v ttl).2 = [.eviction i.1 i.2.value, .insertion key v] := by
  have hl : c.lookup key = none := by simp [AList.lookup, hc, List.dlookup_cons_ne _ _ hk]
  simp [set, hl, hc, evictBack, back]

theorem head_set (c : Index) (key v : Bytes) (ttl : Int) (cap : Nat) :
    (c.set now cap key v ttl).1.entries.head?.map (·.1) = some key := by
  unfold set; split <;> simp [AList.insert_entries]

@[simp] theorem lookup_delete_self (c : Index) (key : Bytes) : (c.delete key).1.lookup key = none := by
  unfold delete; split <;> simp_all

@[simp] theorem lookup_delete_ne (h : x ≠ key) : (c.delete key).1.lookup x = c.lookup x := by
  unfold delete; split <;> simp [h]

theorem delete_of_not_mem (h : key ∉ c) : c.delete key = (c, []) := by
  simp [delete, AList.lookup_eq_none.mpr h]

theorem lookup_keep (c : Index) (p : Item → Bool) (x : Bytes) :
    (c.keep p).lookup x = (c.lookup x).filter fun e => p ⟨x, e⟩ :=
  Option.ext fun e => by
    rw [Option.mem_filter_iff, AList.mem_lookup_iff, AList.mem_lookup_iff]
    simp [keep]

theorem lookup_deleteExpired (c : Index) (x : Bytes) :
    (c.deleteExpired now).1.lookup x = (c.lookup x).filter fun e => !e.isExpired now :=
  lookup_keep c _ x

/-! ## Operations that only remove -/

/-- `r` keeps a subset of `c`'s entries as they were, and each eviction it fires is of an
entry of `c` that it removed. -/
def Removes (c : Index) (r : Index × List Event) : Prop :=
  (∀ x e, r.1.lookup x = some e → c.lookup x = some e) ∧
    ∀ x v, Event.eviction x v ∈ r.2 → ∃ e, c.lookup x = some e ∧ e.value = v ∧ r.1.lookup x = none

theorem removes_delete (c : Index) (key : Bytes) : c.Removes (c.delete key) := by
  constructor
  · intro x e h
    by_cases hx : x = key
    · subst hx; simp at h
    · rwa [lookup_delete_ne hx] at h
  · intro x v h
    unfold delete at h
    split at h
    · rename_i e he
      simp only [List.mem_singleton, Event.eviction.injEq] at h
      obtain ⟨rfl, rfl⟩ := h
      exact ⟨e, he, rfl, lookup_delete_self c x⟩
    · simp at h

theorem removes_deleteExpired (c : Index) : c.Removes (c.deleteExpired now) := by
  constructor
  · intro x e h
    rw [lookup_deleteExpired] at h
    exact (Option.mem_filter_iff.mp h).1
  · intro x v h
    simp only [deleteExpired, List.mem_map, List.mem_filter, Event.eviction.injEq] at h
    obtain ⟨i, ⟨hi, hexp⟩, rfl, rfl⟩ := h
    have hl : c.lookup i.1 = some i.2 := AList.mem_lookup_iff.mpr hi
    exact ⟨i.2, hl, rfl, by simp [lookup_deleteExpired, hl, hexp]⟩

theorem removes_deleteAll (c : Index) : c.Removes c.deleteAll :=
  ⟨fun x e hx => by simp [deleteAll] at hx, fun x v hv => by
    obtain ⟨i, hi, he⟩ := List.mem_map.mp hv
    cases he
    exact ⟨i.2, AList.mem_lookup_iff.mpr hi, rfl, rfl⟩⟩

theorem delete_evictions (c : Index) (key : Bytes) : ∀ ev ∈ (c.delete key).2, ∃ k v, ev = .eviction k v := by
  intro ev hev
  unfold delete at hev
  split at hev
  · exact ⟨_, _, List.mem_singleton.mp hev⟩
  · cases hev

theorem deleteAll_evictions (c : Index) : ∀ ev ∈ c.deleteAll.2, ∃ k v, ev = .eviction k v := fun ev hev => by
  obtain ⟨i, -, rfl⟩ := List.mem_map.mp hev
  exact ⟨_, _, rfl⟩

theorem deleteExpired_evictions (c : Index) : ∀ ev ∈ (c.deleteExpired now).2, ∃ k v, ev = .eviction k v :=
  fun ev hev => by
    obtain ⟨i, -, rfl⟩ := List.mem_map.mp hev
    exact ⟨_, _, rfl⟩

end Index

end Simplefs
