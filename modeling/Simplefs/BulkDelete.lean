import Simplefs.Mapping

/-! # Bulk delete

`DeleteMany` deletes matches inside `cache.Range`, whose walk ends at the first deleted item:
a call changes at most one key (`deleteMany_keeps_others`) and panics exactly when that key
is the only item (`deleteMany_eq_none_iff`).
-/
namespace Simplefs

namespace Index

variable {now : Int} {c : Index}

theorem firstLive_mem {p : Bytes → Bool} {i : Item} (h : c.firstLive now p = some i) : i ∈ c.entries :=
  List.mem_of_find?_eq_some h

theorem delete_entries_eq_nil {i : Item} (hi : i ∈ c.entries) :
    (c.delete i.1).1.entries = [] ↔ c.entries = [i] := by
  have hl : c.lookup i.1 = some i.2 := AList.mem_lookup_iff.mpr hi
  obtain ⟨b, l₁, l₂, -, he, hk⟩ := List.exists_of_kerase (List.mem_keys_of_mem hi)
  simp only [delete, hl]
  change c.entries.kerase i.1 = [] ↔ _
  rw [hk, he, List.append_eq_nil]
  constructor
  · rintro ⟨rfl, rfl⟩
    rw [he] at hi
    simp only [List.nil_append, List.mem_singleton] at hi
    rw [hi]; rfl
  · intro h
    have hlen := congrArg List.length h
    simp only [List.length_append, List.length_cons, List.length_nil] at hlen
    exact ⟨List.eq_nil_of_length_eq_zero (by omega), List.eq_nil_of_length_eq_zero (by omega)⟩

end Index

namespace Provider

variable {env : Env} {p q : Provider} {pattern : Bytes}

def bulkStart : Provider := (factory (utf8 "/c") [] 0 (-1) (utf8 "none") 0 ∅ 0).init

def twoMatches : Provider := (bulkStart.set (utf8 "a1") (utf8 "x") 10000000000).set (utf8 "a2") (utf8 "y") 10000000000

theorem deleteMany_keeps_others (h : p.deleteMany env pattern = some q) :
    ∃ k, ∀ x, x ≠ k → q.index.lookup x = p.index.lookup x := by
  rcases deleteMany_spec h with rfl | ⟨m, i, -, -, rfl⟩
  · exact ⟨[], fun _ _ => rfl⟩
  · exact ⟨i.1, fun x hx => by simp [delete, hx]⟩

/-- Of any two keys, one keeps its entry: however many live keys the pattern matches, a call
that returns leaves all of them but one. -/
theorem deleteMany_survivor (h : p.deleteMany env pattern = some q) {x y : Bytes} (hxy : x ≠ y) :
    q.index.lookup x = p.index.lookup x ∨ q.index.lookup y = p.index.lookup y := by
  obtain ⟨k, hk⟩ := deleteMany_keeps_others h
  by_cases hx : x = k
  · exact .inr (hk y fun hy => hxy (hx.trans hy.symm))
  · exact .inl (hk x hx)

/-- `deleteMany_survivor` on `DeleteMany("a")` over the live keys `a2` and `a1`. -/
theorem survivor_of_two_matches :
    twoMatches.deleteMany Env.reference (utf8 "a") = some (twoMatches.delete (utf8 "a2")) ∧
      utf8 "a1" ≠ utf8 "a2" ∧
      ((twoMatches.delete (utf8 "a2")).index.lookup (utf8 "a1") = twoMatches.index.lookup (utf8 "a1") ∨
        (twoMatches.delete (utf8 "a2")).index.lookup (utf8 "a2") = twoMatches.index.lookup (utf8 "a2")) :=
  have h : twoMatches.deleteMany Env.reference (utf8 "a") = some (twoMatches.delete (utf8 "a2")) := rfl
  have hxy : utf8 "a1" ≠ utf8 "a2" := by decide
  ⟨h, hxy, deleteMany_survivor h hxy⟩

theorem deleteMany_of_match {m : Bytes → Bool} {i : Item} (hm : env.regexpCompile pattern = some m)
    (hi : p.index.firstLive p.now m = some i) (h : p.deleteMany env pattern = some q) :
    q = p.delete i.1 := by
  simp only [deleteMany, hm, hi] at h
  split at h
  · cases h
  · exact (Option.some.inj h).symm

/-- `DeleteMany` panics exactly when the pattern compiles and its most recently used live
match is the only item of the cache. -/
theorem deleteMany_eq_none_iff : p.deleteMany env pattern = none ↔
    ∃ m i, env.regexpCompile pattern = some m ∧ p.index.firstLive p.now m = some i ∧
      p.index.entries = [i] := by
  unfold deleteMany
  split
  · simp_all
  · rename_i m hm
    split
    · simp_all
    · rename_i i hi
      have hempty := Index.delete_entries_eq_nil (Index.firstLive_mem hi)
      simp only [delete, apply_index] at hempty ⊢
      split
      · rename_i he
        exact ⟨fun _ => ⟨m, i, hm, hi, hempty.mp he⟩, fun _ => rfl⟩
      · rename_i hne
        refine ⟨(fun h => by cases h), ?_⟩
        rintro ⟨m', i', hm', hi', he⟩
        rw [hm] at hm'; cases hm'
        rw [hi] at hi'; cases hi'
        exact absurd (hempty.mpr he) hne

/-- With the live keys `a2` and `a1`, both containing `a`, `DeleteMany("a")` returns with
`a1` still live; with `a1` alone, it panics. -/
theorem deleteMany_misses_matches :
    twoMatches.listKeys = [utf8 "a2", utf8 "a1"] ∧
      (twoMatches.deleteMany Env.reference (utf8 "a")).map listKeys = some [utf8 "a1"] ∧
      (bulkStart.set (utf8 "a1") (utf8 "x") 10000000000).deleteMany Env.reference (utf8 "a") = none :=
  ⟨by decide, by decide, rfl⟩

end Provider

end Simplefs
