import Mathlib.Data.List.Infix

/-! # Byte strings

Go's `string` and `[]byte` are the same byte sequences and the provider converts between
them freely (`string(item.Value())`, `[]byte(joinedFP)`), so both are `Bytes` here. The
string functions of Go's standard library that `simplefs.go` calls are defined on them.
-/
namespace Simplefs

/-- A Go `string` or `[]byte`. -/
abbrev Bytes := List UInt8

/-- The bytes of a string literal, as Go stores it (UTF-8). -/
def utf8 (s : String) : Bytes := s.toUTF8.data.toList

/-- `strings.Contains`. -/
def contains (s substr : Bytes) : Bool := decide (substr <:+: s)

/-- `strings.HasPrefix`. -/
def hasPrefix (s pre : Bytes) : Bool := pre.isPrefixOf s

/-- `strings.ToLower` on the ASCII letters. Other bytes are left alone: no other rune
lowers to a letter of `"lz4"` or `"zstd"`, the only names the lowered value is compared to. -/
def toLower (s : Bytes) : Bytes :=
  s.map fun c => if 65 ≤ c ∧ c ≤ 90 then c + 32 else c

/-- `core.MappingKeyPrefix`: the reserved prefix of mapping-record keys. -/
def mappingKeyPrefix : Bytes := utf8 "IDX_"

/-- `strings.Contains(s, core.MappingKeyPrefix)`, the test both notification hooks make. -/
def isMapping (s : Bytes) : Bool := contains s mappingKeyPrefix

theorem isMapping_append_left (pre s : Bytes) (h : isMapping s) : isMapping (pre ++ s) := by
  simp only [isMapping, contains, decide_eq_true_eq] at h ⊢
  exact h.trans (List.suffix_append pre s).isInfix

theorem isMapping_prefix (s : Bytes) : isMapping (mappingKeyPrefix ++ s) := by
  simp [isMapping, contains, (List.prefix_append mappingKeyPrefix s).isInfix]

end Simplefs
