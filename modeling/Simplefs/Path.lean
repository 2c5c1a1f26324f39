import Simplefs.Basic

/-! # File names of cached variants

`SetMultiLevel` stores a variant in `filepath.Join(provider.path, url.PathEscape(variedKey))`.
This module gives `url.PathEscape` and the Unix `filepath.Clean`, `filepath.Join` and
`filepath.Dir` on bytes, as the Go standard library computes them.
-/
namespace Simplefs

/-- `shouldEscape(c, encodePathSegment)` of `net/url`. -/
def shouldEscape (c : UInt8) : Bool :=
  if (97 ≤ c ∧ c ≤ 122) ∨ (65 ≤ c ∧ c ≤ 90) ∨ (48 ≤ c ∧ c ≤ 57) then false
  -- `-`, `_`, `.`, `~`
  else if c = 45 ∨ c = 95 ∨ c = 46 ∨ c = 126 then false
  -- the reserved `$ & + , / : ; = ? @`, of which a path segment escapes `/ ; , ?`
  else if c = 36 ∨ c = 38 ∨ c = 43 ∨ c = 44 ∨ c = 47 ∨ c = 58 ∨ c = 59 ∨ c = 61 ∨ c = 63 ∨ c = 64
  then c = 47 ∨ c = 59 ∨ c = 44 ∨ c = 63
  else true

/-- A digit of `upperhex = "0123456789ABCDEF"`. -/
def upperhex (n : Nat) : UInt8 := (if n < 10 then 48 + n else 55 + n).toUInt8

/-- `url.PathEscape`: every byte `shouldEscape` names becomes `%XY`. -/
def pathEscape (s : Bytes) : Bytes :=
  s.flatMap fun c => if shouldEscape c then [37, upperhex (c.toNat / 16), upperhex (c.toNat % 16)] else [c]

/-- The path separator `/`. -/
def separator : UInt8 := 47

/-- The element stack of `filepath.Clean`, kept reversed: `.` and empty elements are
dropped, `..` removes the last real element, is dropped at a root and kept otherwise. -/
def cleanElements (rooted : Bool) : List Bytes → List Bytes → List Bytes
  | acc, [] => acc.reverse
  | acc, e :: rest =>
    if e = [] ∨ e = utf8 "." then cleanElements rooted acc rest
    else if e = utf8 ".." then
      match acc with
      | top :: acc' =>
        if top = utf8 ".." then cleanElements rooted (top :: top :: acc') rest
        else cleanElements rooted acc' rest
      | [] => cleanElements rooted (if rooted then [] else [e]) rest
    else cleanElements rooted (e :: acc) rest

/-- `filepath.Clean` on Unix, which returns `.` for an empty result. -/
def clean (path : Bytes) : Bytes :=
  let rooted := path.head? = some separator
  let body := List.intercalate [separator] (cleanElements rooted [] (path.splitOn separator))
  if rooted then separator :: body else if body = [] then utf8 "." else body

/-- `filepath.Join(dir, name)`: the non-empty elements joined by `/`, then cleaned. -/
def join (dir name : Bytes) : Bytes :=
  if dir ≠ [] then clean (dir ++ separator :: name)
  else if name ≠ [] then clean name else []

/-- `filepath.Dir`: everything up to the last separator, cleaned. -/
def dir (path : Bytes) : Bytes :=
  clean ((path.reverse.dropWhile (· ≠ separator)).reverse)

example : pathEscape (utf8 "a/b c") = utf8 "a%2Fb%20c" := by decide
example : join (utf8 "/tmp/cache/") (utf8 "..") = utf8 "/tmp" := by decide
example : dir (utf8 "/tmp/cache/k") = utf8 "/tmp/cache" := by decide

end Simplefs
