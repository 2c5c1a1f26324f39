import Mathlib.Data.List.AList
import Simplefs.Path

/-! # Regular files

Regular files by the path the OS opens: `.`, `..` and repeated separators resolved as
`filepath.Clean` does, with no symbolic links. The working directory is not fixed: a relative
path stays relative, and `mayAlias` says which paths may name one file. Directories are not
modelled.
-/
namespace Simplefs

/-- Regular files, by resolved path. -/
abbrev Fs := AList fun _ : Bytes => Bytes

namespace Fs

/-- The file the OS opens for `path`; the empty path names none. -/
def resolve (path : Bytes) : Bytes := if path = [] then [] else clean path

/-- Whether `path` starts at the root; any other path is read from the working directory. -/
def isAbs (path : Bytes) : Bool := path.head? = some separator

/-- The last element of the resolved path: the name of the file it opens. -/
def base (path : Bytes) : Bytes := ((resolve path).reverse.takeWhile (· ≠ separator)).reverse

/-- Whether `path` may open the file `f`: it resolves to `f`, or one of the two is relative,
read from the working directory, and their last elements agree. -/
def mayAlias (path f : Bytes) : Bool := resolve path = f || (!isAbs path || !isAbs f) && base path = base f

theorem resolve_ne_of_mayAlias {path f : Bytes} (h : mayAlias path f = false) : resolve path ≠ f := by
  simp_all [mayAlias]

example : mayAlias (utf8 "/c/./k") (utf8 "/c/k") = true ∧ mayAlias (utf8 "../k") (utf8 "/c/k") = true ∧
    mayAlias (utf8 "/d/k") (utf8 "/c/k") = false := by decide

/-- `os.ReadFile`, `none` when it fails. -/
def readFile (fs : Fs) (path : Bytes) : Option Bytes := fs.lookup (resolve path)

/-- `os.Stat(path).Size()`, `none` when the stat fails. -/
def stat (fs : Fs) (path : Bytes) : Option Int := (fs.readFile path).map fun b => (b.length : Int)

/-- `os.WriteFile` when it succeeds: the file is created or truncated. -/
def writeFile (fs : Fs) (path data : Bytes) : Fs := fs.insert (resolve path) data

/-- `os.Remove`. -/
def remove (fs : Fs) (path : Bytes) : Fs := fs.erase (resolve path)

/-- Whether a file lies directly inside the directory `root`, as `os.ReadDir(root)` lists it. -/
def inDir (root path : Bytes) : Bool := dir path = clean root

/-- The total size of the regular files directly inside `root`. -/
def dirSize (fs : Fs) (root : Bytes) : Int :=
  ((fs.entries.filter fun f => inDir root f.1).map fun f => (f.2.length : Int)).foldr (· + ·) 0

theorem lookup_writeFile (fs : Fs) (path data f : Bytes) :
    (fs.writeFile path data).lookup f = if f = resolve path then some data else fs.lookup f := by
  by_cases h : f = resolve path
  · subst h; simp [writeFile]
  · simp [writeFile, h, AList.lookup_insert_ne h]

theorem lookup_remove (fs : Fs) (path f : Bytes) :
    (fs.remove path).lookup f = if f = resolve path then none else fs.lookup f := by
  by_cases h : f = resolve path
  · subst h; simp [remove]
  · simp [remove, h, AList.lookup_erase_ne h]

@[simp] theorem lookup_writeFile_self (fs : Fs) (path data : Bytes) :
    (fs.writeFile path data).lookup (resolve path) = some data := by
  simp [lookup_writeFile]

theorem lookup_writeFile_ne {fs : Fs} {path f : Bytes} (data : Bytes) (h : f ≠ resolve path) :
    (fs.writeFile path data).lookup f = fs.lookup f := by
  simp [lookup_writeFile, h]

theorem lookup_remove_ne {fs : Fs} {path f : Bytes} (h : f ≠ resolve path) : (fs.remove path).lookup f = fs.lookup f := by
  simp [lookup_remove, h]

end Fs

end Simplefs
