import Simplefs.Index
import Simplefs.Fs

/-! # The provider

The `Simplefs` struct with its files and clock, its collaborators, the two hooks `Init`
attaches and the storage operations. ttlcache starts each hook on a goroutine of its own;
the model runs them before the next operation, so every result is for schedules that let
every hook finish first. The logger and the mutex `mu` are left out.
-/
namespace Simplefs

/-- `http.Header`. -/
abbrev Headers := List (Bytes × List Bytes)

/-- The arguments of one `core.MappingUpdater` call. -/
structure MappingUpdate where
  key : Bytes
  item : Bytes
  now : Int
  freshTime : Int
  staleTime : Int
  variedHeaders : Headers
  etag : Bytes
  realKey : Bytes

/-- The collaborators `simplefs.go` calls that this repository does not define. -/
structure Env where
  /-- The bytes `lz4.Writer.ReadFrom` leaves in the buffer before the deferred `Close`. -/
  lz4Write : Bytes → Except String Bytes
  /-- `io.ReadAll(lz4.NewReader(...))`. -/
  lz4Read : Bytes → Except String Bytes
  /-- The bytes `zstd.NewWriter` and `Write` leave in the buffer before the deferred `Close`. -/
  zstdWrite : Bytes → Except String Bytes
  /-- `zstd.NewReader`, then `io.ReadAll`. -/
  zstdRead : Bytes → Except String Bytes
  /-- Whether `os.WriteFile` succeeds at a path. -/
  writeOk : Bytes → Bool
  /-- `core.MappingUpdater`. -/
  mappingUpdater : MappingUpdate → Except String Bytes
  /-- `regexp.Compile`, as the `MatchString` of the compiled pattern. -/
  regexpCompile : Bytes → Option (Bytes → Bool)

/-- The `Simplefs` struct, the files and the clock (nanoseconds). -/
structure Provider where
  index : Index
  stale : Int
  size : Int
  path : Bytes
  actualSize : Int
  directorySize : Int
  compression : Bytes
  fs : Fs
  now : Int

namespace Provider

/-- `ttlcache.WithCapacity(uint64(size))`: the size modulo `2^64`. -/
def capacity (p : Provider) : Nat := (p.size % 18446744073709551616).toNat

/-- The `OnInsertion` hook: mapping keys are skipped by key, other values are stat'ed as
paths and their size added. -/
def onInsertion (p : Provider) (key value : Bytes) : Provider :=
  if isMapping key then p
  else match p.fs.stat value with
    | some n => { p with actualSize := p.actualSize + n }
    | none => p

/-- The `OnEviction` hook: mapping records are skipped by value, other values are stat'ed
as paths, their size subtracted, and the file removed (`onEvict`). -/
def onEviction (p : Provider) (value : Bytes) : Provider :=
  if isMapping value then p
  else match p.fs.stat value with
    | some n => { p with actualSize := p.actualSize - n, fs := p.fs.remove value }
    | none => p

/-- Whether the eviction hook, handed `value`, may remove the file `f`. -/
def mayRemove (value f : Bytes) : Bool := !isMapping value && Fs.mayAlias value f

theorem resolve_ne_of_mayRemove {value f : Bytes} (h : mayRemove value f = false)
    (hm : isMapping value = false) : Fs.resolve value ≠ f :=
  Fs.resolve_ne_of_mayAlias (by simpa [mayRemove, hm] using h)

/-- The hook a notification goes to. -/
def notify (p : Provider) : Event → Provider
  | .insertion key value => p.onInsertion key value
  | .eviction _ value => p.onEviction value

/-- Install an index and run the hooks on the notifications its update fired, in order and
before anything else moves: ttlcache starts each hook on a goroutine of its own, and the
model covers the schedules in which every hook finishes before the next operation. -/
def apply (p : Provider) (r : Index × List Event) : Provider :=
  r.2.foldl notify { p with index := r.1 }

/-! ## The hooks touch only `actualSize` and the files -/

theorem notify_eq (p : Provider) (e : Event) :
    p.notify e = { p with actualSize := (p.notify e).actualSize, fs := (p.notify e).fs } := by
  cases e <;> simp only [notify, onInsertion, onEviction] <;> split <;> (try split) <;> rfl

theorem foldl_notify_eq (evs : List Event) (p : Provider) : evs.foldl notify p =
    { p with actualSize := (evs.foldl notify p).actualSize, fs := (evs.foldl notify p).fs } := by
  induction evs generalizing p with
  | nil => rfl
  | cons e evs ih => rw [List.foldl_cons, ih, notify_eq p e]

section Frame
variable (p : Provider) (r : Index × List Event)
@[simp] theorem apply_index : (p.apply r).index = r.1 := by rw [apply, foldl_notify_eq]
@[simp] theorem apply_now : (p.apply r).now = p.now := by rw [apply, foldl_notify_eq]
@[simp] theorem apply_path : (p.apply r).path = p.path := by rw [apply, foldl_notify_eq]
@[simp] theorem apply_compression : (p.apply r).compression = p.compression := by
  rw [apply, foldl_notify_eq]
@[simp] theorem apply_size : (p.apply r).size = p.size := by rw [apply, foldl_notify_eq]
@[simp] theorem apply_directorySize : (p.apply r).directorySize = p.directorySize := by
  rw [apply, foldl_notify_eq]
@[simp] theorem apply_stale : (p.apply r).stale = p.stale := by rw [apply, foldl_notify_eq]
end Frame

@[simp] theorem apply_nil (p : Provider) : p.apply (p.index, []) = p := rfl

theorem foldl_notify_lookup (evs : List Event) (p : Provider) (path : Bytes)
    (h : ∀ k v, Event.eviction k v ∈ evs → isMapping v = false → Fs.resolve v ≠ path) :
    (evs.foldl notify p).fs.lookup path = p.fs.lookup path := by
  induction evs generalizing p with
  | nil => rfl
  | cons e evs ih =>
    rw [List.foldl_cons, ih _ fun k v hk => h k v (List.mem_cons_of_mem _ hk)]
    cases e with
    | insertion => simp only [notify, onInsertion]; split <;> (try split) <;> rfl
    | eviction k v =>
      simp only [notify, onEviction]
      split
      · rfl
      · have hv := h k v (List.mem_cons_self _ _) (Bool.eq_false_iff.mpr ‹_›)
        split <;> simp [Fs.lookup_remove_ne (Ne.symm hv)]

/-- Two states with the same settings and the same clock: what every operation but the
clock's own keeps. -/
structure Fixed (p q : Provider) : Prop where
  path : q.path = p.path
  compression : q.compression = p.compression
  size : q.size = p.size
  directorySize : q.directorySize = p.directorySize
  stale : q.stale = p.stale
  now : q.now = p.now

theorem Fixed.refl (p : Provider) : Fixed p p := ⟨rfl, rfl, rfl, rfl, rfl, rfl⟩

theorem Fixed.trans {p q r : Provider} (h₁ : Fixed p q) (h₂ : Fixed q r) : Fixed p r :=
  ⟨h₂.path.trans h₁.path, h₂.compression.trans h₁.compression, h₂.size.trans h₁.size,
    h₂.directorySize.trans h₁.directorySize, h₂.stale.trans h₁.stale, h₂.now.trans h₁.now⟩

theorem fixed_apply (p : Provider) (r : Index × List Event) : Fixed p (p.apply r) := by
  constructor <;> simp

/-- `provider.cache.Get`. -/
def getIndex (p : Provider) (key : Bytes) : Option Entry × Provider :=
  ((p.index.get p.now key).1, { p with index := (p.index.get p.now key).2 })

/-- `provider.cache.Set`. -/
def setIndex (p : Provider) (key value : Bytes) (ttl : Int) : Provider :=
  p.apply (p.index.set p.now p.capacity key value ttl)

/-- `Delete`, i.e. `provider.cache.Delete`. -/
def delete (p : Provider) (key : Bytes) : Provider := p.apply (p.index.delete key)

/-- `Set`: the value goes into the index as it is; the call always returns nil. -/
def set (p : Provider) (key value : Bytes) (duration : Int) : Provider := p.setIndex key value duration

/-- The decoding `Get` applies to file contents for the configured method; `none` is Go's nil. -/
def decode (env : Env) (compression b : Bytes) : Option Bytes :=
  if compression = utf8 "lz4" then (env.lz4Read b).toOption
  else if compression = utf8 "zstd" then (env.zstdRead b).toOption
  else if compression = [] then some b
  else none

/-- `Get`: a miss is nil; a failed file read returns the stored value itself. -/
def get (env : Env) (p : Provider) (key : Bytes) : Option Bytes × Provider :=
  match p.getIndex key with
  | (some e, p') =>
    match p.fs.readFile e.value with
    | some b => (decode env p.compression b, p')
    | none => (some e.value, p')
  | (none, p') => (none, p')

theorem get_snd (env : Env) (p : Provider) (key : Bytes) : (p.get env key).2 = (p.getIndex key).2 := by
  unfold get
  split
  · rename_i h; split <;> simp [h]
  · rename_i h; simp [h]

theorem get_of_live {env : Env} {p : Provider} {key b : Bytes} {e : Entry} (hl : p.index.lookup key = some e)
    (hlive : e.isExpired p.now = false) (hf : p.fs.readFile e.value = some b) :
    (p.get env key).1 = decode env p.compression b := by
  have hg : (p.index.get p.now key).1 = some (e.touch p.now) := by simp [Index.get_fst, hl, hlive]
  have hf' : p.fs.readFile (e.touch p.now).value = some b := by rw [Entry.touch_value, hf]
  simp only [get, getIndex, hg, hf']

/-- `core.MappingKeyPrefix + key`. -/
def mappingKey (key : Bytes) : Bytes := mappingKeyPrefix ++ key

/-- `GetMultiLevel`, with `core.MappingElection` as `elect`, which receives the mapping
record's bytes and may read the provider. -/
def getMultiLevel {ρ : Type} (elect : Bytes → Provider → (Option ρ × Option ρ) × Provider)
    (p : Provider) (key : Bytes) : (Option ρ × Option ρ) × Provider :=
  match p.getIndex (mappingKey key) with
  | (some e, p') => elect e.value p'
  | (none, p') => ((none, none), p')

/-- `DeleteMany`. An invalid pattern does nothing. `Cache.Range` moves on with
`item.Next()`, which is nil once the visitor has deleted that item, so the walk stops after
the first match; when that deletion empties the index, the loop condition calls `Next` on
the nil `lru.Back()` and panics (`none`). -/
def deleteMany (env : Env) (p : Provider) (pattern : Bytes) : Option Provider :=
  match env.regexpCompile pattern with
  | none => some p
  | some m =>
    match p.index.firstLive p.now m with
    | none => some p
    | some i => if (p.delete i.1).index.entries = [] then none else some (p.delete i.1)

theorem deleteMany_spec {env : Env} {p q : Provider} {pattern : Bytes}
    (h : p.deleteMany env pattern = some q) :
    q = p ∨ ∃ m i, env.regexpCompile pattern = some m ∧ p.index.firstLive p.now m = some i ∧
      q = p.delete i.1 := by
  unfold deleteMany at h
  split at h
  · cases h; exact .inl rfl
  · rename_i m hm
    split at h
    · cases h; exact .inl rfl
    · rename_i i hi
      split at h
      · cases h
      · cases h; exact .inr ⟨m, i, hm, hi, rfl⟩

/-- `Reset`: `DeleteAll`, whose evictions reach the hook like any other. -/
def reset (p : Provider) : Provider := p.apply p.index.deleteAll

/-- One run of the background `Cache.Start` loop: `DeleteExpired`. -/
def sweep (p : Provider) : Provider := p.apply (p.index.deleteExpired p.now)

def listKeys (p : Provider) : List Bytes := p.index.keys p.now

/-- `MapKeys`: the live keys with the prefix, cut off, and their values. -/
def mapKeys (p : Provider) (pre : Bytes) : List (Bytes × Bytes) :=
  (p.index.entries.filter fun i => !i.2.isExpired p.now && hasPrefix i.1 pre).map
    fun i => (i.1.drop pre.length, i.2.value)

/-- `MapKeys(prefix)` holds one pair per key, as Go's map does: the live keys with the prefix,
cut off, each with its value. -/
theorem mapKeys_spec (p : Provider) (pre : Bytes) :
    ((p.mapKeys pre).map Prod.fst).Nodup ∧ ∀ x v, (x, v) ∈ p.mapKeys pre ↔
      ∃ e, p.index.lookup (pre ++ x) = some e ∧ e.isExpired p.now = false ∧ e.value = v := by
  have hcut : ∀ {k : Bytes}, hasPrefix k pre = true → pre ++ k.drop pre.length = k := fun h =>
    List.prefix_iff_eq_append.mp (by simpa [hasPrefix] using h)
  constructor
  · simp only [mapKeys, List.map_map]
    have hnd : (p.index.entries.filter fun i => !i.2.isExpired p.now && hasPrefix i.1 pre).NodupKeys :=
      p.index.nodupKeys.sublist (List.filter_sublist _)
    refine List.Nodup.map_on (fun i hi j hj hij => hnd.eq_of_fst_eq hi hj ?_) hnd.nodup
    simp only [List.mem_filter, Bool.and_eq_true] at hi hj
    rw [← hcut hi.2.2, ← hcut hj.2.2]
    exact congrArg (pre ++ ·) hij
  · intro x v
    simp only [mapKeys, List.mem_map, List.mem_filter, Prod.mk.injEq, Bool.and_eq_true, Bool.not_eq_true']
    constructor
    · rintro ⟨i, ⟨hi, hlive, hpre⟩, rfl, rfl⟩
      exact ⟨i.2, by rw [hcut hpre]; exact AList.mem_lookup_iff.mpr hi, hlive, rfl⟩
    · rintro ⟨e, he, hlive, rfl⟩
      exact ⟨⟨pre ++ x, e⟩, ⟨AList.mem_lookup_iff.mp he, hlive, by simp [hasPrefix]⟩, by simp, rfl⟩

def name : Bytes := utf8 "SIMPLEFS"

/-- `Uuid`: `fmt.Sprintf("%s-%d", path, size)`. -/
def uuid (p : Provider) : Bytes := p.path ++ utf8 "-" ++ utf8 (toString p.size)

/-- `Init` after attaching the hooks: every regular file directly inside the storage
directory is added to `actualSize`. -/
def init (p : Provider) : Provider := { p with actualSize := p.actualSize + p.fs.dirSize p.path }

/-- `Factory` on already decoded settings: an empty path falls back to the working
directory `cwd`, the compression name is lower-cased, the index starts empty. -/
def factory (path cwd : Bytes) (size directorySize : Int) (compression : Bytes) (stale : Int)
    (fs : Fs) (now : Int) : Provider :=
  { index := ∅, stale, size, path := if path = [] then cwd else path, actualSize := 0,
    directorySize, compression := toLower compression, fs, now }

end Provider

end Simplefs
