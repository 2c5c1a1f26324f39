import Mathlib.Data.Nat.Digits
import Mathlib.Data.Rat.Floor
import Simplefs.Coherence
import Simplefs.Quota

/-! # Factory and its configuration

`Factory` reads `size`, `directory_size`, `path` and `compression` by the dynamic type of
each value, dropping the parsers' errors. The budget is off exactly when `directory_size`
gives no number in `[0, 2^63)` (`no_budget_iff`), and `Uuid` tells providers apart
(`uuid_injective`).
-/
namespace Simplefs

/-! ## Go's integer conversions -/

/-- A decimal digit, `'0'` to `'9'`. -/
def isDigit (c : UInt8) : Bool := 48 ≤ c && c ≤ 57

/-- The sign `strconv.ParseInt` strips: `-` negates, `+` does not. -/
def splitSign : Bytes → Bool × Bytes
  | 45 :: t => (true, t)
  | 43 :: t => (false, t)
  | t => (false, t)

/-- The value of a string of decimal digits. -/
def digitsValue (ds : Bytes) : Int := ds.foldl (fun n c => 10 * n + (c.toNat - 48 : Nat)) 0

/-- `strconv.Atoi` on 64-bit `int`, its error dropped as `Factory` drops it: an optional
sign and at least one decimal digit give their value, clamped to `int` on a range error;
any other string is a syntax error, and `Atoi` then returns `0`. The fast path for short
strings and the `ParseInt` path agree on all of this. -/
def atoi (s : Bytes) : Int :=
  match splitSign s with
  | (neg, ds) =>
    if ds ≠ [] ∧ ds.all isDigit = true then
      max (-9223372036854775808) (min 9223372036854775807 (if neg then -digitsValue ds else digitsValue ds))
    else 0

/-- `int(val)` and `int64(val)` on a positive `float64` (its exact value): truncation. Go
leaves a value past the `int64` range to the implementation; amd64 gives the least `int64`. -/
def truncFloat64 (v : ℚ) : Int := if v < 9223372036854775808 then v.floor else -9223372036854775808

/-- `int64(s)` on a `uint64`: its two's complement reading. -/
def int64OfUInt64 (s : UInt64) : Int :=
  if s.toNat < 9223372036854775808 then s.toNat else s.toNat - 18446744073709551616

/-! ## `Atoi` reads decimal numerals -/

/-- The byte of the decimal digit `d`. -/
def digitByte (d : Nat) : UInt8 := UInt8.ofNat (48 + d)

/-- The decimal numeral of `n`, most significant digit first; `0` has no digits. -/
def decimal (n : Nat) : Bytes := (Nat.digits 10 n).reverse.map digitByte

theorem isDigit_digitByte {d : Nat} (h : d < 10) : isDigit (digitByte d) = true := by
  interval_cases d <;> rfl

theorem digitByte_toNat {d : Nat} (h : d < 10) : (digitByte d).toNat - 48 = d := by
  interval_cases d <;> rfl

theorem digitsValue_append_singleton (ds : Bytes) (c : UInt8) :
    digitsValue (ds ++ [c]) = 10 * digitsValue ds + (c.toNat - 48 : Nat) := by
  simp only [digitsValue, List.foldl_append, List.foldl_cons, List.foldl_nil]

theorem digitsValue_digits : ∀ {ds : List Nat}, (∀ d ∈ ds, d < 10) →
    digitsValue (ds.reverse.map digitByte) = ((Nat.ofDigits 10 ds : ℕ) : ℤ)
  | [], _ => rfl
  | d :: ds, h => by
    rw [List.reverse_cons, List.map_append, List.map_singleton, digitsValue_append_singleton,
      digitsValue_digits fun d hd => h d (List.mem_cons_of_mem _ hd),
      digitByte_toNat (h d (List.mem_cons_self _ _)), Nat.ofDigits_cons]
    push_cast
    ring

theorem all_isDigit_decimal (n : Nat) : (decimal n).all isDigit = true :=
  List.all_eq_true.mpr fun c hc => by
    obtain ⟨d, hd, rfl⟩ := List.mem_map.mp hc
    exact isDigit_digitByte (Nat.digits_lt_base (by norm_num) (List.mem_reverse.mp hd))

theorem digitsValue_decimal (n : Nat) : digitsValue (decimal n) = n := by
  rw [decimal, digitsValue_digits fun d hd => Nat.digits_lt_base (by norm_num) hd, Nat.ofDigits_digits]

theorem decimal_eq_nil_iff {n : Nat} : decimal n = [] ↔ n = 0 := by
  simp [decimal, Nat.digits_eq_nil_iff_eq_zero]

theorem splitSign_of_isDigit {c : UInt8} {t : Bytes} (h : isDigit c = true) : splitSign (c :: t) = (false, c :: t) := by
  have hc : c ≠ 45 ∧ c ≠ 43 := by
    simp only [isDigit, Bool.and_eq_true, decide_eq_true_eq] at h
    constructor <;> rintro rfl <;> simp at h
  unfold splitSign
  split <;> simp_all

/-- `Atoi` reads the decimal numeral of every `n`, and `-` followed by it, as `n` and `-n`,
clamped to the 64-bit `int` range. -/
theorem atoi_decimal (n : Nat) :
    atoi (decimal n) = min (n : ℤ) 9223372036854775807 ∧ atoi (45 :: decimal n) = max (-(n : ℤ)) (-9223372036854775808) := by
  rcases Nat.eq_zero_or_pos n with rfl | hn
  · simp [decimal, atoi, splitSign]
  have hne : decimal n ≠ [] := fun h => hn.ne' (decimal_eq_nil_iff.mp h)
  have hsign : splitSign (decimal n) = (false, decimal n) := by
    obtain ⟨c, t, hct⟩ := List.exists_cons_of_ne_nil hne
    rw [hct] at hne ⊢
    exact splitSign_of_isDigit (List.all_eq_true.mp (hct ▸ all_isDigit_decimal n) c (List.mem_cons_self _ _))
  have hwf : decimal n ≠ [] ∧ (decimal n).all isDigit = true := ⟨hne, all_isDigit_decimal n⟩
  constructor
  · simp only [atoi, hsign, if_pos hwf, digitsValue_decimal, if_false, Bool.false_eq_true]
    omega
  · simp only [atoi, splitSign, if_pos hwf, digitsValue_decimal, if_true]
    omega

/-! ## `Uuid` tells providers apart -/

theorem toDigitsCore_ten : ∀ (fuel n : Nat) (ds : List Char), 0 < n → n < fuel →
    Nat.toDigitsCore 10 fuel n ds = (Nat.digits 10 n).reverse.map Nat.digitChar ++ ds
  | 0, _, _, _, h => absurd h (Nat.not_lt_zero _)
  | fuel + 1, n, ds, hn, hf => by
    rw [Nat.toDigitsCore]
    split
    · have hlt : n < 10 := by omega
      rw [Nat.digits_of_lt 10 n hn.ne' hlt, Nat.mod_eq_of_lt hlt]
      rfl
    · rw [toDigitsCore_ten fuel (n / 10) _ (by omega) (by omega), Nat.digits_def' (by norm_num) hn]
      simp

theorem utf8EncodeChar_digitChar {d : Nat} (h : d < 10) : String.utf8EncodeChar (Nat.digitChar d) = [digitByte d] := by
  interval_cases d <;> rfl

theorem flatMap_digitChar : ∀ {l : List Nat}, (∀ d ∈ l, d < 10) →
    (l.map Nat.digitChar).flatMap String.utf8EncodeChar = l.map digitByte
  | [], _ => rfl
  | d :: l, h => by
    rw [List.map_cons, List.flatMap_cons, utf8EncodeChar_digitChar (h d (List.mem_cons_self _ _)),
      flatMap_digitChar fun d hd => h d (List.mem_cons_of_mem _ hd)]
    rfl

theorem utf8_toString_natCast (n : Nat) : utf8 (toString (n : Int)) = if n = 0 then [48] else decimal n := by
  split
  · subst n; rfl
  · rename_i hn
    show (Nat.toDigits 10 n).flatMap String.utf8EncodeChar = decimal n
    rw [Nat.toDigits, toDigitsCore_ten _ _ _ (Nat.pos_of_ne_zero hn) (Nat.lt_succ_self n), List.append_nil,
      flatMap_digitChar fun d hd => Nat.digits_lt_base (by norm_num) (List.mem_reverse.mp hd), decimal]

theorem numeral_spec (n : Nat) :
    45 ∉ utf8 (toString (n : Int)) ∧ digitsValue (utf8 (toString (n : Int))) = n := by
  rw [utf8_toString_natCast]
  split
  · subst n; exact ⟨by decide, rfl⟩
  · refine ⟨fun h => ?_, digitsValue_decimal n⟩
    have := List.all_eq_true.mp (all_isDigit_decimal n) 45 h
    exact absurd this (by decide)

theorem append_cons_cancel {α : Type} {x : α} :
    ∀ {a a' b b' : List α}, x ∉ a → x ∉ a' → a ++ x :: b = a' ++ x :: b' → a = a' ∧ b = b'
  | [], [], _, _, _, _, h => ⟨rfl, (List.cons.inj h).2⟩
  | [], y :: _, _, _, _, h', h => absurd (List.mem_cons.mpr (.inl (List.cons.inj h).1)) h'
  | y :: _, [], _, _, h, _, h' => absurd (List.mem_cons.mpr (.inl (List.cons.inj h').1.symm)) h
  | y :: a, y' :: a', _, _, h, h', he => by
    obtain ⟨rfl, htail⟩ := List.cons.inj he
    obtain ⟨rfl, rfl⟩ := append_cons_cancel (fun hm => h (List.mem_cons_of_mem _ hm))
      (fun hm => h' (List.mem_cons_of_mem _ hm)) htail
    exact ⟨rfl, rfl⟩

/-- `Uuid` identifies a provider by its path and size: two providers with non-negative sizes
have the same `Uuid` only when they have the same path and the same size. The numeral
after the last `-` is the size, whatever `-` the path holds. -/
theorem uuid_injective {p q : Provider} (hp : 0 ≤ p.size) (hq : 0 ≤ q.size) (h : p.uuid = q.uuid) :
    p.path = q.path ∧ p.size = q.size := by
  obtain ⟨m, hm⟩ := Int.eq_ofNat_of_zero_le hp
  obtain ⟨n, hn⟩ := Int.eq_ofNat_of_zero_le hq
  have hrev : ∀ (l r : Bytes), (l ++ 45 :: r).reverse = r.reverse ++ 45 :: l.reverse := fun l r => by simp
  have h₀ : p.path ++ 45 :: utf8 (toString p.size) = q.path ++ 45 :: utf8 (toString q.size) := by
    simpa only [Provider.uuid, List.append_assoc] using h
  have h' : (utf8 (toString (m : Int))).reverse ++ 45 :: p.path.reverse =
      (utf8 (toString (n : Int))).reverse ++ 45 :: q.path.reverse := by
    rw [← hrev, ← hrev, ← hm, ← hn]
    exact congrArg List.reverse h₀
  obtain ⟨hnum, hpath⟩ := append_cons_cancel (fun hc => (numeral_spec m).1 (List.mem_reverse.mp hc))
    (fun hc => (numeral_spec n).1 (List.mem_reverse.mp hc)) h'
  refine ⟨List.reverse_injective hpath, ?_⟩
  have hmn := congrArg digitsValue (List.reverse_injective hnum)
  rw [(numeral_spec m).2, (numeral_spec n).2] at hmn
  rw [hm, hn, hmn]

/-- Two providers on `/c` with size `5`. -/
theorem same_uuid_same_settings :
    (0 : Int) ≤ (Provider.factory (utf8 "/c") [] 5 (-1) [] 0 ∅ 0).size ∧
      (0 : Int) ≤ (Provider.factory (utf8 "/c") [] 5 100 (utf8 "lz4") 0 ∅ 0).size ∧
      (Provider.factory (utf8 "/c") [] 5 (-1) [] 0 ∅ 0).uuid = (Provider.factory (utf8 "/c") [] 5 100 (utf8 "lz4") 0 ∅ 0).uuid ∧
      ((Provider.factory (utf8 "/c") [] 5 (-1) [] 0 ∅ 0).path = (Provider.factory (utf8 "/c") [] 5 100 (utf8 "lz4") 0 ∅ 0).path ∧
        (Provider.factory (utf8 "/c") [] 5 (-1) [] 0 ∅ 0).size = (Provider.factory (utf8 "/c") [] 5 100 (utf8 "lz4") 0 ∅ 0).size) :=
  have hp : (0 : Int) ≤ (Provider.factory (utf8 "/c") [] 5 (-1) [] 0 ∅ 0).size := by decide
  have hq : (0 : Int) ≤ (Provider.factory (utf8 "/c") [] 5 100 (utf8 "lz4") 0 ∅ 0).size := by decide
  have h : (Provider.factory (utf8 "/c") [] 5 (-1) [] 0 ∅ 0).uuid =
      (Provider.factory (utf8 "/c") [] 5 100 (utf8 "lz4") 0 ∅ 0).uuid := rfl
  ⟨hp, hq, h, uuid_injective hp hq h⟩

/-- With a negative size, which a size string such as `"-2"` gives, two providers on
different paths share a `Uuid`: `/c-1--2`. -/
example : (Provider.factory (utf8 "/c-1") [] (-2) (-1) [] 0 ∅ 0).uuid =
    (Provider.factory (utf8 "/c-1-") [] 2 (-1) [] 0 ∅ 0).uuid ∧ utf8 "/c-1" ≠ utf8 "/c-1-" := by
  decide

/-! ## The configuration -/

/-- A value of the configuration map, by the dynamic type `Factory`'s type assertions test;
a `float64` by its exact value. -/
inductive ConfigValue where
  | nil
  | int (v : Int)
  | int64 (v : Int)
  | float64 (v : ℚ)
  | string (s : Bytes)
  | other

/-- `Configuration`, an `interface{}`: nil, a `map[string]interface{}` (a key it lacks
reads as `none`), or a value of another type. -/
inductive Configuration where
  | nil
  | map (m : String → Option ConfigValue)
  | other

/-- The fields of `core.CacheProvider` that `Factory` reads. -/
structure CacheProvider where
  path : Bytes
  configuration : Configuration

/-- The settings `Factory` decodes. -/
structure Settings where
  storagePath : Bytes
  size : Int
  directorySize : Int
  compression : Bytes

/-- The `size` entry: a positive `int`, a positive `float64` truncated, or any string
through `strconv.Atoi`; the default `0` otherwise. -/
def decodeSize : Option ConfigValue → Int
  | some (.int val) => if 0 < val then val else 0
  | some (.float64 val) => if 0 < val then truncFloat64 val else 0
  | some (.string val) => atoi val
  | _ => 0

/-- The `directory_size` entry: a positive `int64`, a positive `float64` truncated, or a
non-empty string through `humanize.ParseBytes` (whose error reads as `0`) taken as `int64`;
the default `-1`, no budget, otherwise. -/
def decodeDirectorySize (parseBytes : Bytes → UInt64) : Option ConfigValue → Int
  | some (.int64 val) => if 0 < val then val else -1
  | some (.float64 val) => if 0 < val then truncFloat64 val else -1
  | some (.string val) => if val ≠ [] then int64OfUInt64 (parseBytes val) else -1
  | _ => -1

/-- The `path` entry: a string replaces the provider's `Path`. -/
def decodePath (path : Bytes) : Option ConfigValue → Bytes
  | some (.string val) => val
  | _ => path

/-- The `compression` entry: a string, lower-cased; `""` otherwise. -/
def decodeCompression : Option ConfigValue → Bytes
  | some (.string val) => toLower val
  | _ => []

/-- The decoding part of `Factory`: each entry of a configuration map read on its own, the
defaults for any other configuration. -/
def decodeConfiguration (parseBytes : Bytes → UInt64) (cfg : CacheProvider) : Settings :=
  match cfg.configuration with
  | .map m => ⟨decodePath cfg.path (m "path"), decodeSize (m "size"),
      decodeDirectorySize parseBytes (m "directory_size"), decodeCompression (m "compression")⟩
  | _ => ⟨cfg.path, 0, -1, []⟩

/-! ## The budget -/

/-- The `directory_size` entries that set a budget, read off `Factory`'s conditions: a
positive `int64`, a positive `float64` below `2^63`, or a non-empty string that `ParseBytes`
reads as fewer than `2^63` bytes. -/
def setsBudget (parseBytes : Bytes → UInt64) : Option ConfigValue → Bool
  | some (.int64 val) => 0 < val
  | some (.float64 val) => 0 < val && val < 9223372036854775808
  | some (.string val) => val ≠ [] && (parseBytes val).toNat < 9223372036854775808
  | _ => false

theorem truncFloat64_nonneg_iff {v : ℚ} (h : 0 < v) : 0 ≤ truncFloat64 v ↔ v < 9223372036854775808 := by
  unfold truncFloat64
  split
  · exact iff_of_true (Rat.le_floor.mpr (by simpa using h.le)) ‹_›
  · exact iff_of_false (by norm_num) ‹_›

theorem int64OfUInt64_nonneg_iff (s : UInt64) : 0 ≤ int64OfUInt64 s ↔ s.toNat < 9223372036854775808 := by
  have hs : s.toNat < 18446744073709551616 := s.val.isLt
  unfold int64OfUInt64
  split <;> omega

theorem decodeDirectorySize_nonneg_iff (parseBytes : Bytes → UInt64) (v : Option ConfigValue) :
    0 ≤ decodeDirectorySize parseBytes v ↔ setsBudget parseBytes v = true := by
  rcases v with _ | (_ | val | val | val | val | _)
  case some.int64 =>
    simp only [decodeDirectorySize, setsBudget, decide_eq_true_eq]
    split <;> omega
  case some.float64 =>
    simp only [decodeDirectorySize, setsBudget, Bool.and_eq_true, decide_eq_true_eq]
    split
    · rw [truncFloat64_nonneg_iff ‹_›]
      exact ⟨fun h => ⟨‹_›, h⟩, And.right⟩
    · exact iff_of_false (by norm_num) fun h => ‹¬_› h.1
  case some.string =>
    by_cases hv : val = []
    · simp [decodeDirectorySize, setsBudget, hv]
    · simp only [decodeDirectorySize, setsBudget, ne_eq, hv, not_false_eq_true, ↓reduceIte,
        int64OfUInt64_nonneg_iff, decide_True, Bool.true_and, decide_eq_true_eq]
  all_goals simp [decodeDirectorySize, setsBudget]

theorem directorySize_neg_iff (parseBytes : Bytes → UInt64) (cfg : CacheProvider) :
    (decodeConfiguration parseBytes cfg).directorySize < 0 ↔
      ∀ m, cfg.configuration = .map m → setsBudget parseBytes (m "directory_size") = false := by
  unfold decodeConfiguration
  split
  · rename_i m hm
    simp only [hm, Configuration.map.injEq, forall_eq', ← Bool.not_eq_true, ← decodeDirectorySize_nonneg_iff]
    omega
  · rename_i hnm
    exact iff_of_true (by norm_num) fun m hm => absurd hm (hnm m)

theorem run_directorySize {env : Env} {p q : Provider} {ops : List Op} (h : Run (Provider.Step env) p ops q) :
    q.directorySize = p.directorySize :=
  h.inv (fun s => s.directorySize = p.directorySize) (fun _ _ _ hs ⟨_, ht⟩ => (Provider.exec_settings ht).2.1.trans hs) rfl

theorem recover_of_no_budget {q : Provider} (h : q.directorySize < 0) (fuel : Nat) (size : Int) :
    q.recoverEnoughSpaceIfNeeded (fuel + 1) size = some q := by
  rw [Provider.recoverEnoughSpaceIfNeeded, if_neg]
  simp only [Provider.overBudget, Bool.and_eq_true, decide_eq_true_eq, not_and]
  omega

theorem Fs.dirSize_nonneg (fs : Fs) (root : Bytes) : 0 ≤ fs.dirSize root := by
  unfold Fs.dirSize
  induction fs.entries.filter fun f => Fs.inDir root f.1 with
  | nil => exact le_refl _
  | cons i l ih =>
    simp only [List.map_cons, List.foldr_cons]
    omega

theorem Provider.setMultiLevel_of_recover_none {env : Env} {fuel : Nat} {q : Provider} {a : Variant} {data : Bytes}
    (hc : compress env q.compression a.value = .ok data) (hr : q.recoverEnoughSpaceIfNeeded fuel data.length = none) :
    q.setMultiLevel env fuel a = none := by
  simp [Provider.setMultiLevel, hc, Provider.writeVariant, hr]

/-- `os.Getwd`, called by `Factory` only for an empty path. -/
def workingDir (getwd : Except Bytes Bytes) (path : Bytes) : Except Bytes Bytes :=
  if path = [] then getwd else .ok []

/-- `Factory`: decode the configuration, fall back to the working directory for an empty path,
create the directory with `os.MkdirAll`, and return either call's error as it is.
`ttlcache.New` never returns nil, so that branch is never taken. -/
def factory (parseBytes : Bytes → UInt64) (getwd : Except Bytes Bytes) (mkdirAll : Bytes → Option Bytes)
    (cfg : CacheProvider) (stale : Int) (fs : Fs) (now : Int) : Except Bytes Provider :=
  let st := decodeConfiguration parseBytes cfg
  match workingDir getwd st.storagePath with
  | .error err => .error err
  | .ok cwd =>
    let p := Provider.factory st.storagePath cwd st.size st.directorySize st.compression stale fs now
    match mkdirAll p.path with
    | some err => .error err
    | none => .ok p

/-- A configuration map with the single entry `key`, on the path `/c`. -/
def oneEntry (key : String) (v : ConfigValue) : CacheProvider :=
  ⟨utf8 "/c", .map fun k => if k = key then some v else none⟩

section Factory

variable {parseBytes : Bytes → UInt64} {getwd : Except Bytes Bytes} {mkdirAll : Bytes → Option Bytes}
  {cfg : CacheProvider} {stale : Int} {fs : Fs} {now : Int} {p : Provider}

theorem factory_spec (h : factory parseBytes getwd mkdirAll cfg stale fs now = .ok p) :
    ∃ cwd, p = Provider.factory (decodeConfiguration parseBytes cfg).storagePath cwd
      (decodeConfiguration parseBytes cfg).size (decodeConfiguration parseBytes cfg).directorySize
      (decodeConfiguration parseBytes cfg).compression stale fs now ∧ mkdirAll p.path = none := by
  unfold factory at h
  dsimp only at h
  split at h
  · cases h
  · rename_i cwd _
    refine ⟨cwd, ?_⟩
    split at h
    · cases h
    · rename_i hmk
      cases h
      exact ⟨rfl, hmk⟩

theorem factory_error {e : Bytes} (h : factory parseBytes getwd mkdirAll cfg stale fs now = .error e) :
    ((decodeConfiguration parseBytes cfg).storagePath = [] ∧ getwd = .error e) ∨ ∃ path, mkdirAll path = some e := by
  unfold factory at h
  dsimp only at h
  split at h
  · rename_i err hw
    cases h
    unfold workingDir at hw
    split at hw
    · exact .inl ⟨‹_›, hw⟩
    · cases hw
  · split at h
    · cases h
      exact .inr ⟨_, ‹_›⟩
    · cases h

theorem directorySize_factory (h : factory parseBytes getwd mkdirAll cfg stale fs now = .ok p) :
    p.directorySize = (decodeConfiguration parseBytes cfg).directorySize := by
  obtain ⟨_, rfl, -⟩ := factory_spec h
  rfl

theorem size_factory (h : factory parseBytes getwd mkdirAll cfg stale fs now = .ok p) :
    p.size = (decodeConfiguration parseBytes cfg).size := by
  obtain ⟨_, rfl, -⟩ := factory_spec h
  rfl

theorem index_factory (h : factory parseBytes getwd mkdirAll cfg stale fs now = .ok p) : p.index = ∅ := by
  obtain ⟨_, rfl, -⟩ := factory_spec h
  rfl

/-- A provider `Factory` builds never reclaims, along every run after `Init` and for every
write size, exactly when `directory_size` sets no budget: it is absent, nil, a Go `int`, a
non-positive `int64` or `float64`, a `float64` from `2^63` on, the empty string, or a string
`ParseBytes` reads as `2^63` bytes or more, whose `int64` is negative. -/
theorem no_budget_iff {env : Env} (h : factory parseBytes getwd mkdirAll cfg stale fs now = .ok p) :
    (∀ ops q, Run (Provider.Step env) p.init ops q → ∀ fuel size, q.recoverEnoughSpaceIfNeeded (fuel + 1) size = some q) ↔
      ∀ m, cfg.configuration = .map m → setsBudget parseBytes (m "directory_size") = false := by
  rw [← directorySize_neg_iff, ← directorySize_factory h]
  constructor
  · intro hall
    by_contra hd
    have hover : p.init.overBudget (p.directorySize + 1 - p.init.actualSize) = true := by
      simp only [Provider.overBudget, Provider.init, Bool.and_eq_true, decide_eq_true_eq]
      omega
    have h1 := hall [] p.init (.nil _) 0 (p.directorySize + 1 - p.init.actualSize)
    rw [Provider.recoverEnoughSpaceIfNeeded, if_pos hover] at h1
    cases h1
  · intro hd ops q hrun fuel size
    exact recover_of_no_budget (by rw [run_directorySize hrun]; exact hd) fuel size

/-- `Factory` on the Go `int` budget `100`, with the working directory and `MkdirAll`
succeeding: the budget is ignored. -/
def intBudgetProvider : Provider := Provider.factory (utf8 "/c") [] 0 (-1) [] 0 ∅ 0

theorem int_budget_ignored :
    factory (fun _ => 0) (.ok []) (fun _ => none) (oneEntry "directory_size" (.int 100)) 0 ∅ 0 = .ok intBudgetProvider ∧
      ∀ ops q, Run (Provider.Step Env.reference) intBudgetProvider.init ops q →
        ∀ fuel size, q.recoverEnoughSpaceIfNeeded (fuel + 1) size = some q := by
  have h : factory (fun _ => 0) (.ok []) (fun _ => none) (oneEntry "directory_size" (.int 100)) 0 ∅ 0 =
      .ok intBudgetProvider := rfl
  exact ⟨h, (no_budget_iff h).mpr fun m hm => by cases hm; rfl⟩

/-- A non-empty `directory_size` string that `ParseBytes` rejects reads as a budget of `0`
bytes: after `Init`, the first `SetMultiLevel` whose compressed payload is not empty never
returns, however many rounds its reclamation loop gets. -/
theorem unparsed_budget_hangs {env : Env} {m : String → Option ConfigValue} {s data : Bytes} {a : Variant}
    (h : factory parseBytes getwd mkdirAll cfg stale fs now = .ok p) (hm : cfg.configuration = .map m)
    (hs : m "directory_size" = some (.string s)) (hne : s ≠ []) (hparse : parseBytes s = 0)
    (hc : compress env p.compression a.value = .ok data) (hdata : data ≠ []) :
    ∀ fuel, p.init.setMultiLevel env fuel a = none := by
  have hd : p.directorySize = 0 := by
    rw [directorySize_factory h, decodeConfiguration, hm]
    simp [decodeDirectorySize, hs, hne, hparse, int64OfUInt64]
  have hact : p.actualSize = 0 := by
    obtain ⟨_, rfl, -⟩ := factory_spec h
    rfl
  have hover : p.init.overBudget data.length = true := by
    have h0 := Fs.dirSize_nonneg p.fs p.path
    have hlen : 0 < data.length := List.length_pos.mpr hdata
    simp only [Provider.overBudget, Provider.init, hd, hact, Bool.and_eq_true, decide_eq_true_eq]
    omega
  have hfix : p.init.reclaimOne = p.init :=
    Provider.reclaimOne_eq_self (by simp [Provider.init, index_factory h, Index.lastLive])
  exact fun fuel => Provider.setMultiLevel_of_recover_none hc (Provider.recover_none_of_fixed hfix hover fuel)

def typoBudgetProvider : Provider := Provider.factory (utf8 "/c") [] 0 0 [] 0 ∅ 0

theorem typo_budget_hangs :
    factory (fun _ => 0) (.ok []) (fun _ => none) (oneEntry "directory_size" (.string (utf8 "ten"))) 0 ∅ 0 =
        .ok typoBudgetProvider ∧
      ∀ fuel, typoBudgetProvider.init.setMultiLevel Env.reference fuel ⟨utf8 "b", utf8 "k", utf8 "a", [], [], 10000000000, []⟩ =
        none := by
  have h : factory (fun _ => 0) (.ok []) (fun _ => none) (oneEntry "directory_size" (.string (utf8 "ten"))) 0 ∅ 0 =
      .ok typoBudgetProvider := rfl
  exact ⟨h, unparsed_budget_hangs h rfl rfl (by decide) rfl rfl (by decide)⟩

/-- A size given as a positive Go `int` `n`, as a `float64` in `[n, n + 1)`, or as the
decimal numeral of `n` bounds the index at `n` entries, for every `n` below `2^63`. -/
theorem size_forms_capacity {m : String → Option ConfigValue} {n : Nat}
    (h : factory parseBytes getwd mkdirAll cfg stale fs now = .ok p) (hm : cfg.configuration = .map m)
    (hn : 0 < n) (hbig : n < 9223372036854775808)
    (hv : m "size" = some (.int n) ∨ (∃ x : ℚ, n ≤ x ∧ x < n + 1 ∧ m "size" = some (.float64 x)) ∨
      m "size" = some (.string (decimal n))) :
    p.capacity = n := by
  have hsize : decodeSize (m "size") = n := by
    rcases hv with hv | ⟨x, hlo, hhi, hv⟩ | hv
    · simp [decodeSize, hv, hn]
    · have hx : (0 : ℚ) < x := lt_of_lt_of_le (by exact_mod_cast hn) hlo
      have hfl : x.floor = n := by
        refine le_antisymm ?_ (Rat.le_floor.mpr (by exact_mod_cast hlo))
        by_contra hlt
        have h1 : ((n + 1 : ℤ) : ℚ) ≤ x := Rat.le_floor.mp (by omega)
        push_cast at h1
        exact absurd hhi (not_lt.mpr h1)
      have hxbig : x < 9223372036854775808 :=
        lt_of_lt_of_le hhi (by exact_mod_cast (show n + 1 ≤ 9223372036854775808 by omega))
      simp [decodeSize, hv, hx, truncFloat64, hxbig, hfl]
    · have hd := (digitsValue_decimal n)
      have hne : decimal n ≠ [] := fun h0 => hn.ne' (decimal_eq_nil_iff.mp h0)
      obtain ⟨c, t, hct⟩ := List.exists_cons_of_ne_nil hne
      have hsign : splitSign (decimal n) = (false, decimal n) := by
        rw [hct]
        exact splitSign_of_isDigit (List.all_eq_true.mp (hct ▸ all_isDigit_decimal n) c (List.mem_cons_self _ _))
      simp only [decodeSize, hv, atoi, hsign, if_pos (And.intro hne (all_isDigit_decimal n)), hd, if_false,
        Bool.false_eq_true]
      omega
  rw [Provider.capacity, size_factory h, decodeConfiguration, hm]
  dsimp only
  rw [hsize]
  omega


/-- A size string `-n`, for `n` up to `2^63`, passes `Atoi` as `-n`, and
`WithCapacity(uint64(-n))` then bounds the index at `2^64 - n` entries: a negative size is
accepted without error and turns the bound off in practice, where a non-positive `int` or
`float64` size means no bound at all. -/
theorem negative_size_wraps {m : String → Option ConfigValue} {n : Nat}
    (h : factory parseBytes getwd mkdirAll cfg stale fs now = .ok p) (hm : cfg.configuration = .map m)
    (hn : 0 < n) (hbig : n ≤ 9223372036854775808) (hv : m "size" = some (.string (45 :: decimal n))) :
    p.capacity = 18446744073709551616 - n := by
  have hne : decimal n ≠ [] := fun h0 => hn.ne' (decimal_eq_nil_iff.mp h0)
  have hsize : decodeSize (m "size") = -(n : Int) := by
    simp only [decodeSize, hv, atoi, splitSign, if_pos (And.intro hne (all_isDigit_decimal n)),
      digitsValue_decimal, if_true]
    omega
  rw [Provider.capacity, size_factory h, decodeConfiguration, hm]
  dsimp only
  rw [hsize]
  omega

def minusOneProvider : Provider := Provider.factory (utf8 "/c") [] (-1) (-1) [] 0 ∅ 0

theorem minus_one_size_unbounded :
    factory (fun _ => 0) (.ok []) (fun _ => none) (oneEntry "size" (.string (utf8 "-1"))) 0 ∅ 0 =
      .ok minusOneProvider ∧ utf8 "-1" = 45 :: decimal 1 ∧ minusOneProvider.capacity = 18446744073709551615 := by
  have h : factory (fun _ => 0) (.ok []) (fun _ => none) (oneEntry "size" (.string (utf8 "-1"))) 0 ∅ 0 =
      .ok minusOneProvider := rfl
  have hd : utf8 "-1" = 45 :: decimal 1 := by simp [decimal, digitByte]; rfl
  exact ⟨h, hd, negative_size_wraps (n := 1) h rfl (by norm_num) (by norm_num) (by rw [← hd]; rfl)⟩

def intSizeProvider : Provider := Provider.factory (utf8 "/c") [] 42 (-1) [] 0 ∅ 0

theorem int_size_bounds :
    factory (fun _ => 0) (.ok []) (fun _ => none) (oneEntry "size" (.int 42)) 0 ∅ 0 = .ok intSizeProvider ∧
      intSizeProvider.capacity = 42 := by
  have h : factory (fun _ => 0) (.ok []) (fun _ => none) (oneEntry "size" (.int 42)) 0 ∅ 0 = .ok intSizeProvider := rfl
  exact ⟨h, size_forms_capacity h rfl (by norm_num) (by norm_num) (.inl rfl)⟩

end Factory

end Simplefs
