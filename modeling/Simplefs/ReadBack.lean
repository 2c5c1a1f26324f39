import Simplefs.Staleness

/-! # Reading back a raw value

`Get` reads every value as a path and falls back to the value itself only when no file has
its name (`get_after_set`). Reads touch the entry they find, so a key read once per TTL never
expires (`reads_keep_alive`), and change nothing else (`reads_keep_store`).
-/
namespace Simplefs.Provider

variable {env : Env} {p : Provider} {key v : Bytes} {d : Int}

/-- What `Get` returns for a hit on an entry holding `value`: `os.ReadFile(value)` decoded
with the configured method, or `value` itself when there is no file at that path. -/
def readValue (env : Env) (p : Provider) (value : Bytes) : Option Bytes :=
  match p.fs.readFile value with
  | some b => decode env p.compression b
  | none => some value

theorem get_fst_eq (env : Env) (p : Provider) (key : Bytes) : (p.get env key).1 =
    (p.index.lookup key).bind fun e => if e.isExpired p.now then none else p.readValue env e.value := by
  unfold get getIndex readValue
  cases hl : p.index.lookup key with
  | none => simp [Index.get_fst, hl]
  | some e =>
    by_cases he : e.isExpired p.now
    · simp [Index.get_fst, hl, he]
    · simp only [Index.get_fst, hl, he, Option.some_bind, Bool.false_eq_true, if_false]
      rw [Entry.touch_value]
      cases p.fs.readFile e.value <;> rfl

theorem set_lookup_self (hd : 0 < d) : (p.set key v d).index.lookup key = some ⟨v, d, p.now + d⟩ := by
  simp only [set, setIndex, apply_index, Index.set]
  split <;> simp [Entry.update_of_pos _ _ _ hd, Entry.create_of_pos _ _ hd]

/-- `k` holds `e`'s value and TTL, and expires no sooner than `dt` from now. -/
def ReadAhead (k : Bytes) (e : Entry) (dt : Nat) (s : Provider) : Prop :=
  ∃ e', s.index.lookup k = some e' ∧ e'.value = e.value ∧ e'.ttl = e.ttl ∧ s.now + dt ≤ e'.expiresAt

theorem ReadAhead.round {k : Bytes} {e : Entry} {dt : Nat} {s t : Provider} (h : ReadAhead k e dt s)
    (hpos : 0 < e.ttl) (hdt : (dt : Int) ≤ e.ttl) (hrun : Run (Step env) s [.tick dt, .sweep, .get k] t) :
    ReadAhead k e dt t ∧ t.now = s.now + dt := by
  rcases hrun with _ | ⟨⟨_, h₁⟩, _ | ⟨⟨_, h₂⟩, _ | ⟨⟨_, h₃⟩, hnil⟩⟩⟩
  cases h₁; cases h₂; cases h₃; cases hnil
  obtain ⟨e', hk, hv, httl, hexp⟩ := h
  have hnow : ((s.tick dt).sweep.get env k).2.now = s.now + dt := by simp [get_snd, getIndex, sweep, tick]
  have hlive : e'.isExpired (s.now + dt) = false := by
    simp only [Entry.isExpired, Bool.and_eq_false_iff, decide_eq_false_iff_not, not_lt]
    omega
  have hswept : (s.tick dt).sweep.index.lookup k = some e' := by
    simp [sweep, Index.lookup_deleteExpired, tick, hk, hlive]
  refine ⟨⟨e'.touch (s.now + dt), ?_, by simp [hv], by simp [httl], ?_⟩, hnow⟩
  · have hsn : (s.tick dt).sweep.now = s.now + dt := by simp [sweep, tick]
    rw [get_snd]
    simp [getIndex, Index.lookup_get, hswept, hsn, hlive]
  · simp only [hnow, Entry.touch, httl, hpos, if_true]
    omega

theorem readAhead_rounds {k : Bytes} {e : Entry} {dt : Nat} (hpos : 0 < e.ttl) (hdt : (dt : Int) ≤ e.ttl) :
    ∀ (n : Nat) {s q : Provider}, ReadAhead k e dt s →
      Run (Step env) s (List.replicate n [.tick dt, .sweep, .get k]).flatten q →
        ReadAhead k e dt q ∧ q.now = s.now + (n * dt : Nat)
  | 0, _, _, h, hrun => by cases hrun; simpa using h
  | n + 1, s, q, h, hrun => by
    obtain ⟨t, h₁, h₂⟩ := Run.split hrun
    obtain ⟨ht, hnow⟩ := h.round hpos hdt h₁
    obtain ⟨hq, hqnow⟩ := readAhead_rounds hpos hdt n ht h₂
    refine ⟨hq, ?_⟩
    rw [hqnow, hnow, Nat.succ_mul, Int.natCast_add]
    omega

/-- A key read at least once every `dt ≤ ttl` never expires: after any number `n` of rounds
of the clock moving `dt`, the sweeper and `Get(k)`, `cache.Get` still finds `k` with its
value, at a time `n · dt` past the first, however far beyond the original expiry. -/
theorem reads_keep_alive {p q : Provider} {k : Bytes} {e : Entry} {dt n : Nat}
    (hk : p.index.lookup k = some e) (hpos : 0 < e.ttl) (hdt : (dt : Int) ≤ e.ttl) (hlive : p.now + dt ≤ e.expiresAt)
    (hrun : Run (Step env) p (List.replicate n [.tick dt, .sweep, .get k]).flatten q) :
    q.now = p.now + (n * dt : Nat) ∧ (q.getIndex k).1.map (·.value) = some e.value := by
  obtain ⟨⟨e', hq, hv, -, hexp⟩, hnow⟩ := readAhead_rounds hpos hdt n ⟨e, hk, rfl, rfl, hlive⟩ hrun
  refine ⟨hnow, ?_⟩
  have hlive' : e'.isExpired q.now = false := by
    simp only [Entry.isExpired, Bool.and_eq_false_iff, decide_eq_false_iff_not, not_lt]
    omega
  simp [getIndex, Index.get_fst, hq, hlive', hv]

/-- `Init` on a directory `/c` that already holds the file `/c/j` with the byte `a`, no
budget, files read raw (the compression name `""`). -/
def readStart : Provider :=
  (factory (utf8 "/c") [] 0 (-1) [] 0 ((∅ : Fs).writeFile (utf8 "/c/j") (utf8 "a")) 0).init

def readTicked : Provider := (readStart.set (utf8 "k") (utf8 "v") 10000000000).tick 5000000000

theorem readStart_tick :
    Run (fun u op u' => Step Env.reference u op u' ∧
      (op.isBackground = true ∨ u'.index.lookup (utf8 "k") = u.index.lookup (utf8 "k")))
      (readStart.set (utf8 "k") (utf8 "v") 10000000000) [.tick 5000000000] readTicked :=
  .cons ⟨⟨0, rfl⟩, .inl rfl⟩ (.nil _)

def readRounds : List Op := (List.replicate 3 [.tick 5000000000, .sweep, .get (utf8 "k")]).flatten

def readKept : Provider :=
  readRounds.foldl (fun s op => (s.exec Env.reference 0 op).getD s) (readStart.set (utf8 "k") (utf8 "v") 10000000000)

/-- Fifteen seconds after `Set("k", "v", 10 s)`, read every five, `Get("k")` still
returns `v`. -/
theorem read_outlives_ttl :
    (readStart.set (utf8 "k") (utf8 "v") 10000000000).index.lookup (utf8 "k") = some ⟨utf8 "v", 10000000000, 10000000000⟩ ∧
      Run (Step Env.reference) (readStart.set (utf8 "k") (utf8 "v") 10000000000) readRounds readKept ∧
      readKept.now = (readStart.set (utf8 "k") (utf8 "v") 10000000000).now + (3 * 5000000000 : Nat) ∧
      (readKept.getIndex (utf8 "k")).1.map (·.value) = some (utf8 "v") ∧
      (readKept.get Env.reference (utf8 "k")).1 = some (utf8 "v") := by
  have hk : (readStart.set (utf8 "k") (utf8 "v") 10000000000).index.lookup (utf8 "k") = some ⟨utf8 "v", 10000000000, 10000000000⟩ :=
    set_lookup_self (by decide)
  have hrun : Run (Step Env.reference) (readStart.set (utf8 "k") (utf8 "v") 10000000000) readRounds readKept :=
    .cons ⟨0, rfl⟩ <| .cons ⟨0, rfl⟩ <| .cons ⟨0, rfl⟩ <| .cons ⟨0, rfl⟩ <| .cons ⟨0, rfl⟩ <|
      .cons ⟨0, rfl⟩ <| .cons ⟨0, rfl⟩ <| .cons ⟨0, rfl⟩ <| .cons ⟨0, rfl⟩ <| .nil _
  have h := reads_keep_alive hk (by decide) (by decide) (by decide) hrun
  exact ⟨hk, hrun, h.1, h.2, by decide⟩

/-- Keys with their entries' values and TTLs. -/
def stored (p : Provider) (k : Bytes) : Option (Bytes × Int) :=
  (p.index.lookup k).map fun e => (e.value, e.ttl)

theorem getIndex_stored (p : Provider) (key : Bytes) :
    (p.getIndex key).2.fs = p.fs ∧ (p.getIndex key).2.stored = p.stored := by
  refine ⟨rfl, funext fun k => ?_⟩
  simp only [stored, getIndex, Index.lookup_get, Option.map_map]
  congr 1
  funext e
  simp only [Function.comp_apply]
  split <;> simp

/-- Reads keep the store: along any run of `Get` and `GetMultiLevel` calls the files are as
they were and every key keeps its value and TTL. An expired entry is a miss but stays, file
and all, until the sweeper runs; only expiry times and the LRU order move. -/
theorem reads_keep_store {p q : Provider} {ops : List Op}
    (hrun : Run (fun s op t => Step env s op t ∧ op.isRead = true) p ops q) :
    q.fs = p.fs ∧ q.stored = p.stored :=
  hrun.inv (fun s => s.fs = p.fs ∧ s.stored = p.stored) (fun s op t hs ⟨⟨_, h⟩, hread⟩ => by
      cases op with
      | get key =>
        cases h
        rw [get_snd]
        exact ⟨(getIndex_stored s key).1.trans hs.1, (getIndex_stored s key).2.trans hs.2⟩
      | getMultiLevel key =>
        cases h
        exact ⟨(getIndex_stored s _).1.trans hs.1, (getIndex_stored s _).2.trans hs.2⟩
      | _ => cases hread)
    ⟨rfl, rfl⟩

/-- `Set("k", "/c/j", 10 s)` on `readStart`, twenty seconds later: `k` has expired. -/
def expiredStart : Provider := (readStart.set (utf8 "k") (utf8 "/c/j") 10000000000).tick 20000000000

def readOps : List Op := [.get (utf8 "k"), .getMultiLevel (utf8 "b")]

def readsEnd : Provider := readOps.foldl (fun s op => (s.exec Env.reference 0 op).getD s) expiredStart

/-- The expired `k` is a miss, yet its entry and the file `/c/j` it names stay. -/
theorem expired_entry_stays :
    Run (fun s op t => Step Env.reference s op t ∧ op.isRead = true) expiredStart readOps readsEnd ∧
      (expiredStart.get Env.reference (utf8 "k")).1 = none ∧
      readsEnd.fs = expiredStart.fs ∧ readsEnd.stored = expiredStart.stored ∧
      readsEnd.stored (utf8 "k") = some (utf8 "/c/j", 10000000000) ∧ readsEnd.fs.lookup (utf8 "/c/j") = some (utf8 "a") := by
  have hrun : Run (fun s op t => Step Env.reference s op t ∧ op.isRead = true) expiredStart readOps readsEnd :=
    @run_of_runChecked_isSome Env.reference 0 (fun _ op => op.isRead) (fun _ op => op.isRead = true)
      (fun _ _ h => h) expiredStart readOps (by decide)
  have h := reads_keep_store hrun
  exact ⟨hrun, by decide, h.1, h.2, by rw [h.2]; decide, by rw [h.1]; decide⟩

/-- LRU: the key a `Get` just found survives the next `cache.Set`, of any key, unless the
capacity is one: the hit moved it to the front of the list, and an eviction takes the back. -/
theorem read_survives_set {k x v : Bytes} {d : Int} (hcap : p.capacity ≠ 1)
    (hhit : (p.getIndex k).1.isSome = true) :
    (((p.getIndex k).2.setIndex x v d).index.lookup k).isSome = true := by
  obtain ⟨e, he, hlive⟩ : ∃ e, p.index.lookup k = some e ∧ e.isExpired p.now = false := by
    simp only [getIndex, Index.get_fst] at hhit
    cases hl : p.index.lookup k with
    | none => simp [hl] at hhit
    | some e => exact ⟨e, rfl, by simpa [hl] using hhit⟩
  simp only [setIndex, apply_index]
  by_cases hx : k = x
  · subst hx
    have hs : (((p.getIndex k).2.index.set (p.getIndex k).2.now (p.getIndex k).2.capacity k v d).1.lookup k).map
        (·.value) = some v := Index.lookup_set_self _ _ _ _ _
    simpa only [Option.isSome_map', Option.isSome_some] using congrArg Option.isSome hs
  · have hhead : (p.getIndex k).2.index.entries.head?.map (·.1) = some k := Index.head_get_hit he hlive
    have hcap' : (p.getIndex k).2.capacity ≠ 1 := hcap
    rw [Index.lookup_set_head hhead hx hcap']
    simp [getIndex, Index.lookup_get, he]

/-- `Init` with room for two entries, then `Set("a")` and `Set("b")`: `a` is least recently used. -/
def twoSlots : Provider :=
  (((factory (utf8 "/c") [] 2 (-1) [] 0 ∅ 0).init.set (utf8 "a") (utf8 "1") 10000000000).set (utf8 "b") (utf8 "2") 10000000000)

/-- Reading `a` saves it from the eviction `Set("c")` makes, which takes `b` instead; without
the read, `a` would go. -/
theorem read_saves_lru :
    twoSlots.capacity ≠ 1 ∧ (twoSlots.getIndex (utf8 "a")).1.isSome = true ∧
      (((twoSlots.getIndex (utf8 "a")).2.setIndex (utf8 "c") (utf8 "3") 10000000000).index.lookup (utf8 "a")).isSome = true ∧
      ((twoSlots.setIndex (utf8 "c") (utf8 "3") 10000000000).index.lookup (utf8 "a")).isSome = false := by
  have hcap : twoSlots.capacity ≠ 1 := by decide
  have hhit : (twoSlots.getIndex (utf8 "a")).1.isSome = true := by decide
  exact ⟨hcap, hhit, read_survives_set hcap hhit, by decide⟩

/-- `ListKeys` lists each key once, and exactly the keys `cache.Get` finds: the live ones,
mapping records included. -/
theorem listKeys_spec (p : Provider) :
    p.listKeys.Nodup ∧ ∀ k, k ∈ p.listKeys ↔ (p.getIndex k).1.isSome = true := by
  refine ⟨p.index.nodupKeys.sublist (List.filter_sublist _), fun k => ?_⟩
  simp only [listKeys, Index.keys, getIndex, Index.get_fst, List.mem_map, List.mem_filter, Bool.not_eq_true']
  constructor
  · rintro ⟨⟨k', e⟩, ⟨hmem, hlive⟩, rfl⟩
    have hl : p.index.lookup k' = some e := AList.mem_lookup_iff.mpr hmem
    simp [hl, hlive]
  · intro h
    cases hl : p.index.lookup k with
    | none => simp [hl] at h
    | some e =>
      refine ⟨⟨k, e⟩, ⟨AList.mem_lookup_iff.mp hl, ?_⟩, rfl⟩
      simpa [hl] using h

end Simplefs.Provider
