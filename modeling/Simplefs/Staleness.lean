import Simplefs.Run
import Simplefs.RoundTrip
import Simplefs.LostUpdate

/-! # The stale window

A variant's entry expires at `now + d`; the stale extension only reaches its mapping record
(`variant_hit_iff`). Records get a TTL that is not positive and never expire
(`records_never_expire`).
-/
namespace Simplefs.Provider

theorem setMultiLevel_entry {env : Env} {fuel : Nat} {p q : Provider} {a : Variant} {o : Outcome}
    {data : Bytes} (hc : compress env p.compression a.value = .ok data)
    (hrun : p.setMultiLevel env fuel a = some (o, q)) (hw : env.writeOk (p.joinedFP a.variedKey) = true)
    (hd : 0 < a.duration) (hk : a.variedKey ≠ mappingKey a.baseKey) (hcap : p.capacity ≠ 1) :
    q.index.lookup a.variedKey = some ⟨p.joinedFP a.variedKey, a.duration, p.now + a.duration⟩ := by
  obtain ⟨r, -, hfix, -, hq⟩ := setMultiLevel_of_written hc hrun hw
  have hq2 : (updateMapping env (r.register a.variedKey data a.duration) a p.now).2 = q := by rw [hq]
  have hcapw : (r.register a.variedKey data a.duration).capacity ≠ 1 := by
    simpa [capacity, (register_fixed r a.variedKey data a.duration).size, hfix.size] using hcap
  rw [← hq2, updateMapping_lookup hk register_head hcapw, register_lookup_self hd, joinedFP, joinedFP,
    hfix.path, hfix.now]

/-- Along a run that changes `k`'s entry only by the sweeper and the clock: the entry is
still `E`, or it is gone and `E` has expired. -/
def Spared (k : Bytes) (E : Entry) (s : Provider) : Prop :=
  s.index.lookup k = some E ∨ (s.index.lookup k = none ∧ E.expiresAt < s.now)

theorem Spared.sweep {k : Bytes} {E : Entry} {s : Provider} (hs : Spared k E s) : Spared k E s.sweep := by
  have hl : s.sweep.index.lookup k = (s.index.lookup k).filter fun e => !e.isExpired s.now := by
    simp [Provider.sweep, Index.lookup_deleteExpired]
  rcases hs with hs | ⟨hs, hlt⟩
  · by_cases hx : E.isExpired s.now
    · simp only [Entry.isExpired, Bool.and_eq_true, decide_eq_true_eq] at hx
      exact .inr ⟨by simp [hl, hs, Entry.isExpired, hx], by simpa [Provider.sweep] using hx.2⟩
    · exact .inl (by simp [hl, hs, hx])
  · exact .inr ⟨by simp [hl, hs], by simpa [Provider.sweep] using hlt⟩

theorem spared_step {env : Env} {k : Bytes} {E : Entry} {s t : Provider} {op : Op}
    (hs : Spared k E s) (hstep : Step env s op t)
    (hop : op.isBackground = true ∨ t.index.lookup k = s.index.lookup k) : Spared k E t := by
  obtain ⟨fuel, hx⟩ := hstep
  have hnow := exec_now_le hx
  rcases hop with hop | hop
  · cases op <;> simp only [Op.isBackground, reduceCtorEq] at hop
    · cases hx; exact hs.sweep
    · cases hx
      rcases hs with hs | ⟨hs, hlt⟩
      · exact .inl hs
      · exact .inr ⟨hs, lt_of_lt_of_le hlt hnow⟩
  · rcases hs with hs | ⟨hs, hlt⟩
    · exact .inl (hop.trans hs)
    · exact .inr ⟨hop.trans hs, by omega⟩

/-- After a `SetMultiLevel` at time `t` with TTL `d > 0` whose file write succeeded, in any
run that changes the variant's entry only by the sweeper and the clock, `Get` finds the
entry exactly while the clock is at most `t + d`: the stale extension is never added. -/
theorem variant_hit_iff {env : Env} {fuel : Nat} {p q s : Provider} {a : Variant} {o : Outcome}
    {data : Bytes} {ops : List Op} (hc : compress env p.compression a.value = .ok data)
    (hrun : p.setMultiLevel env fuel a = some (o, q)) (hw : env.writeOk (p.joinedFP a.variedKey) = true)
    (hd : 0 < a.duration) (hk : a.variedKey ≠ mappingKey a.baseKey) (hcap : p.capacity ≠ 1)
    (hops : Run (fun u op u' => Step env u op u' ∧
      (op.isBackground = true ∨ u'.index.lookup a.variedKey = u.index.lookup a.variedKey)) q ops s) :
    (s.getIndex a.variedKey).1.isSome ↔ s.now ≤ p.now + a.duration := by
  have hs : Spared a.variedKey ⟨p.joinedFP a.variedKey, a.duration, p.now + a.duration⟩ s :=
    hops.inv (Spared a.variedKey _) (fun _ _ _ hu hr => spared_step hu hr.1 hr.2)
      (.inl (setMultiLevel_entry hc hrun hw hd hk hcap))
  rcases hs with hs | ⟨hs, hlt⟩
  · simp [getIndex, Index.get_fst, hs, Entry.isExpired, hd]
  · dsimp only at hlt
    simp [getIndex, Index.get_fst, hs]; omega

/-- A provider with a stale window of five seconds and no byte budget, compressing under the empty name. -/
def staleStart : Provider := (factory (utf8 "/c") [] 0 (-1) [] 5000000000 ∅ 0).init

def staleWritten : Provider :=
  ((staleStart.setMultiLevel Env.reference 1 plainVariant).map (·.2)).getD staleStart

theorem staleStart_setMultiLevel :
    staleStart.setMultiLevel Env.reference 1 plainVariant = some (none, staleWritten) := rfl

theorem staleStart_compress :
    compress Env.reference staleStart.compression plainVariant.value = .ok plainVariant.value := rfl

theorem staleWritten_tick :
    Run (fun u op u' => Step Env.reference u op u' ∧ (op.isBackground = true ∨
      u'.index.lookup plainVariant.variedKey = u.index.lookup plainVariant.variedKey))
      staleWritten [.tick 12000000000] (staleWritten.tick 12000000000) :=
  .cons ⟨⟨0, rfl⟩, .inl rfl⟩ (.nil _)

/-- `variant_hit_iff` twelve seconds after a write at 0 with a TTL of ten seconds: no hit. -/
theorem stale_hit_iff_at_twelve :
    compress Env.reference staleStart.compression plainVariant.value = .ok plainVariant.value ∧
      staleStart.setMultiLevel Env.reference 1 plainVariant = some (none, staleWritten) ∧
      Env.reference.writeOk (staleStart.joinedFP plainVariant.variedKey) = true ∧
      0 < plainVariant.duration ∧ plainVariant.variedKey ≠ mappingKey plainVariant.baseKey ∧
      staleStart.capacity ≠ 1 ∧
      (((staleWritten.tick 12000000000).getIndex plainVariant.variedKey).1.isSome ↔
        (staleWritten.tick 12000000000).now ≤ staleStart.now + plainVariant.duration) :=
  ⟨staleStart_compress, staleStart_setMultiLevel, rfl, by decide, by decide, by decide,
    variant_hit_iff staleStart_compress staleStart_setMultiLevel rfl (by decide) (by decide) (by decide) staleWritten_tick⟩

/-- With a stale window of five seconds, a variant written at time 0 with a TTL of ten seconds
is no longer served twelve seconds later, inside the window `(10 s, 15 s]` the mapping record was given. -/
theorem stale_window_miss :
    staleStart.setMultiLevel Env.reference 1 plainVariant = some (none, staleWritten) ∧
      ((staleWritten.tick 12000000000).get Env.reference plainVariant.variedKey).1 = none ∧
      staleStart.now + plainVariant.duration < 12000000000 ∧
      12000000000 ≤ staleStart.now + plainVariant.duration + staleStart.stale ∧
      (staleWritten.get Env.reference plainVariant.variedKey).1 = some plainVariant.value :=
  ⟨rfl, by decide, by decide, by decide, by decide⟩

/-! ## Mapping records never expire -/

/-- Every mapping record in the index has a TTL that is not positive. -/
def RecordsPermanent (s : Provider) : Prop := ∀ b e, s.index.lookup (mappingKey b) = some e → e.ttl ≤ 0

/-- The steps that write no positive TTL under a mapping key: a raw `Set` of a mapping key
with a TTL that is not positive, and variants whose key is not a mapping key. -/
def keepsRecords : Op → Prop
  | .set key _ d => (∀ b, key ≠ mappingKey b) ∨ d ≤ 0
  | .setMultiLevel a => ∀ b, a.variedKey ≠ mappingKey b
  | _ => True

section Records

variable {s t : Provider}

theorem RecordsPermanent.of_lookup (h : RecordsPermanent s)
    (hl : ∀ x e, t.index.lookup x = some e → ∃ e', s.index.lookup x = some e' ∧ e.ttl = e'.ttl) :
    RecordsPermanent t := fun b e he => by
  obtain ⟨e', he', httl⟩ := hl _ e he
  exact httl ▸ h b e' he'

theorem RecordsPermanent.of_shrinks (h : RecordsPermanent s) (hs : Shrinks s t) : RecordsPermanent t :=
  h.of_lookup fun x e hx => by
    rcases hs x with h' | h' <;> rw [h'] at hx
    · exact ⟨e, hx, rfl⟩
    · cases hx

theorem RecordsPermanent.apply_removes {r : Index × List Event} (h : RecordsPermanent s) (hr : s.index.Removes r) :
    RecordsPermanent (s.apply r) :=
  h.of_lookup fun x e hx => ⟨e, hr.1 x e (by simpa using hx), rfl⟩

theorem RecordsPermanent.getIndex (h : RecordsPermanent s) (key : Bytes) : RecordsPermanent (s.getIndex key).2 :=
  h.of_lookup fun x e hx => by
    simp only [Provider.getIndex, Index.lookup_get] at hx
    obtain ⟨e', he', rfl⟩ := Option.map_eq_some'.mp hx
    exact ⟨e', he', by split <;> simp⟩

theorem RecordsPermanent.setIndex (h : RecordsPermanent s) {key v : Bytes} {d : Int}
    (hkey : (∀ b, key ≠ mappingKey b) ∨ d ≤ 0) : RecordsPermanent (s.setIndex key v d) := by
  intro b e he
  simp only [Provider.setIndex, apply_index] at he
  by_cases hb : mappingKey b = key
  · rcases hkey with hkey | hd
    · exact absurd hb.symm (hkey b)
    · subst hb
      exact Index.ttl_set_self_nonpos hd (h b) e he
  · rcases Index.lookup_set_eq_some he with ⟨hb', -⟩ | he
    · exact absurd hb' hb
    · exact h b e he

theorem RecordsPermanent.setMultiLevel {env : Env} {fuel : Nat} {a : Variant} {o : Outcome}
    (h : RecordsPermanent s) (ha : ∀ b, a.variedKey ≠ mappingKey b) (hs : s.setMultiLevel env fuel a = some (o, t)) :
    RecordsPermanent t := by
  rcases setMultiLevel_cases hs with ⟨-, -, -, rfl⟩ | ⟨data, r, -, hr, ⟨-, -, rfl⟩ | ⟨-, hq⟩⟩
  · exact h
  · exact h.of_shrinks (recover_spec hr).2.1
  · have hreg : RecordsPermanent (r.register a.variedKey data a.duration) :=
      RecordsPermanent.setIndex (s := { r with fs := r.fs.writeFile (r.joinedFP a.variedKey) data })
        (h.of_shrinks (recover_spec hr).2.1) (.inl ha)
    have hup : RecordsPermanent (updateMapping env (r.register a.variedKey data a.duration) a s.now).2 := by
      unfold updateMapping; dsimp only; split
      · exact hreg.getIndex _
      · exact (hreg.getIndex _).setIndex (.inr (negativeNow_nonpos _).1)
    rwa [hq] at hup

theorem RecordsPermanent.step {env : Env} {op : Op} (h : RecordsPermanent s) (hstep : Step env s op t)
    (hop : keepsRecords op) : RecordsPermanent t := by
  obtain ⟨fuel, hx⟩ := hstep
  cases op with
  | get key => cases hx; rw [get_snd]; exact h.getIndex key
  | getMultiLevel key => cases hx; exact h.getIndex _
  | set key v d => cases hx; exact h.setIndex hop
  | setMultiLevel a =>
    obtain ⟨⟨o, q⟩, hq, rfl⟩ := Option.map_eq_some'.mp hx
    exact h.setMultiLevel hop hq
  | delete key => cases hx; exact h.of_shrinks (delete_shrinks _ _)
  | deleteMany pattern =>
    rcases deleteMany_spec hx with rfl | ⟨_, _, -, -, rfl⟩
    · exact h
    · exact h.of_shrinks (delete_shrinks _ _)
  | reset => cases hx; exact h.of_lookup fun x e hx => by simp [Provider.reset, Index.deleteAll] at hx
  | sweep => cases hx; exact h.apply_removes (Index.removes_deleteExpired _)
  | tick dt => cases hx; exact h

end Records

/-- Along every run in which no raw `Set` writes a positive TTL under a mapping key and no
variant's key is a mapping key, every mapping record of the final index, written by
`SetMultiLevel` with its negative TTL, is live at every time, if the records were so at the
start. -/
theorem records_never_expire {env : Env} {p q : Provider} {ops : List Op}
    (hrun : Run (fun s op t => Step env s op t ∧ keepsRecords op) p ops q) (hp : RecordsPermanent p) :
    ∀ b e, q.index.lookup (mappingKey b) = some e → ∀ now, e.isExpired now = false := by
  have hq : RecordsPermanent q := hrun.inv _ (fun _ _ _ hs h => hs.step h.1 h.2) hp
  intro b e he now
  simp [Entry.isExpired, not_lt.mpr (hq b e he)]

def recordsEnd : Provider := (staleWritten.tick 20000000000).sweep

/-- The record the write leaves outlives the variant's TTL and the sweeper, and is live. -/
theorem record_outlives_sweep :
    Run (fun s op t => Step Env.reference s op t ∧ keepsRecords op) staleStart
        [.setMultiLevel plainVariant, .tick 20000000000, .sweep] recordsEnd ∧
      RecordsPermanent staleStart ∧ (recordsEnd.index.lookup (mappingKey plainVariant.baseKey)).isSome ∧
      ∀ b e, recordsEnd.index.lookup (mappingKey b) = some e → ∀ now, e.isExpired now = false := by
  have hk : keepsRecords (.setMultiLevel plainVariant) := fun b h => by
    have hlen : (utf8 "k").length = mappingKeyPrefix.length + b.length := by
      rw [← List.length_append]; exact congrArg List.length h
    have h1 : (utf8 "k").length = 1 := by decide
    have h4 : mappingKeyPrefix.length = 4 := by decide
    omega
  have hrun : Run (fun s op t => Step Env.reference s op t ∧ keepsRecords op) staleStart
      [.setMultiLevel plainVariant, .tick 20000000000, .sweep] recordsEnd :=
    .cons ⟨⟨1, by rw [exec, staleStart_setMultiLevel]; rfl⟩, hk⟩ <|
      .cons ⟨⟨0, rfl⟩, trivial⟩ <| .cons ⟨⟨0, rfl⟩, trivial⟩ <| .nil _
  have hp : RecordsPermanent staleStart := fun b e he => by
    simp [staleStart, Provider.init, factory] at he
  exact ⟨hrun, hp, by decide, records_never_expire hrun hp⟩

end Simplefs.Provider
