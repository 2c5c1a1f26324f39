import Simplefs.Run

/-! # Interleaved calls

Each round of `recoverEnoughSpaceIfNeeded`, the file write, the registration, the mapping
read and the record write of a `SetMultiLevel` call is a step of its own, and other calls,
the sweeper and the clock move in between; alone, a call computes `setMultiLevel`.
-/
namespace Simplefs

/-- Where a `SetMultiLevel` call is. -/
inductive Phase where
  /-- A round of `recoverEnoughSpaceIfNeeded` for the compressed bytes. -/
  | reclaim (data : Bytes)
  /-- `os.WriteFile`. -/
  | write (data : Bytes)
  /-- `cache.Set` of the path. -/
  | register
  /-- `cache.Get` of the mapping record, then `MappingUpdater`. -/
  | readMapping
  /-- `cache.Set` of the merged record. -/
  | writeMapping (record : Bytes)
  /-- Returned nil after writing the record. -/
  | done
  /-- Returned nil after the file write failed. -/
  | skipped
  /-- Returned the error of the compression or of the merge. -/
  | failed (e : String)

/-- What a returned call returned; `none` while it runs. -/
def Phase.outcome : Phase → Option Outcome
  | .done | .skipped => some none
  | .failed e => some (some e)
  | _ => none

/-- One `SetMultiLevel` call: its arguments, `time.Now()` at its start, where it is. -/
structure Call where
  arg : Variant
  start : Int
  phase : Phase

/-- The provider and every call made so far. -/
structure World where
  store : Provider
  calls : List Call

/-- No call is running. -/
def World.idle (w : World) : Prop := ∀ c ∈ w.calls, c.phase.outcome.isSome

instance (w : World) : Decidable w.idle := by unfold World.idle; infer_instance

/-- Where a call is once it has compressed its payload. -/
def startPhase (env : Env) (p : Provider) (a : Variant) : Phase :=
  match compress env p.compression a.value with
  | .ok data => .reclaim data
  | .error e => .failed e

/-- The mapping read of a call started at `now`: `cache.Get` of the base key's record and
`MappingUpdater` on its bytes (empty when absent). -/
def mergeVariant (env : Env) (p : Provider) (a : Variant) (now : Int) : Except String Bytes × Provider :=
  let r := p.getIndex (Provider.mappingKey a.baseKey)
  (env.mappingUpdater ⟨a.variedKey, (r.1.map (·.value)).getD [], now, now + a.duration,
    now + a.duration + p.stale, a.variedHeaders, a.etag, a.realKey⟩, r.2)

/-- The next step of a call: the provider after it and where the call is then; `none` for a
call that has returned. -/
def Call.advance (env : Env) (p : Provider) (c : Call) : Option (Provider × Phase) :=
  match c.phase with
  | .reclaim data =>
    some (if p.overBudget data.length then (p.reclaimOne, .reclaim data) else (p, .write data))
  | .write data =>
    some (if env.writeOk (p.joinedFP c.arg.variedKey)
      then ({ p with fs := p.fs.writeFile (p.joinedFP c.arg.variedKey) data }, .register)
      else (p, .skipped))
  | .register => some (p.setIndex c.arg.variedKey (p.joinedFP c.arg.variedKey) c.arg.duration, .readMapping)
  | .readMapping =>
    match mergeVariant env p c.arg c.start with
    | (.ok val, q) => some (q, .writeMapping val)
    | (.error e, q) => some (q, .failed e)
  | .writeMapping val => some (p.setIndex (Provider.mappingKey c.arg.baseKey) val (negativeNow p.now), .done)
  | .done | .skipped | .failed _ => none

/-- What moves next: a new call, the next step of the `i`-th call, or one whole operation. -/
inductive Action where
  | launch (a : Variant)
  | call (i : Nat)
  | get (key : Bytes)
  | getMultiLevel (key : Bytes)
  | set (key value : Bytes) (duration : Int)
  | delete (key : Bytes)
  | deleteMany (pattern : Bytes)
  | reset
  | sweep
  | tick (dt : Nat)

namespace World

/-- One step of the schedule; `none` when it cannot be taken. -/
def step (env : Env) (w : World) : Action → Option World
  | .launch a => some ⟨w.store, w.calls ++ [⟨a, w.store.now, startPhase env w.store a⟩]⟩
  | .call i => w.calls[i]?.bind fun c =>
    (c.advance env w.store).map fun r => ⟨r.1, w.calls.set i { c with phase := r.2 }⟩
  | .get key => some { w with store := (w.store.get env key).2 }
  | .getMultiLevel key => some { w with store := (w.store.getIndex (Provider.mappingKey key)).2 }
  | .set key value d => some { w with store := w.store.set key value d }
  | .delete key => some { w with store := w.store.delete key }
  | .deleteMany pattern => (w.store.deleteMany env pattern).map fun p => { w with store := p }
  | .reset => some { w with store := w.store.reset }
  | .sweep => some { w with store := w.store.sweep }
  | .tick dt => some { w with store := w.store.tick dt }

/-- `act` takes `w` to `w'`. -/
def Step (env : Env) (w : World) (act : Action) (w' : World) : Prop := w.step env act = some w'

/-- A schedule run step by step, stopping where a step cannot be taken or fails `ok`. -/
def runChecked (env : Env) (ok : World → Action → World → Bool) : World → List Action → Option World
  | w, [] => some w
  | w, act :: acts => (w.step env act).bind fun w' => if ok w act w' then runChecked env ok w' acts else none

theorem run_of_runChecked {env : Env} {ok : World → Action → World → Bool} :
    ∀ {w w' : World} {acts : List Action}, runChecked env ok w acts = some w' →
      Run (fun u act u' => Step env u act u' ∧ ok u act u' = true) w acts w'
  | _, _, [], h => by cases h; exact .nil _
  | w, _, act :: acts, h => by
    simp only [runChecked, Option.bind_eq_some] at h
    obtain ⟨u, hu, h⟩ := h
    split at h
    · exact .cons ⟨hu, ‹_›⟩ (run_of_runChecked h)
    · cases h

theorem run_of_runChecked_isSome {env : Env} {ok : World → Action → World → Bool} {w : World} {acts : List Action}
    (h : (runChecked env ok w acts).isSome = true) :
    Run (fun u act u' => Step env u act u' ∧ ok u act u' = true) w acts ((runChecked env ok w acts).getD w) := by
  obtain ⟨w', hw'⟩ := Option.isSome_iff_exists.mp h
  rw [hw']
  exact run_of_runChecked hw'

theorem step_call_last {env : Env} {p q : Provider} {cs : List Call} {c : Call} {ph : Phase}
    (h : c.advance env p = some (q, ph)) :
    Step env ⟨p, cs ++ [c]⟩ (.call cs.length) ⟨q, cs ++ [{ c with phase := ph }]⟩ := by
  simp [Step, step, h]

end World

/-! ## A call alone computes `setMultiLevel` -/

section Alone

variable {env : Env} {cs : List Call} {a : Variant} {t : Int}

theorem reclaim_alone {data : Bytes} :
    ∀ {fuel : Nat} {p q : Provider}, p.recoverEnoughSpaceIfNeeded fuel data.length = some q →
      ∃ m, Run (World.Step env) ⟨p, cs ++ [⟨a, t, .reclaim data⟩]⟩ (List.replicate m (.call cs.length))
        ⟨q, cs ++ [⟨a, t, .write data⟩]⟩
  | 0, _, _, h => by simp [Provider.recoverEnoughSpaceIfNeeded] at h
  | fuel + 1, p, q, h => by
    simp only [Provider.recoverEnoughSpaceIfNeeded] at h
    by_cases hb : p.overBudget data.length
    · rw [if_pos hb] at h
      obtain ⟨m, hm⟩ := reclaim_alone h
      exact ⟨m + 1, .cons (World.step_call_last (by simp [Call.advance, hb])) hm⟩
    · rw [if_neg hb] at h
      cases h
      exact ⟨1, .cons (World.step_call_last (by simp [Call.advance, hb])) (.nil _)⟩

theorem updateMapping_eq (p : Provider) (now : Int) : Provider.updateMapping env p a now =
    match mergeVariant env p a now with
    | (.ok val, q) => (none, q.setIndex (Provider.mappingKey a.baseKey) val (negativeNow q.now))
    | (.error e, q) => (some e, q) := by
  unfold Provider.updateMapping mergeVariant; dsimp only; split <;> next h => simp only [h]

theorem updateMapping_alone {p q : Provider} {o : Outcome} (h : Provider.updateMapping env p a t = (o, q)) :
    ∃ m ph, Run (World.Step env) ⟨p, cs ++ [⟨a, t, .readMapping⟩]⟩ (List.replicate m (.call cs.length))
      ⟨q, cs ++ [⟨a, t, ph⟩]⟩ ∧ ph.outcome = some o := by
  rw [updateMapping_eq] at h
  split at h
  · rename_i val r hr
    cases h
    have hread : World.Step env ⟨p, cs ++ [⟨a, t, .readMapping⟩]⟩ (.call cs.length)
        ⟨r, cs ++ [⟨a, t, .writeMapping val⟩]⟩ := World.step_call_last (by simp [Call.advance, hr])
    exact ⟨2, .done, .cons hread (.cons (World.step_call_last (by simp [Call.advance])) (.nil _)), rfl⟩
  · rename_i e r hr
    cases h
    exact ⟨1, .failed e, .cons (World.step_call_last (by simp [Call.advance, hr])) (.nil _), rfl⟩

theorem setMultiLevel_alone {fuel : Nat} {p q : Provider} {o : Outcome}
    (h : p.setMultiLevel env fuel a = some (o, q)) :
    ∃ m ph, Run (World.Step env) ⟨p, cs⟩ (.launch a :: List.replicate m (.call cs.length))
      ⟨q, cs ++ [⟨a, p.now, ph⟩]⟩ ∧ ph.outcome = some o := by
  have hl : World.Step env ⟨p, cs⟩ (.launch a) ⟨p, cs ++ [⟨a, p.now, startPhase env p a⟩]⟩ := rfl
  rcases Provider.setMultiLevel_cases h with ⟨e, he, rfl, rfl⟩ | ⟨data, w, hd, hw, hrest⟩
  · exact ⟨0, .failed e, .cons (by simpa [startPhase, he] using hl) (.nil _), rfl⟩
  rw [show startPhase env p a = .reclaim data by simp [startPhase, hd]] at hl
  obtain ⟨m₁, h₁⟩ := @reclaim_alone env cs a p.now data fuel p w hw
  have hP : w.joinedFP a.variedKey = p.joinedFP a.variedKey := by
    simp [Provider.joinedFP, (Provider.recover_spec hw).1.path]
  rcases hrest with ⟨hok, rfl, rfl⟩ | ⟨hok, hq⟩
  · refine ⟨m₁ + 1, .skipped, .cons hl ?_, rfl⟩
    rw [List.replicate_add]
    exact h₁.append (.cons (World.step_call_last (by simp [Call.advance, hP, hok])) (.nil _))
  · obtain ⟨m₂, ph, h₂, ho⟩ := @updateMapping_alone env cs a p.now _ _ _ hq
    let w' : Provider := { w with fs := w.fs.writeFile (w.joinedFP a.variedKey) data }
    have hwrite : World.Step env ⟨w, cs ++ [⟨a, p.now, .write data⟩]⟩ (.call cs.length)
        ⟨w', cs ++ [⟨a, p.now, .register⟩]⟩ := World.step_call_last (by simp [Call.advance, hP, hok, w'])
    have hreg : World.Step env ⟨w', cs ++ [⟨a, p.now, .register⟩]⟩ (.call cs.length)
        ⟨w.register a.variedKey data a.duration, cs ++ [⟨a, p.now, .readMapping⟩]⟩ :=
      World.step_call_last (by simp only [Call.advance]; rfl)
    refine ⟨m₁ + 2 + m₂, ph, .cons hl ?_, ho⟩
    rw [List.replicate_add, List.replicate_add]
    exact (h₁.append (.cons hwrite (.cons hreg (.nil _)))).append h₂

end Alone

end Simplefs
