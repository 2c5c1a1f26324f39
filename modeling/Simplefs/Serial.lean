import Simplefs.Interleaving
import Simplefs.Mapping

/-! # Serial schedules

Alone, a call's steps compute exactly `setMultiLevel` (`alone_iff_setMultiLevel`), so every
sequential run is a schedule of the interleaved model (`run_serial`).
-/
namespace Simplefs

section Serial

variable {env : Env} {cs : List Call} {a : Variant} {t : Int}

/-- `m` steps of the call `a` started at `t`, with nothing in between, from the provider `p`
and the phase `ph`. -/
def Call.steps (env : Env) (a : Variant) (t : Int) : Nat → Provider → Phase → Option (Provider × Phase)
  | 0, p, ph => some (p, ph)
  | m + 1, p, ph => (Call.advance env p ⟨a, t, ph⟩).bind fun r => Call.steps env a t m r.1 r.2

theorem World.step_call_last_iff {p : Provider} {c : Call} {w' : World} :
    World.Step env ⟨p, cs ++ [c]⟩ (.call cs.length) w' ↔
      ∃ q ph, c.advance env p = some (q, ph) ∧ w' = ⟨q, cs ++ [{ c with phase := ph }]⟩ := by
  simp only [World.Step, World.step, List.getElem?_concat_length, Option.some_bind, Option.map_eq_some']
  constructor
  · rintro ⟨⟨q, ph⟩, h, rfl⟩; exact ⟨q, ph, h, by simp⟩
  · rintro ⟨q, ph, h, rfl⟩; exact ⟨(q, ph), h, by simp⟩

theorem run_alone_steps {w' : World} : ∀ {m : Nat} {p : Provider} {ph : Phase},
    Run (World.Step env) ⟨p, cs ++ [⟨a, t, ph⟩]⟩ (List.replicate m (.call cs.length)) w' →
      ∃ q ph', Call.steps env a t m p ph = some (q, ph') ∧ w' = ⟨q, cs ++ [⟨a, t, ph'⟩]⟩
  | 0, p, ph, h => by cases h; exact ⟨p, ph, rfl, rfl⟩
  | m + 1, p, ph, h => by
    cases h with
    | cons hs hr =>
      obtain ⟨q₁, ph₁, hadv, rfl⟩ := World.step_call_last_iff.mp hs
      obtain ⟨q, ph', hsteps, rfl⟩ := run_alone_steps hr
      exact ⟨q, ph', by simp [Call.steps, hadv, hsteps], rfl⟩

theorem Call.steps_of_returned {m : Nat} {p q : Provider} {ph ph' : Phase} (hph : ph.outcome.isSome)
    (h : Call.steps env a t m p ph = some (q, ph')) : q = p ∧ ph' = ph := by
  cases m with
  | zero => cases h; exact ⟨rfl, rfl⟩
  | succ m =>
    have hnone : Call.advance env p ⟨a, t, ph⟩ = none := by
      unfold Call.advance; cases ph <;> simp_all [Phase.outcome]
    simp [Call.steps, hnone] at h

theorem Call.steps_det : ∀ {m n : Nat} {p q q' : Provider} {ph ph₁ ph₂ : Phase},
    Call.steps env a t m p ph = some (q, ph₁) → ph₁.outcome.isSome →
      Call.steps env a t n p ph = some (q', ph₂) → ph₂.outcome.isSome → q = q' ∧ ph₁ = ph₂
  | 0, _, _, _, _, _, _, _, h₁, hr₁, h₂, _ => by
    cases h₁
    obtain ⟨rfl, rfl⟩ := Call.steps_of_returned hr₁ h₂
    exact ⟨rfl, rfl⟩
  | _ + 1, 0, _, _, _, _, _, _, h₁, _, h₂, hr₂ => by
    cases h₂
    obtain ⟨rfl, rfl⟩ := Call.steps_of_returned hr₂ h₁
    exact ⟨rfl, rfl⟩
  | _ + 1, _ + 1, _, _, _, _, _, _, h₁, hr₁, h₂, hr₂ => by
    simp only [Call.steps, Option.bind_eq_some] at h₁ h₂
    obtain ⟨r₁, hadv₁, h₁⟩ := h₁
    obtain ⟨r₂, hadv₂, h₂⟩ := h₂
    rw [hadv₁] at hadv₂
    cases hadv₂
    exact Call.steps_det h₁ hr₁ h₂ hr₂

theorem Call.steps_reclaim {data : Bytes} : ∀ {m : Nat} {p q : Provider} {ph : Phase},
    Call.steps env a t m p (.reclaim data) = some (q, ph) → ph.outcome.isSome →
      ∃ fuel r, p.recoverEnoughSpaceIfNeeded fuel data.length = some r
  | 0, _, _, _, h, hph => by cases h; simp [Phase.outcome] at hph
  | m + 1, p, q, ph, h, hph => by
    by_cases hb : p.overBudget data.length
    · simp only [Call.steps, Call.advance, hb, if_true, Option.some_bind] at h
      obtain ⟨fuel, r, hr⟩ := Call.steps_reclaim h hph
      exact ⟨fuel + 1, r, by rw [Provider.recoverEnoughSpaceIfNeeded, if_pos hb, hr]⟩
    · exact ⟨1, p, by simp [Provider.recoverEnoughSpaceIfNeeded, hb]⟩

theorem Call.steps_start {m : Nat} {p q : Provider} {ph : Phase}
    (h : Call.steps env a t m p (startPhase env p a) = some (q, ph)) (hph : ph.outcome.isSome) :
    ∃ fuel, (p.setMultiLevel env fuel a).isSome := by
  cases hc : compress env p.compression a.value with
  | error e => exact ⟨0, by simp [Provider.setMultiLevel, hc]⟩
  | ok data =>
    simp only [startPhase, hc] at h
    obtain ⟨fuel, r, hr⟩ := Call.steps_reclaim h hph
    exact ⟨fuel, by simp [Provider.setMultiLevel, hc, Provider.writeVariant, hr]⟩

/-- A call run with nothing in between returns `o` and leaves `q` exactly when
`setMultiLevel` does, for some bound on its reclamation rounds: the unlocked steps of the
interleaved model compose to the sequential `SetMultiLevel`, and to nothing else. -/
theorem alone_iff_setMultiLevel {p q : Provider} {o : Outcome} :
    (∃ m ph, Run (World.Step env) ⟨p, cs⟩ (.launch a :: List.replicate m (.call cs.length))
        ⟨q, cs ++ [⟨a, p.now, ph⟩]⟩ ∧ ph.outcome = some o) ↔
      ∃ fuel, p.setMultiLevel env fuel a = some (o, q) := by
  constructor
  · rintro ⟨m, ph, hrun, ho⟩
    cases hrun with
    | cons hl hr =>
      cases hl
      obtain ⟨q₁, ph₁, hs, heq⟩ := run_alone_steps hr
      simp only [World.mk.injEq, List.append_cancel_left_eq, List.cons.injEq, Call.mk.injEq, true_and,
        and_true] at heq
      obtain ⟨rfl, rfl⟩ := heq
      have hret : ph.outcome.isSome := by simp [ho]
      obtain ⟨fuel, hf⟩ := Call.steps_start hs hret
      obtain ⟨⟨o', q'⟩, hf⟩ := Option.isSome_iff_exists.mp hf
      obtain ⟨m', ph', hrun', ho'⟩ : ∃ m ph, Run (World.Step env) ⟨p, cs⟩
          (.launch a :: List.replicate m (.call cs.length)) ⟨q', cs ++ [⟨a, p.now, ph⟩]⟩ ∧
          ph.outcome = some o' := setMultiLevel_alone hf
      cases hrun' with
      | cons hl' hr' =>
        cases hl'
        obtain ⟨q₂, ph₂, hs', heq'⟩ := run_alone_steps hr'
        simp only [World.mk.injEq, List.append_cancel_left_eq, List.cons.injEq, Call.mk.injEq, true_and,
          and_true] at heq'
        obtain ⟨rfl, rfl⟩ := heq'
        obtain ⟨rfl, rfl⟩ := Call.steps_det hs hret hs' (by simp [ho'])
        rw [ho] at ho'
        cases ho'
        exact ⟨fuel, hf⟩
  · rintro ⟨fuel, h⟩
    exact setMultiLevel_alone h

theorem step_serial {p q : Provider} {op : Op} (h : Provider.Step env p op q) (cs : List Call) :
    ∃ acts cs', Run (World.Step env) ⟨p, cs⟩ acts ⟨q, cs ++ cs'⟩ ∧ ∀ c ∈ cs', c.phase.outcome.isSome := by
  obtain ⟨fuel, h⟩ := h
  have one : ∀ act, World.Step env ⟨p, cs⟩ act ⟨q, cs⟩ →
      ∃ acts cs', Run (World.Step env) ⟨p, cs⟩ acts ⟨q, cs ++ cs'⟩ ∧ ∀ c ∈ cs', c.phase.outcome.isSome :=
    fun act hs => ⟨[act], [], by rw [List.append_nil]; exact .cons hs (.nil _), fun _ h => absurd h (List.not_mem_nil _)⟩
  cases op with
  | setMultiLevel a =>
    obtain ⟨⟨o, q'⟩, hq', rfl⟩ := Option.map_eq_some'.mp h
    obtain ⟨m, ph, hrun, ho⟩ : ∃ m ph, Run (World.Step env) ⟨p, cs⟩
        (.launch a :: List.replicate m (.call cs.length)) ⟨q', cs ++ [⟨a, p.now, ph⟩]⟩ ∧
        ph.outcome = some o := setMultiLevel_alone hq'
    exact ⟨_, [⟨a, p.now, ph⟩], hrun, by simp [ho]⟩
  | deleteMany pattern =>
    exact one (.deleteMany pattern) (by simp [World.Step, World.step, show p.deleteMany env pattern = some q from h])
  | get key => cases h; exact one (.get key) rfl
  | getMultiLevel key => cases h; exact one (.getMultiLevel key) rfl
  | set key value d => cases h; exact one (.set key value d) rfl
  | delete key => cases h; exact one (.delete key) rfl
  | reset => cases h; exact one .reset rfl
  | sweep => cases h; exact one .sweep rfl
  | tick dt => cases h; exact one (.tick dt) rfl

/-- Every sequential run is a schedule of the interleaved model in which each call runs with
nothing in between: from any calls made so far it reaches the same provider, and every call
it adds has returned. -/
theorem run_serial {p q : Provider} {ops : List Op} (h : Run (Provider.Step env) p ops q) (cs : List Call) :
    ∃ acts cs', Run (World.Step env) ⟨p, cs⟩ acts ⟨q, cs ++ cs'⟩ ∧ ∀ c ∈ cs', c.phase.outcome.isSome := by
  induction h generalizing cs with
  | nil => exact ⟨[], [], by rw [List.append_nil]; exact .nil _, fun _ h => absurd h (List.not_mem_nil _)⟩
  | cons hs _ ih =>
    obtain ⟨acts₁, cs₁, h₁, hr₁⟩ := step_serial hs cs
    obtain ⟨acts₂, cs₂, h₂, hr₂⟩ := ih (cs ++ cs₁)
    refine ⟨acts₁ ++ acts₂, cs₁ ++ cs₂, by rw [← List.append_assoc]; exact h₁.append h₂, fun c hc => ?_⟩
    rcases List.mem_append.mp hc with hc | hc
    exacts [hr₁ c hc, hr₂ c hc]

def serialStart : Provider := (Provider.factory (utf8 "/c") [] 0 (-1) (utf8 "none") 0 ∅ 0).init

def serialVariant : Variant := ⟨utf8 "b", utf8 "k", utf8 "a", [], [], 10000000000, []⟩

def serialEnd : Provider :=
  ((((serialStart.setMultiLevel Env.reference 1 serialVariant).map (·.2)).getD serialStart).get Env.reference
    (utf8 "k")).2

/-- The write of `k` followed by `Get(k)` is a schedule whose one call has returned. -/
theorem serial_write_read :
    Run (Provider.Step Env.reference) serialStart [.setMultiLevel serialVariant, .get (utf8 "k")] serialEnd ∧
      ∃ acts cs', Run (World.Step Env.reference) ⟨serialStart, []⟩ acts ⟨serialEnd, [] ++ cs'⟩ ∧
        ∀ c ∈ cs', c.phase.outcome.isSome := by
  have hrun : Run (Provider.Step Env.reference) serialStart [.setMultiLevel serialVariant, .get (utf8 "k")]
      serialEnd := .cons ⟨1, rfl⟩ (.cons ⟨0, rfl⟩ (.nil _))
  exact ⟨hrun, run_serial hrun []⟩

end Serial

end Simplefs
