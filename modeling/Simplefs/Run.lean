import Simplefs.VariantFrame

/-! # Sequential runs

A run is a sequence of calls of the storage interface, each running to completion with its
notifications handled, between which the background sweeper and the clock move.
`GetMultiLevel` is its read of the mapping record; the `Get` calls `MappingElection` makes
on the variants it considers are steps of their own.
-/
namespace Simplefs

/-- One step of a sequential run. -/
inductive Op where
  | get (key : Bytes)
  | getMultiLevel (key : Bytes)
  | set (key value : Bytes) (duration : Int)
  | setMultiLevel (a : Variant)
  | delete (key : Bytes)
  | deleteMany (pattern : Bytes)
  | reset
  | sweep
  | tick (dt : Nat)

/-- The steps no caller makes: the sweeper's and the clock's. -/
def Op.isBackground : Op → Bool
  | .sweep | .tick _ => true
  | _ => false

/-- The reads: `Get` and `GetMultiLevel`. -/
def Op.isRead : Op → Bool
  | .get _ | .getMultiLevel _ => true
  | _ => false

/-- A run through steps related by `R`. -/
inductive Run {σ α : Type} (R : σ → α → σ → Prop) : σ → List α → σ → Prop
  | nil (s : σ) : Run R s [] s
  | cons {s t u : σ} {a : α} {as : List α} : R s a t → Run R t as u → Run R s (a :: as) u

theorem Run.inv {σ α : Type} {R : σ → α → σ → Prop} (I : σ → Prop)
    (hstep : ∀ s a t, I s → R s a t → I t) {s u : σ} {as : List α} (h : Run R s as u) (hs : I s) : I u := by
  induction h with
  | nil => exact hs
  | cons hr _ ih => exact ih (hstep _ _ _ hs hr)

theorem Run.append {σ α : Type} {R : σ → α → σ → Prop} {s t u : σ} {as bs : List α}
    (h₁ : Run R s as t) (h₂ : Run R t bs u) : Run R s (as ++ bs) u := by
  induction h₁ with
  | nil => exact h₂
  | cons hr _ ih => exact .cons hr (ih h₂)

theorem Run.split {σ α : Type} {R : σ → α → σ → Prop} {u : σ} :
    ∀ {s : σ} {as bs : List α}, Run R s (as ++ bs) u → ∃ t, Run R s as t ∧ Run R t bs u
  | s, [], _, h => ⟨s, .nil s, h⟩
  | _, _ :: _, _, .cons hr h =>
    let ⟨t, h₁, h₂⟩ := Run.split h
    ⟨t, .cons hr h₁, h₂⟩

theorem Run.mono {σ α : Type} {R R' : σ → α → σ → Prop} (hR : ∀ s a t, R s a t → R' s a t)
    {s u : σ} {as : List α} (h : Run R s as u) : Run R' s as u := by
  induction h with
  | nil => exact .nil _
  | cons hr _ ih => exact .cons (hR _ _ _ hr) ih

namespace Provider

/-- The clock moving `dt` nanoseconds forward. -/
def tick (p : Provider) (dt : Nat) : Provider := { p with now := p.now + dt }

/-- The state after one step; `none` when the call has not returned after `fuel` rounds of
its recursion, or panics. -/
def exec (env : Env) (fuel : Nat) (p : Provider) : Op → Option Provider
  | .get key => some (p.get env key).2
  | .getMultiLevel key => some (p.getIndex (mappingKey key)).2
  | .set key value d => some (p.set key value d)
  | .setMultiLevel a => (p.setMultiLevel env fuel a).map (·.2)
  | .delete key => some (p.delete key)
  | .deleteMany pattern => p.deleteMany env pattern
  | .reset => some p.reset
  | .sweep => some p.sweep
  | .tick dt => some (p.tick dt)

/-- `op` takes `p` to `q`, given enough fuel. -/
def Step (env : Env) (p : Provider) (op : Op) (q : Provider) : Prop := ∃ fuel, p.exec env fuel op = some q

/-- A run executed with `fuel` for each step, each step checked by `ok`; `none` when a step
does not return or fails the check. -/
def runChecked (env : Env) (fuel : Nat) (ok : Provider → Op → Bool) : Provider → List Op → Option Provider
  | p, [] => some p
  | p, op :: ops => (p.exec env fuel op).bind fun q => if ok p op then runChecked env fuel ok q ops else none

theorem run_of_runChecked {env : Env} {fuel : Nat} {ok : Provider → Op → Bool} {P : Provider → Op → Prop}
    (hok : ∀ p op, ok p op = true → P p op) :
    ∀ {p q : Provider} {ops : List Op}, runChecked env fuel ok p ops = some q →
      Run (fun s op t => Step env s op t ∧ P s op) p ops q
  | _, _, [], h => by cases h; exact .nil _
  | p, _, op :: ops, h => by
    simp only [runChecked, Option.bind_eq_some] at h
    obtain ⟨t, ht, h⟩ := h
    split at h
    · exact .cons ⟨⟨fuel, ht⟩, hok _ _ ‹_›⟩ (run_of_runChecked hok h)
    · cases h

theorem runChecked_eq_foldl {env : Env} {fuel : Nat} {ok : Provider → Op → Bool} :
    ∀ {p q : Provider} {ops : List Op}, runChecked env fuel ok p ops = some q →
      q = ops.foldl (fun s op => (s.exec env fuel op).getD s) p
  | _, _, [], h => by cases h; rfl
  | p, _, op :: ops, h => by
    simp only [runChecked, Option.bind_eq_some] at h
    obtain ⟨t, ht, h⟩ := h
    split at h
    · rw [List.foldl_cons, ht, Option.getD_some]
      exact runChecked_eq_foldl h
    · cases h

theorem run_of_runChecked_isSome {env : Env} {fuel : Nat} {ok : Provider → Op → Bool} {P : Provider → Op → Prop}
    (hok : ∀ p op, ok p op = true → P p op) {p : Provider} {ops : List Op}
    (h : (runChecked env fuel ok p ops).isSome = true) :
    Run (fun s op t => Step env s op t ∧ P s op) p ops (ops.foldl (fun s op => (s.exec env fuel op).getD s) p) := by
  obtain ⟨q, hq⟩ := Option.isSome_iff_exists.mp h
  exact runChecked_eq_foldl hq ▸ run_of_runChecked hok hq

theorem setMultiLevel_fixed {env : Env} {fuel : Nat} {p q : Provider} {a : Variant} {o : Outcome}
    (h : p.setMultiLevel env fuel a = some (o, q)) : Fixed p q := by
  rcases setMultiLevel_cases h with ⟨-, -, -, rfl⟩ | ⟨data, r, -, hr, ⟨-, -, rfl⟩ | ⟨-, hq⟩⟩
  · exact Fixed.refl _
  · exact (recover_spec hr).1
  · have hu := updateMapping_fixed env (r.register a.variedKey data a.duration) a p.now
    rw [hq] at hu
    exact (recover_spec hr).1.trans ((register_fixed _ _ _ _).trans hu)

theorem exec_now_le {env : Env} {fuel : Nat} {p q : Provider} {op : Op} (h : p.exec env fuel op = some q) :
    p.now ≤ q.now := by
  cases op with
  | setMultiLevel a =>
    obtain ⟨⟨o, q'⟩, hq', rfl⟩ := Option.map_eq_some'.mp h
    exact (setMultiLevel_fixed hq').now.ge
  | deleteMany pattern =>
    rcases deleteMany_spec h with rfl | ⟨_, _, -, -, rfl⟩
    · exact le_rfl
    · simp [delete]
  | tick dt => cases h; simp only [tick]; omega
  | get key => cases h; simp [get_snd, getIndex]
  | _ => cases h; simp [getIndex, set, setIndex, delete, reset, sweep]

end Provider

end Simplefs
