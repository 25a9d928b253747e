import Mathlib.Logic.Function.Basic

/-!
# Runs of a transition system

A system steps from state to state under actions, an action that is not enabled being `none`.
Under a list of actions it takes those that are enabled (`exec`).
-/

namespace AnalyticsEngine.Library

variable {σ ω : Type*}

/-- The states a run from `start` can be in. -/
inductive Reachable (step : σ → ω → Option σ) (start : σ) : σ → Prop where
  | start : Reachable step start start
  | step {s t : σ} {a : ω} : Reachable step start s → step s a = some t → Reachable step start t

variable {step : σ → ω → Option σ} {start s t : σ}

/-- What holds at the start and survives every step holds in every reachable state. -/
theorem Reachable.invariant {I : σ → Prop} (h : Reachable step start s) (hstart : I start)
    (hstep : ∀ s a t, I s → step s a = some t → I t) : I s := by
  induction h with
  | start => exact hstart
  | step _ hs ih => exact hstep _ _ _ ih hs

theorem Reachable.trans (h : Reachable step start s) (h' : Reachable step s t) :
    Reachable step start t := by
  induction h' with
  | start => exact h
  | step _ hs ih => exact ih.step hs

/-- The steps under the actions that are allowed. -/
def permit (allowed : ω → Bool) (step : σ → ω → Option σ) (s : σ) (a : ω) : Option σ :=
  if allowed a then step s a else none

theorem permit_eq_some {allowed : ω → Bool} {a : ω} :
    permit allowed step s a = some t ↔ allowed a = true ∧ step s a = some t := by
  unfold permit
  cases allowed a <;> simp

theorem Reachable.of_permit {allowed : ω → Bool} (h : Reachable (permit allowed step) start s) :
    Reachable step start s := by
  induction h with
  | start => exact .start
  | step _ hs ih => exact ih.step (permit_eq_some.mp hs).2

def exec (step : σ → ω → Option σ) (s : σ) (actions : List ω) : σ :=
  actions.foldl (fun s a => (step s a).getD s) s

theorem exec_cons {a : ω} (hs : step s a = some t) (later : List ω) :
    exec step s (a :: later) = exec step t later := by
  unfold exec
  rw [List.foldl_cons, hs]
  rfl

theorem exec_cons_none {a : ω} (hs : step s a = none) (later : List ω) :
    exec step s (a :: later) = exec step s later := by
  unfold exec
  rw [List.foldl_cons, hs]
  rfl

theorem exec_append (step : σ → ω → Option σ) (s : σ) (earlier later : List ω) :
    exec step s (earlier ++ later) = exec step (exec step s earlier) later :=
  List.foldl_append

theorem exec_reachable (step : σ → ω → Option σ) (s : σ) (actions : List ω) :
    Reachable step s (exec step s actions) := by
  induction actions generalizing s with
  | nil => exact .start
  | cons a rest ih =>
    cases hs : step s a with
    | none => exact exec_cons_none hs rest ▸ ih s
    | some t => exact exec_cons hs rest ▸ (Reachable.start.step hs).trans (ih t)

/-! ### One part moves -/

/-- What holds of the part that moved and of every other one holds of all. -/
theorem forall_update {ι ρ : Type*} [DecidableEq ι] {parts : ι → Option ρ} {id : ι} {part : ρ}
    {P : ι → ρ → Prop} (hmoved : P id part)
    (hothers : ∀ other ≠ id, ∀ r, parts other = some r → P other r) :
    ∀ other r, Function.update parts id (some part) other = some r → P other r := by
  intro other r hother
  by_cases hid : other = id
  · subst hid
    rw [Function.update_self] at hother
    cases hother
    exact hmoved
  · rw [Function.update_of_ne hid] at hother
    exact hothers other hid r hother

end AnalyticsEngine.Library
