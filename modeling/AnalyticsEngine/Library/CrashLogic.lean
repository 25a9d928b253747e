import Mathlib.Data.List.Basic

/-!
# Operations that can be cut off

A program is a list of operations on a durable state. An operation completes or raises, and the
program may be cut between any two of them, so what it leaves behind is the state after some
prefix. A crash triple carries one condition for the end and one for every such prefix.
-/

namespace AnalyticsEngine.Library

variable {σ ω : Type*}

/-- Perform operations until one raises: the state then, and whether all of them completed. -/
def perform (step : σ → ω → Option σ) : List ω → σ → σ × Bool
  | [], s => (s, true)
  | op :: ops, s =>
    match step s op with
    | none => (s, false)
    | some t => perform step ops t

theorem perform_raise {step : σ → ω → Option σ} {op : ω} {s : σ} (h : step s op = none)
    (ops : List ω) : perform step (op :: ops) s = (s, false) := by
  simp only [perform, h]

theorem perform_complete {step : σ → ω → Option σ} {op : ω} {s t : σ} (h : step s op = some t)
    (ops : List ω) : perform step (op :: ops) s = perform step ops t := by
  simp only [perform, h]

theorem perform_append {step : σ → ω → Option σ} {ops : List ω} {s t : σ}
    (h : perform step ops s = (t, true)) (rest : List ω) :
    perform step (ops ++ rest) s = perform step rest t := by
  induction ops generalizing s with
  | nil =>
    cases h
    rfl
  | cons op ops ih =>
    rw [List.cons_append]
    cases hstep : step s op with
    | none =>
      rw [perform_raise hstep] at h
      cases h
    | some u =>
      rw [perform_complete hstep] at h ⊢
      exact ih h

/-- From `P`, every prefix of the operations leaves `C`, and all of them leave `Q`. -/
def CrashTriple (step : σ → ω → Option σ) (P : σ → Prop) (ops : List ω) (Q C : σ → Prop) : Prop :=
  ∀ s, P s → (∀ m, C (perform step (ops.take m) s).1) ∧
    ((perform step ops s).2 = true → Q (perform step ops s).1)

namespace CrashTriple
variable {step : σ → ω → Option σ} {P Q R C : σ → Prop} {op : ω} {ops rest : List ω}

theorem nil (hC : ∀ s, P s → C s) (hQ : ∀ s, P s → Q s) : CrashTriple step P [] Q C := by
  intro s hs
  refine ⟨fun m => ?_, fun _ => hQ s hs⟩
  rw [List.take_nil]
  exact hC s hs

theorem cons (hC : ∀ s, P s → C s) (hop : ∀ s t, P s → step s op = some t → R t)
    (hrest : CrashTriple step R ops Q C) : CrashTriple step P (op :: ops) Q C := by
  intro s hs
  cases hstep : step s op with
  | none =>
    constructor
    · intro m
      cases m with
      | zero => exact hC s hs
      | succ m =>
        rw [List.take_succ_cons, perform_raise hstep]
        exact hC s hs
    · rw [perform_raise hstep]
      exact fun h => by cases h
  | some t =>
    obtain ⟨hcut, hall⟩ := hrest t (hop s t hs hstep)
    constructor
    · intro m
      cases m with
      | zero => exact hC s hs
      | succ m =>
        rw [List.take_succ_cons, perform_complete hstep]
        exact hcut m
    · rw [perform_complete hstep]
      exact hall

theorem append (hops : CrashTriple step P ops R C) (hrest : CrashTriple step R rest Q C) :
    CrashTriple step P (ops ++ rest) Q C := by
  induction ops generalizing P with
  | nil =>
    intro s hs
    exact hrest s ((hops s hs).2 rfl)
  | cons op ops ih =>
    refine cons (R := fun t => ∃ s, P s ∧ step s op = some t) (fun s hs => (hops s hs).1 0)
      (fun s t hs hstep => ⟨s, hs, hstep⟩) (ih ?_)
    intro t hfound
    obtain ⟨s, hs, hstep⟩ := hfound
    obtain ⟨hcut, hall⟩ := hops s hs
    constructor
    · intro m
      have h := hcut (m + 1)
      rwa [List.take_succ_cons, perform_complete hstep] at h
    · rwa [perform_complete hstep] at hall

theorem consequence {P' Q' : σ → Prop} (h : CrashTriple step P ops Q C) (hP : ∀ s, P' s → P s)
    (hQ : ∀ s, Q s → Q' s) : CrashTriple step P' ops Q' C :=
  fun s hs => ⟨(h s (hP s hs)).1, fun hall => hQ _ ((h s (hP s hs)).2 hall)⟩

end CrashTriple

end AnalyticsEngine.Library
