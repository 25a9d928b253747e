import Mathlib.Analysis.Convex.Hull
import Mathlib.Analysis.Normed.Group.AddTorsor
import Mathlib.Analysis.SpecialFunctions.Trigonometric.Basic
import Mathlib.LinearAlgebra.AffineSpace.FiniteDimensional

/-!
# Convex hulls of points in a wedge

The hull of points strictly inside a wedge of at most half a turn stays on the inner side of both
of its rays, and no point of the other angles is on both inner sides.
-/

namespace AnalyticsEngine.Library

noncomputable def polar (r θ : ℝ) : ℝ × ℝ := (r * Real.cos θ, r * Real.sin θ)

/-- The points to the left of the ray at an angle. -/
def leftOf (a : ℝ) : Set (ℝ × ℝ) := {p | 0 < Real.cos a * p.2 - Real.sin a * p.1}

theorem leftOf_convex (a : ℝ) : Convex ℝ (leftOf a) := by
  apply convex_halfSpace_gt (f := fun p : ℝ × ℝ => Real.cos a * p.2 - Real.sin a * p.1)
  refine ⟨?_, ?_⟩
  · intro p q
    simp only [Prod.fst_add, Prod.snd_add]
    ring
  · intro c p
    simp only [Prod.smul_fst, Prod.smul_snd, smul_eq_mul]
    ring

theorem polar_mem_leftOf {a r θ : ℝ} : polar r θ ∈ leftOf a ↔ 0 < r * Real.sin (θ - a) := by
  change 0 < Real.cos a * (r * Real.sin θ) - Real.sin a * (r * Real.cos θ) ↔ _
  have hcross : Real.cos a * (r * Real.sin θ) - Real.sin a * (r * Real.cos θ) =
      r * (Real.sin θ * Real.cos a - Real.cos θ * Real.sin a) := by ring
  rw [hcross, Real.sin_sub]

variable {a b : ℝ} {points : Set (ℝ × ℝ)}

theorem hull_leftOf (hab : b - a ≤ Real.pi)
    (hpoints : ∀ p ∈ points, ∃ r θ, 0 < r ∧ a < θ ∧ θ < b ∧ p = polar r θ) :
    convexHull ℝ points ⊆ leftOf a := by
  apply convexHull_min _ (leftOf_convex a)
  intro p hp
  obtain ⟨r, θ, hr, ha, hb, rfl⟩ := hpoints p hp
  rw [polar_mem_leftOf]
  exact mul_pos hr (Real.sin_pos_of_pos_of_lt_pi (by linarith) (by linarith))

/-- The right side of a ray is the left side of the opposite one. -/
theorem hull_rightOf (hab : b - a ≤ Real.pi)
    (hpoints : ∀ p ∈ points, ∃ r θ, 0 < r ∧ a < θ ∧ θ < b ∧ p = polar r θ) :
    convexHull ℝ points ⊆ leftOf (b + Real.pi) := by
  apply convexHull_min _ (leftOf_convex _)
  intro p hp
  obtain ⟨r, θ, hr, ha, hb, rfl⟩ := hpoints p hp
  rw [polar_mem_leftOf, show θ - (b + Real.pi) = -(b - θ) - Real.pi by ring, Real.sin_sub_pi,
    Real.sin_neg, neg_neg]
  exact mul_pos hr (Real.sin_pos_of_pos_of_lt_pi (by linarith) (by linarith))

theorem not_mem_hull (hlt : a < b) (hab : b - a ≤ Real.pi)
    (hpoints : ∀ p ∈ points, ∃ r θ, 0 < r ∧ a < θ ∧ θ < b ∧ p = polar r θ) {r φ : ℝ} (hr : 0 ≤ r)
    (hb : b ≤ φ) (ha : φ ≤ a + 2 * Real.pi) : polar r φ ∉ convexHull ℝ points := by
  intro hmem
  have hleft := polar_mem_leftOf.mp (hull_leftOf hab hpoints hmem)
  have hright := polar_mem_leftOf.mp (hull_rightOf hab hpoints hmem)
  -- left of the first ray the angle is within half a turn of it, and then it is left of the second
  rcases le_total (φ - a) Real.pi with hnear | hfar
  · have hsin : Real.sin (φ - (b + Real.pi)) ≤ 0 :=
      Real.sin_nonpos_of_nonpos_of_neg_pi_le (by linarith) (by linarith)
    exact absurd hright (not_lt.mpr (mul_nonpos_of_nonneg_of_nonpos hr hsin))
  · have hsin : Real.sin (φ - a) ≤ 0 := by
      rw [← Real.sin_sub_two_pi]
      exact Real.sin_nonpos_of_nonpos_of_neg_pi_le (by linarith) (by linarith)
    exact absurd hleft (not_lt.mpr (mul_nonpos_of_nonneg_of_nonpos hr hsin))

theorem polar_add_two_pi (r θ : ℝ) : polar r (θ + 2 * Real.pi) = polar r θ := by
  unfold polar
  rw [Real.cos_add_two_pi, Real.sin_add_two_pi]

/-- Three points in less than half a turn are on no line where the middle one is the furthest. -/
theorem not_collinear_polar {r₁ r₂ r₃ a b c : ℝ} {points : Set (ℝ × ℝ)} (h₁ : 0 < r₁) (h₃ : 0 < r₃)
    (h₁₂ : r₁ < r₂) (h₃₂ : r₃ < r₂) (hab : a < b) (hbc : b < c) (hac : c - a < Real.pi)
    (hp₁ : polar r₁ a ∈ points) (hp₂ : polar r₂ b ∈ points) (hp₃ : polar r₃ c ∈ points) :
    ¬Collinear ℝ points := by
  intro hline
  obtain ⟨v, hv⟩ := (collinear_iff_of_mem hp₂).mp hline
  obtain ⟨s, hs⟩ := hv _ hp₁
  obtain ⟨t, ht⟩ := hv _ hp₃
  obtain ⟨hsx, hsy⟩ := Prod.ext_iff.mp hs
  obtain ⟨htx, hty⟩ := Prod.ext_iff.mp ht
  simp only [polar, vadd_eq_add, Prod.fst_add, Prod.snd_add, Prod.smul_fst, Prod.smul_snd,
    smul_eq_mul] at hsx hsy htx hty
  -- the area of the triangle, twice
  have harea : r₁ * r₂ * Real.sin (b - a) + r₂ * r₃ * Real.sin (c - b) =
      r₁ * r₃ * Real.sin (c - a) := by
    have hcross : (r₁ * Real.cos a - r₂ * Real.cos b) * (r₃ * Real.sin c - r₂ * Real.sin b) =
        (r₁ * Real.sin a - r₂ * Real.sin b) * (r₃ * Real.cos c - r₂ * Real.cos b) := by
      rw [hsx, hsy, htx, hty]
      ring
    rw [Real.sin_sub, Real.sin_sub, Real.sin_sub]
    linarith
  have hsplit : Real.sin (c - a) =
      Real.sin (b - a) * Real.cos (c - b) + Real.cos (b - a) * Real.sin (c - b) := by
    rw [← Real.sin_add]
    congr 1
    ring
  have hfirst : 0 < Real.sin (b - a) := Real.sin_pos_of_pos_of_lt_pi (by linarith) (by linarith)
  have hsecond : 0 < Real.sin (c - b) := Real.sin_pos_of_pos_of_lt_pi (by linarith) (by linarith)
  have hchord : Real.sin (c - a) ≤ Real.sin (b - a) + Real.sin (c - b) := by
    rw [hsplit]
    have hleft := mul_le_of_le_one_right hfirst.le (Real.cos_le_one (c - b))
    have hright := mul_le_of_le_one_left hsecond.le (Real.cos_le_one (b - a))
    linarith
  have hshort : r₁ * r₃ * Real.sin (b - a) < r₁ * r₂ * Real.sin (b - a) :=
    mul_lt_mul_of_pos_right (mul_lt_mul_of_pos_left h₃₂ h₁) hfirst
  have hshort' : r₁ * r₃ * Real.sin (c - b) < r₂ * r₃ * Real.sin (c - b) :=
    mul_lt_mul_of_pos_right (mul_lt_mul_of_pos_right h₁₂ h₃) hsecond
  have hwhole := mul_le_mul_of_nonneg_left hchord (mul_pos h₁ h₃).le
  rw [mul_add] at hwhole
  linarith

end AnalyticsEngine.Library
