import AnalyticsEngine.Library.Rounding
import AnalyticsEngine.StyleAtlas.Legal

/-!
# Lifecycle histories in doubles

Products of doubles underflow, against `LegalArithmetic.mul_pos`: a style without releases may then
be revived over a floor of zero.
-/

namespace AnalyticsEngine.StyleAtlas
open Library

/-- The doubles but for overflow, with one zero. -/
abbrev Double : Type := {x : ℚ // InFormat 52 (-1074) x}

def toDouble (x : ℚ) : Double := ⟨nearest 52 (-1074) x, nearest_mem _ _ x⟩

theorem toDouble_coe (a : Double) : toDouble a = a := Subtype.ext (nearest_of_mem a.2)

theorem toDouble_mono : Monotone toDouble := fun _ _ h => nearest_mono 52 (-1074) h

@[simp] theorem toDouble_zero : ((toDouble 0 : Double) : ℚ) = 0 := nearest_zero

theorem le_toDouble {a : Double} {x : ℚ} (h : (a : ℚ) ≤ x) : a ≤ toDouble x := by
  have hmono := toDouble_mono h
  rwa [toDouble_coe] at hmono

theorem toDouble_nonneg {x : ℚ} (h : 0 ≤ x) : toDouble 0 ≤ toDouble x := toDouble_mono h

theorem toDouble_natCast {n : ℕ} (h : n ≤ 2 ^ 53) : ((toDouble n : Double) : ℚ) = n := by
  refine nearest_of_mem ?_
  rcases h.eq_or_lt with rfl | hlt
  · exact ⟨1, 53, by decide, by decide, by norm_num⟩
  · exact ⟨n, 0, by simpa using hlt, by decide, by simp⟩

/-- The operations of numpy, each rounded once. -/
def doubleArithmetic : YearArithmetic Double where
  ofRat := toDouble
  add a b := toDouble (a + b)
  sub a b := toDouble (a - b)
  mul a b := toDouble (a * b)
  div a b := toDouble (a / b)
  zero_add a := by simp [toDouble_coe]
  sub_zero a := by simp [toDouble_coe]
  zero_div n _ := by simp
  ofRat_nonneg n := toDouble_nonneg (Nat.cast_nonneg n)
  ofRat_lt n m hnm hm := by
    refine Subtype.coe_lt_coe.mp ?_
    rw [toDouble_natCast (hnm.le.trans hm), toDouble_natCast hm]
    exact Nat.cast_lt.mpr hnm
  le_add a b hb := by
    have hb' : (0 : ℚ) ≤ b := by simpa using Subtype.coe_le_coe.mpr hb
    exact le_toDouble (le_add_of_nonneg_right hb')
  sub_nonneg a b h := toDouble_nonneg (sub_nonneg.mpr h)
  div_nonneg a n ha _ := by
    have ha' : (0 : ℚ) ≤ a := by simpa using Subtype.coe_le_coe.mpr ha
    exact toDouble_nonneg (div_nonneg ha' (nearest_nonneg (Nat.cast_nonneg n)))

def tinyFloor : LifecycleRule Double where
  emergeTotal := toDouble 1
  activeShare := toDouble (1 / 2)
  establishYears := toDouble 10
  reviveRatio := toDouble (3 / 2)
  reviveFloor := toDouble (2 ^ (-1074 : ℤ))
  window := 3
  provisionalYears := 2

def oneRelease : List YearCount := [⟨"bebop", 2000, 1⟩, ⟨"cool jazz", 2002, 1⟩]

theorem stages_tinyFloor : stages doubleArithmetic tinyFloor
    (countAt doubleArithmetic oneRelease 2000 "cool jazz") 9 =
      [.absent, .absent, .emerging, .emerging, .emerging, .reviving, .reviving, .reviving,
        .reviving] := by
  decide +kernel

/- A style whose mean has fallen to zero counts as revived in the year it stops being active: the
least double times a peak of a third is zero. -/
theorem styleLifecycles_revives :
    let ar := doubleArithmetic
    let lifecycles := styleLifecycles ar oneRelease 2008 tinyFloor
    (ar.ofRat 0 < tinyFloor.emergeTotal ∧ ar.ofRat 0 < tinyFloor.activeShare ∧
      tinyFloor.activeShare ≤ ar.ofRat 1 ∧ ar.ofRat 1 < tinyFloor.reviveRatio ∧
      ar.ofRat 0 < tinyFloor.reviveFloor ∧ 1 ≤ tinyFloor.window) ∧
    "cool jazz" ∈ lifecycles.styles ∧ lifecycles.stage "cool jazz" 2004 = some .emerging ∧
    lifecycles.stage "cool jazz" 2005 = some .reviving ∧
    ∀ emergence, ¬ LegalHistory lifecycles.firstYear 2008 emergence
      (lifecycles.stage "cool jazz") := by
  intro ar lifecycles
  have hrule : ar.ofRat 0 < tinyFloor.emergeTotal ∧ ar.ofRat 0 < tinyFloor.activeShare ∧
      tinyFloor.activeShare ≤ ar.ofRat 1 ∧ ar.ofRat 1 < tinyFloor.reviveRatio ∧
      ar.ofRat 0 < tinyFloor.reviveFloor ∧ 1 ≤ tinyFloor.window := by decide +kernel
  have hkept : keptRows oneRelease 2008 = oneRelease := by decide
  have hfirst : firstYearOf oneRelease 2008 = 2000 := by decide
  have hstyle : "cool jazz" ∈ (keptRows oneRelease 2008).map YearCount.style := by decide
  have hstage : ∀ year, lifecycles.stage "cool jazz" year =
      pyIndex [.absent, .absent, .emerging, .emerging, .emerging, .reviving, .reviving, .reviving,
        .reviving] (year - 2000) := by
    intro year
    have heq := stage_eq ar oneRelease 2008 tinyFloor "cool jazz" year
    simp only [hstyle, if_true] at heq
    rw [hkept, hfirst] at heq
    have hyears : yearsFrom 2000 2008 = 9 := by decide
    rw [hyears, stages_tinyFloor] at heq
    exact heq
  have hemerging : lifecycles.stage "cool jazz" 2004 = some .emerging := (hstage 2004).trans rfl
  have hreviving : lifecycles.stage "cool jazz" 2005 = some .reviving := (hstage 2005).trans rfl
  refine ⟨hrule, (mem_styles ar oneRelease 2008 tinyFloor "cool jazz").mp hstyle, hemerging,
    hreviving, fun emergence hlegal => ?_⟩
  have hfirstYear : lifecycles.firstYear = 2000 := hfirst
  have hdeclines := hlegal.declines 2005 (by rw [hfirstYear]; decide) (by decide) .reviving
    hreviving (Or.inr rfl) (Or.inr ⟨.emerging, hemerging, by simp [Stage.Inactive]⟩)
  cases hdeclines

end AnalyticsEngine.StyleAtlas
