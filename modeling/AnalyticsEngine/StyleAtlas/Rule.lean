import AnalyticsEngine.StyleAtlas.Lifecycle
import Mathlib.Algebra.BigOperators.Intervals
import Mathlib.Algebra.Order.BigOperators.Group.Finset
import Mathlib.Data.Rat.Cast.Order
import Mathlib.LinearAlgebra.Matrix.Notation
import Mathlib.Tactic.FinCases

/-!
# insights/style_lifecycle.py: the matrix and the documented rule

`stages` fills all rows of the matrix year by year. Its carried trough is the minimum over the
spell of inactive years the rule speaks of (`stageLoop_trough`), and the emergence index, taken
over the whole row, is reached at a year exactly when the rule's has (`emergenceIndex_le_iff`).
-/

namespace AnalyticsEngine.StyleAtlas

/-! ### stages, over a matrix -/

section
variable {F : Type*} [LinearOrder F] (ar : YearArithmetic F) (rule : LifecycleRule F)
  {rows years : ℕ}

/-- A row of the matrix. -/
def rowOf (counts : Matrix (Fin rows) (Fin years) F) (r : Fin rows) (i : ℕ) : F :=
  if h : i < years then counts r ⟨i, h⟩ else ar.ofRat 0

/-- `out` and `trough`. -/
structure StageArrays (F : Type*) (rows years : ℕ) where
  out : Fin rows → Fin years → Stage
  trough : Fin rows → WithTop F

/- `out[mask, y] = stage`. -/
def assign (out : Fin rows → Fin years → Stage) (mask : Fin rows → Bool) (y : ℕ) (stage : Stage) :
    Fin rows → Fin years → Stage :=
  fun r k => if (k : ℕ) = y ∧ mask r then stage else out r k

/- One year of the loop. -/
def stageYear (c peak : Fin rows → ℕ → F) (y0 : Fin rows → ℕ) (arrays : StageArrays F rows years)
    (y : ℕ) : StageArrays F rows years :=
  let live := fun r => decide (y0 r ≤ y)
  let active := fun r => live r && decide (ar.mul rule.activeShare (peak r y) ≤ c r y)
  let young := fun r => decide (ar.ofRat ((y : ℤ) - y0 r : ℤ) < rule.establishYears)
  let out := assign arrays.out (fun r => active r && young r) y .emerging
  let out := assign out (fun r => active r && !young r) y .established
  let trough := fun r => if active r || !live r then ⊤ else min (arrays.trough r) (c r y)
  let low := fun r => live r && !active r
  let reviving := fun r => low r && aboveTrough ar rule (c r y) (trough r) &&
    decide (ar.mul rule.reviveFloor (peak r y) ≤ c r y)
  let out := assign out (fun r => low r && !reviving r) y .declining
  let out := assign out reviving y .reviving
  ⟨out, trough⟩

def stageMatrix (counts : Matrix (Fin rows) (Fin years) F) : Fin rows → Fin years → Stage :=
  let c := fun r => trailingMean ar (rowOf ar counts r) rule.window
  let y0 := fun r => emergenceIndex ar rule (rowOf ar counts r) years
  let peak := fun r => accumulateMax (c r)
  ((List.range years).foldl (stageYear ar rule c peak y0)
    ⟨fun _ _ => .absent, fun _ => ⊤⟩).out

variable {ar rule}

theorem stageLoop_length {c peak : ℕ → F} {y0 : ℕ} (y : ℕ) :
    (stageLoop ar rule c peak y0 y).1.length = y := by
  induction y with
  | zero => rfl
  | succ y ih =>
    unfold stageLoop
    simp only [List.length_append, List.length_singleton, ih]

/- What one year makes of the trough, and its stage under the trough it leaves. -/
def yearTrough (ar : YearArithmetic F) (rule : LifecycleRule F) (c peak : ℕ → F) (y0 y : ℕ)
    (trough : WithTop F) : WithTop F :=
  if (y0 ≤ y ∧ ar.mul rule.activeShare (peak y) ≤ c y) ∨ ¬y0 ≤ y then ⊤ else min trough (c y)

def yearStage (ar : YearArithmetic F) (rule : LifecycleRule F) (c peak : ℕ → F) (y0 y : ℕ)
    (trough : WithTop F) : Stage :=
  if y0 ≤ y ∧ ar.mul rule.activeShare (peak y) ≤ c y then
    if ar.ofRat (y - y0 : ℕ) < rule.establishYears then .emerging else .established
  else if y0 ≤ y then
    if aboveTrough ar rule (c y) trough ∧ ar.mul rule.reviveFloor (peak y) ≤ c y then .reviving
    else .declining
  else .absent

theorem stageLoop_succ (c peak : ℕ → F) (y0 y : ℕ) :
    stageLoop ar rule c peak y0 (y + 1) =
      ((stageLoop ar rule c peak y0 y).1 ++ [yearStage ar rule c peak y0 y
        (yearTrough ar rule c peak y0 y (stageLoop ar rule c peak y0 y).2)],
        yearTrough ar rule c peak y0 y (stageLoop ar rule c peak y0 y).2) := rfl

/-- A year's stage stays as it was when the year was the last. -/
theorem stageLoop_getElem {c peak : ℕ → F} {y0 y k : ℕ} (hy : y < k) :
    (stageLoop ar rule c peak y0 k).1[y]? =
      some (yearStage ar rule c peak y0 y (stageLoop ar rule c peak y0 (y + 1)).2) := by
  induction k with
  | zero => omega
  | succ k ih =>
    have hlength : (stageLoop ar rule c peak y0 k).1.length = k := stageLoop_length k
    rw [stageLoop_succ]
    rcases Nat.lt_or_ge y k with hbefore | hnow
    · rw [List.getElem?_append_left (by omega), ih hbefore]
    · obtain rfl : y = k := by omega
      rw [List.getElem?_append_right (by omega), hlength, Nat.sub_self, List.getElem?_cons_zero]
      rfl

theorem stageYear_trough (c peak : Fin rows → ℕ → F) (y0 : Fin rows → ℕ)
    (arrays : StageArrays F rows years) (y : ℕ) (r : Fin rows) :
    (stageYear ar rule c peak y0 arrays y).trough r =
      yearTrough ar rule (c r) (peak r) (y0 r) y (arrays.trough r) := by
  unfold stageYear yearTrough
  by_cases hlive : y0 r ≤ y <;>
    by_cases hactive : ar.mul rule.activeShare (peak r y) ≤ c r y <;> simp [hlive, hactive]

/-- A year writes its own column, and only where the row has emerged. -/
theorem stageYear_out (c peak : Fin rows → ℕ → F) (y0 : Fin rows → ℕ)
    (arrays : StageArrays F rows years) (y : ℕ) (r : Fin rows) (k : Fin years) :
    (stageYear ar rule c peak y0 arrays y).out r k =
      if (k : ℕ) = y ∧ y0 r ≤ y then
        yearStage ar rule (c r) (peak r) (y0 r) y
          (yearTrough ar rule (c r) (peak r) (y0 r) y (arrays.trough r))
      else arrays.out r k := by
  rw [← stageYear_trough]
  unfold stageYear yearStage assign
  simp only
  by_cases hk : (k : ℕ) = y
  · by_cases hlive : y0 r ≤ y
    · by_cases hactive : ar.mul rule.activeShare (peak r y) ≤ c r y
      · by_cases hyoung : ar.ofRat ((y : ℚ) - y0 r) < rule.establishYears <;>
          simp [hk, hlive, hactive, hyoung]
      · by_cases hfloor : ar.mul rule.reviveFloor (peak r y) ≤ c r y <;>
          cases habove : aboveTrough ar rule (c r y) (min (arrays.trough r) (c r y)) <;>
          simp [hk, hlive, hactive, hfloor, habove]
    · simp [hk, hlive]
  · simp [hk]

/-- Each row of the matrix runs the loop of its own counts. -/
theorem stageArrays_rows (c peak : Fin rows → ℕ → F) (y0 : Fin rows → ℕ) (y : ℕ) (r : Fin rows) :
    let arrays : StageArrays F rows years := (List.range y).foldl (stageYear ar rule c peak y0)
      ⟨fun _ _ => .absent, fun _ => ⊤⟩
    let loop := stageLoop ar rule (c r) (peak r) (y0 r) y
    arrays.trough r = loop.2 ∧ ∀ k, arrays.out r k = (loop.1[(k : ℕ)]?).getD .absent := by
  induction y with
  | zero => exact ⟨rfl, fun _ => rfl⟩
  | succ y ih =>
    simp only [List.range_succ, List.foldl_append, List.foldl_cons, List.foldl_nil] at ih ⊢
    obtain ⟨htrough, hout⟩ := ih
    have hlength : (stageLoop ar rule (c r) (peak r) (y0 r) y).1.length = y := stageLoop_length y
    rw [stageLoop_succ, stageYear_trough, htrough]
    refine ⟨rfl, fun k => ?_⟩
    rw [stageYear_out, htrough, hout]
    rcases lt_trichotomy (k : ℕ) y with hbefore | hnow | hafter
    · rw [if_neg (by omega), List.getElem?_append_left (by omega)]
    · rw [List.getElem?_append_right (by omega), hlength, hnow, Nat.sub_self]
      split_ifs with hwrites
      · rfl
      · have hquiet : ¬y0 r ≤ y := fun hlive => hwrites ⟨rfl, hlive⟩
        rw [List.getElem?_eq_none (by omega)]
        simp [yearStage, hquiet]
    · rw [if_neg (by omega), List.getElem?_eq_none (by omega),
        List.getElem?_eq_none (by rw [List.length_append, List.length_singleton]; omega)]

theorem stageMatrix_row (counts : Matrix (Fin rows) (Fin years) F) (r : Fin rows) (k : Fin years) :
    stageMatrix ar rule counts r k =
      ((stages ar rule (rowOf ar counts r) years)[(k : ℕ)]?).getD .absent :=
  (stageArrays_rows _ _ _ years r).2 k

end

/-! ### The documented rule -/

section
variable {K : Type*} [Field K] [LinearOrder K] [IsStrictOrderedRing K]

/-- Exact arithmetic, in any ordered field. -/
def exactArithmetic (K : Type*) [Field K] [LinearOrder K] [IsStrictOrderedRing K] :
    YearArithmetic K where
  ofRat q := (q : K)
  add := (· + ·)
  sub := (· - ·)
  mul := (· * ·)
  div := (· / ·)
  zero_add a := by rw [Rat.cast_zero, zero_add]
  sub_zero a := by rw [Rat.cast_zero, sub_zero]
  zero_div _ _ := by rw [Rat.cast_zero, zero_div]
  ofRat_nonneg n := by simp
  ofRat_lt n m h _ := by simpa using h
  le_add a b h := le_add_of_nonneg_right (by simpa using h)
  sub_nonneg a b h := by simpa using h
  div_nonneg a n h _ := by simpa using div_nonneg (by simpa using h) (Nat.cast_nonneg n)

section Documented
variable (rule : LifecycleRule K) (counts : ℕ → K) (y : ℕ)

/- The years of the window that ends at a year. -/
def windowYears (window y : ℕ) : Finset ℕ := Finset.Ico (y + 1 - window) (y + 1)

/-- `c(y)`. -/
def meanUpTo : K :=
  (∑ i ∈ windowYears rule.window y, counts i) / (windowYears rule.window y).card

/-- `cum(y)`. -/
def releasesUpTo : K := ∑ i ∈ Finset.range (y + 1), counts i

/-- A year `y0` has come. -/
def Emerged : Prop := ∃ z, z ≤ y ∧ rule.emergeTotal ≤ releasesUpTo counts z

instance : Decidable (Emerged rule counts y) :=
  inferInstanceAs (Decidable (∃ z, z ≤ y ∧ rule.emergeTotal ≤ releasesUpTo counts z))

variable {rule counts y} in
/-- `y0`. -/
def yearEmerged (h : Emerged rule counts y) : ℕ := Nat.find h

/-- `P(y)`. -/
def peakUpTo : K :=
  (Finset.range (y + 1)).sup' ⟨y, Finset.self_mem_range_succ y⟩ (meanUpTo rule counts)

def Active : Prop :=
  Emerged rule counts y ∧ rule.activeShare * peakUpTo rule counts y ≤ meanUpTo rule counts y

instance : Decidable (Active rule counts y) := inferInstanceAs (Decidable (_ ∧ _))

/- The emerged years without an active one up to this year. -/
def spell : Finset ℕ :=
  (Finset.range (y + 1)).filter fun z =>
    ∀ k ∈ Finset.Icc z y, Emerged rule counts k ∧ ¬Active rule counts k

/-- `T(y)`, of a year that is itself inactive. -/
def troughUpTo : K :=
  (insert y (spell rule counts y)).inf' (Finset.insert_nonempty _ _) (meanUpTo rule counts)

/-- The stage as the module's docstring defines it. -/
def documentedStage : Stage :=
  if h : Emerged rule counts y then
    if rule.activeShare * peakUpTo rule counts y ≤ meanUpTo rule counts y then
      if ((y - yearEmerged h : ℕ) : K) < rule.establishYears then .emerging else .established
    else if rule.reviveRatio * troughUpTo rule counts y ≤ meanUpTo rule counts y ∧
        rule.reviveFloor * peakUpTo rule counts y ≤ meanUpTo rule counts y then .reviving
    else .declining
  else .absent

end Documented

/-! ### The year's sums, means and peak -/

section
variable {rule : LifecycleRule K} {counts : ℕ → K} {y : ℕ}

theorem cumsum_eq (counts : ℕ → K) (y : ℕ) :
    cumsum (exactArithmetic K) counts y = releasesUpTo counts y := by
  unfold releasesUpTo
  induction y with
  | zero => simp [cumsum]
  | succ y ih =>
    rw [Finset.sum_range_succ, ← ih]
    rfl

theorem trailingMean_eq (hwindow : 1 ≤ rule.window) :
    trailingMean (exactArithmetic K) counts rule.window = meanUpTo rule counts := by
  funext y
  have hsum : (if y < rule.window then cumsum (exactArithmetic K) counts y
      else cumsum (exactArithmetic K) counts y - cumsum (exactArithmetic K) counts (y - rule.window)) =
      ∑ i ∈ windowYears rule.window y, counts i := by
    unfold windowYears
    rw [cumsum_eq, cumsum_eq]
    unfold releasesUpTo
    split_ifs with hstart
    · rw [show y + 1 - rule.window = 0 by omega, Finset.range_eq_Ico]
    · rw [show y + 1 - rule.window = y - rule.window + 1 by omega,
        Finset.sum_Ico_eq_sub _ (by omega)]
  have hcard : ((min (y + 1) rule.window : ℕ) : ℚ) = (((windowYears rule.window y).card : ℕ) : ℚ) := by
    unfold windowYears
    rw [Nat.card_Ico]
    congr 1
    omega
  unfold meanUpTo
  rw [← hsum]
  change _ / (((min (y + 1) rule.window : ℕ) : ℚ) : K) = _
  rw [hcard, Rat.cast_natCast]
  rfl

omit [IsStrictOrderedRing K] in
theorem accumulateMax_eq (rule : LifecycleRule K) (counts : ℕ → K) (y : ℕ) :
    accumulateMax (meanUpTo rule counts) y = peakUpTo rule counts y := by
  unfold peakUpTo
  induction y with
  | zero => simp [accumulateMax]
  | succ y ih =>
    rw [accumulateMax, ih, max_comm]
    symm
    simp only [Finset.range_add_one (n := y + 1)]
    exact Finset.sup'_insert _ _

theorem emergenceIndex_le_iff {years : ℕ} (hy : y < years) :
    emergenceIndex (exactArithmetic K) rule counts years ≤ y ↔ Emerged rule counts y := by
  unfold emergenceIndex Emerged
  simp only [cumsum_eq]
  cases hfind : (List.range years).find? fun y => decide (rule.emergeTotal ≤ releasesUpTo counts y) with
  | none =>
    rw [List.find?_eq_none] at hfind
    refine iff_of_false (by simpa using hy) ?_
    rintro ⟨z, hz, htotal⟩
    exact hfind z (List.mem_range.mpr (by omega)) (decide_eq_true htotal)
  | some i =>
    rw [List.find?_range_eq_some] at hfind
    obtain ⟨htotal, hi, hbefore⟩ := hfind
    rw [Option.getD_some]
    constructor
    · intro hle
      exact ⟨i, hle, of_decide_eq_true htotal⟩
    · rintro ⟨z, hz, hreached⟩
      by_contra hlt
      have hno := hbefore z (by omega)
      simp [hreached] at hno

theorem emergenceIndex_eq {years : ℕ} (hy : y < years) (h : Emerged rule counts y) :
    emergenceIndex (exactArithmetic K) rule counts years = yearEmerged h := by
  obtain ⟨hle, htotal⟩ : yearEmerged h ≤ y ∧ rule.emergeTotal ≤ releasesUpTo counts (yearEmerged h) :=
    Nat.find_spec h
  have hindex : emergenceIndex (exactArithmetic K) rule counts years ≤ y :=
    (emergenceIndex_le_iff hy).mpr h
  apply le_antisymm
  · exact (emergenceIndex_le_iff (by omega)).mpr ⟨yearEmerged h, le_refl _, htotal⟩
  · obtain ⟨z, hz, hreached⟩ := (emergenceIndex_le_iff (show emergenceIndex (exactArithmetic K) rule
      counts years < years by omega)).mp (le_refl _)
    exact (Nat.find_min' h ⟨by omega, hreached⟩).trans hz

/-! ### The trough -/

omit [IsStrictOrderedRing K] in
theorem spell_insert_succ (hlow : Emerged rule counts (y + 1) ∧ ¬Active rule counts (y + 1)) :
    insert (y + 1) (spell rule counts (y + 1)) = insert (y + 1) (spell rule counts y) := by
  ext z
  unfold spell
  simp only [Finset.mem_insert, Finset.mem_filter, Finset.mem_range, Finset.mem_Icc]
  constructor
  · rintro (rfl | ⟨hz, hall⟩)
    · exact Or.inl rfl
    · rcases Nat.lt_or_ge z (y + 1) with hbefore | hnow
      · exact Or.inr ⟨hbefore, fun k hk => hall k (by omega)⟩
      · exact Or.inl (by omega)
  · rintro (rfl | ⟨hz, hall⟩)
    · exact Or.inl rfl
    · refine Or.inr ⟨by omega, fun k hk => ?_⟩
      rcases Nat.lt_or_ge k (y + 1) with hbefore | hnow
      · exact hall k (by omega)
      · obtain rfl : k = y + 1 := by omega
        exact hlow

omit [IsStrictOrderedRing K] in
theorem spell_of_not_low (hlow : ¬(Emerged rule counts y ∧ ¬Active rule counts y)) :
    spell rule counts y = ∅ := by
  unfold spell
  rw [Finset.filter_eq_empty_iff]
  intro z hz hall
  exact hlow (hall y (Finset.mem_Icc.mpr ⟨by rw [Finset.mem_range] at hz; omega, le_refl _⟩))

omit [IsStrictOrderedRing K] in
theorem mem_spell_self (hlow : Emerged rule counts y ∧ ¬Active rule counts y) :
    y ∈ spell rule counts y := by
  unfold spell
  rw [Finset.mem_filter]
  refine ⟨Finset.self_mem_range_succ y, fun k hk => ?_⟩
  obtain rfl := le_antisymm (Finset.mem_Icc.mp hk).2 (Finset.mem_Icc.mp hk).1
  exact hlow

omit [IsStrictOrderedRing K] in
theorem troughUpTo_zero (rule : LifecycleRule K) (counts : ℕ → K) :
    troughUpTo rule counts 0 = meanUpTo rule counts 0 := by
  have hspell : insert 0 (spell rule counts 0) = {0} := by
    ext z
    unfold spell
    simp only [Finset.mem_insert, Finset.mem_filter, Finset.mem_range, Finset.mem_singleton]
    omega
  unfold troughUpTo
  simp only [hspell, Finset.inf'_singleton]

omit [IsStrictOrderedRing K] in
theorem troughUpTo_succ (hlow : Emerged rule counts (y + 1) ∧ ¬Active rule counts (y + 1)) :
    troughUpTo rule counts (y + 1) =
      if Emerged rule counts y ∧ ¬Active rule counts y then
        min (meanUpTo rule counts (y + 1)) (troughUpTo rule counts y)
      else meanUpTo rule counts (y + 1) := by
  unfold troughUpTo
  simp only [spell_insert_succ hlow]
  split_ifs with hbefore
  · simp only [Finset.insert_eq_of_mem (mem_spell_self hbefore)]
    exact Finset.inf'_insert _ _
  · simp only [spell_of_not_low hbefore, insert_empty_eq, Finset.inf'_singleton]

theorem exactArithmetic_mul (a b : K) : (exactArithmetic K).mul a b = a * b := rfl

theorem yearTrough_eq {years : ℕ} (hy : y < years) (trough : WithTop K) :
    yearTrough (exactArithmetic K) rule (meanUpTo rule counts) (peakUpTo rule counts)
      (emergenceIndex (exactArithmetic K) rule counts years) y trough =
      if Emerged rule counts y ∧ ¬Active rule counts y then
        min trough ((meanUpTo rule counts y : K) : WithTop K)
      else ⊤ := by
  unfold yearTrough Active
  simp only [emergenceIndex_le_iff hy, exactArithmetic_mul]
  by_cases hemerged : Emerged rule counts y <;>
    by_cases hshare : rule.activeShare * peakUpTo rule counts y ≤ meanUpTo rule counts y <;>
    simp [hemerged, hshare]

/-- The carried trough is the minimum over the spell, and is reset outside of one. -/
theorem stageLoop_trough {years : ℕ} (hy : y < years) :
    (stageLoop (exactArithmetic K) rule (meanUpTo rule counts) (peakUpTo rule counts)
      (emergenceIndex (exactArithmetic K) rule counts years) (y + 1)).2 =
      if Emerged rule counts y ∧ ¬Active rule counts y then
        ((troughUpTo rule counts y : K) : WithTop K)
      else ⊤ := by
  induction y with
  | zero =>
    rw [stageLoop_succ, troughUpTo_zero]
    simp only
    rw [yearTrough_eq hy]
    exact if_congr Iff.rfl (min_eq_right le_top) rfl
  | succ y ih =>
    rw [stageLoop_succ]
    simp only
    rw [yearTrough_eq hy, ih (by omega)]
    by_cases hlow : Emerged rule counts (y + 1) ∧ ¬Active rule counts (y + 1)
    · rw [if_pos hlow, if_pos hlow, troughUpTo_succ hlow]
      split_ifs with hbefore
      · rw [min_comm, WithTop.coe_min]
      · exact min_eq_right le_top
    · rw [if_neg hlow, if_neg hlow]

/-- A year's stage, with the trough of its spell. -/
theorem yearStage_eq {years : ℕ} (hy : y < years) {trough : WithTop K}
    (htrough : Emerged rule counts y ∧ ¬Active rule counts y →
      trough = ((troughUpTo rule counts y : K) : WithTop K)) :
    yearStage (exactArithmetic K) rule (meanUpTo rule counts) (peakUpTo rule counts)
      (emergenceIndex (exactArithmetic K) rule counts years) y trough =
      documentedStage rule counts y := by
  unfold yearStage documentedStage
  simp only [emergenceIndex_le_iff hy, exactArithmetic_mul]
  by_cases hemerged : Emerged rule counts y
  · have hage : (exactArithmetic K).ofRat
        ((y - emergenceIndex (exactArithmetic K) rule counts years : ℕ) : ℚ) =
        ((y - yearEmerged hemerged : ℕ) : K) := by
      rw [emergenceIndex_eq hy hemerged]
      exact Rat.cast_natCast _
    rw [hage, dif_pos hemerged]
    by_cases hshare : rule.activeShare * peakUpTo rule counts y ≤ meanUpTo rule counts y
    · rw [if_pos ⟨hemerged, hshare⟩, if_pos hshare]
    · have habove : aboveTrough (exactArithmetic K) rule (meanUpTo rule counts y) trough = true ↔
          rule.reviveRatio * troughUpTo rule counts y ≤ meanUpTo rule counts y := by
        rw [htrough ⟨hemerged, fun hactive => hshare hactive.2⟩]
        exact decide_eq_true_iff
      rw [if_neg (fun h => hshare h.2), if_neg hshare, if_pos hemerged]
      exact if_congr (and_congr_left fun _ => habove) rfl rfl
  · rw [dif_neg hemerged, if_neg (fun h => hemerged h.1), if_neg hemerged]

theorem stages_eq (hwindow : 1 ≤ rule.window) {years : ℕ} (hy : y < years) :
    (stages (exactArithmetic K) rule counts years)[y]? = some (documentedStage rule counts y) := by
  unfold stages
  simp only
  rw [trailingMean_eq hwindow, show accumulateMax (meanUpTo rule counts) = peakUpTo rule counts from
    funext (accumulateMax_eq rule counts), stageLoop_getElem hy, yearStage_eq hy]
  intro hlow
  rw [stageLoop_trough hy, if_pos hlow]

/-! ### Years up to a year alone -/

section
variable {counts' : ℕ → K} (h : ∀ i ≤ y, counts i = counts' i)
include h
omit [IsStrictOrderedRing K]

omit [LinearOrder K] in
theorem meanUpTo_congr : meanUpTo rule counts y = meanUpTo rule counts' y := by
  unfold meanUpTo windowYears
  congr 1
  apply Finset.sum_congr rfl
  intro i hi
  rw [Finset.mem_Ico] at hi
  exact h i (by omega)

omit [LinearOrder K] in
theorem releasesUpTo_congr : releasesUpTo counts y = releasesUpTo counts' y := by
  unfold releasesUpTo
  apply Finset.sum_congr rfl
  intro i hi
  rw [Finset.mem_range] at hi
  exact h i (by omega)

theorem reached_congr (z : ℕ) : (z ≤ y ∧ rule.emergeTotal ≤ releasesUpTo counts z) ↔
    z ≤ y ∧ rule.emergeTotal ≤ releasesUpTo counts' z := by
  refine and_congr_right fun hz => ?_
  rw [releasesUpTo_congr fun i hi => h i (hi.trans hz)]

theorem emerged_congr : Emerged rule counts y ↔ Emerged rule counts' y :=
  exists_congr (reached_congr h)

theorem peakUpTo_congr : peakUpTo rule counts y = peakUpTo rule counts' y := by
  unfold peakUpTo
  apply Finset.sup'_congr _ rfl
  intro z hz
  rw [Finset.mem_range] at hz
  exact meanUpTo_congr fun i hi => h i (by omega)

theorem active_congr : Active rule counts y ↔ Active rule counts' y := by
  unfold Active
  rw [emerged_congr h, peakUpTo_congr h, meanUpTo_congr h]

theorem spell_congr : spell rule counts y = spell rule counts' y := by
  unfold spell
  apply Finset.filter_congr
  intro z _
  refine forall₂_congr fun k hk => ?_
  have hbefore : ∀ i ≤ k, counts i = counts' i := fun i hi =>
    h i (hi.trans (Finset.mem_Icc.mp hk).2)
  rw [emerged_congr hbefore, active_congr hbefore]

omit h in
theorem spell_le {z : ℕ} (hz : z ∈ spell rule counts y) : z ≤ y := by
  unfold spell at hz
  rw [Finset.mem_filter, Finset.mem_range] at hz
  omega

omit [Field K] h in
theorem least_insert_congr {s t : Finset ℕ} (hst : s = t) (f : ℕ → K) :
    (insert y s).inf' (Finset.insert_nonempty y s) f =
      (insert y t).inf' (Finset.insert_nonempty y t) f := by
  rw [hst]

theorem troughUpTo_congr : troughUpTo rule counts y = troughUpTo rule counts' y := by
  have hmean : ∀ z ∈ insert y (spell rule counts' y), meanUpTo rule counts z = meanUpTo rule counts' z := by
    intro z hz
    have hle : z ≤ y := by
      rcases Finset.mem_insert.mp hz with rfl | hz
      · exact le_refl _
      · exact spell_le hz
    exact meanUpTo_congr fun i hi => h i (hi.trans hle)
  unfold troughUpTo
  exact (least_insert_congr (spell_congr h) _).trans (Finset.inf'_congr _ rfl hmean)

theorem documentedStage_congr : documentedStage rule counts y = documentedStage rule counts' y := by
  have hemerged : Emerged rule counts y ↔ Emerged rule counts' y := emerged_congr h
  unfold documentedStage
  rw [peakUpTo_congr h, meanUpTo_congr h, troughUpTo_congr h]
  by_cases hcounts : Emerged rule counts y
  · have hyear : yearEmerged hcounts = yearEmerged (hemerged.mp hcounts) :=
      Nat.find_congr' fun {z} => reached_congr h z
    rw [dif_pos hcounts, dif_pos (hemerged.mp hcounts), hyear]
  · rw [dif_neg hcounts, dif_neg (mt hemerged.mpr hcounts)]

end

end

/-- The matrix holds the documented stages, and no other row or later year is in them. -/
theorem stageMatrix_documented {rows years : ℕ} (counts : Matrix (Fin rows) (Fin years) K)
    {rule : LifecycleRule K} (hwindow : 1 ≤ rule.window) (r : Fin rows) (y : Fin years) :
    stageMatrix (exactArithmetic K) rule counts r y =
        documentedStage rule (rowOf (exactArithmetic K) counts r) y ∧
      ∀ {rows' years' : ℕ} (counts' : Matrix (Fin rows') (Fin years') K) (r' : Fin rows')
        (y' : Fin years'), (y' : ℕ) = y →
        (∀ (i : Fin years) (i' : Fin years'), (i : ℕ) = i' → (i : ℕ) ≤ y → counts r i = counts' r' i') →
        stageMatrix (exactArithmetic K) rule counts' r' y' =
          stageMatrix (exactArithmetic K) rule counts r y := by
  have hstage : ∀ {rows years : ℕ} (counts : Matrix (Fin rows) (Fin years) K) (r : Fin rows)
      (y : Fin years), stageMatrix (exactArithmetic K) rule counts r y =
        documentedStage rule (rowOf (exactArithmetic K) counts r) y := by
    intro rows years counts r y
    rw [stageMatrix_row, stages_eq hwindow y.isLt, Option.getD_some]
  refine ⟨hstage counts r y, ?_⟩
  intro rows' years' counts' r' y' hy hsame
  rw [hstage, hstage, hy]
  symm
  apply documentedStage_congr
  intro i hi
  have hlt : i < years := by omega
  have hlt' : i < years' := by omega
  unfold rowOf
  rw [dif_pos hlt, dif_pos hlt']
  exact hsame ⟨i, hlt⟩ ⟨i, hlt'⟩ rfl hi

theorem stageMatrix_documented_longWindow :
    stageMatrix (exactArithmetic ℚ) (lifecycleRule (exactArithmetic ℚ)) !![10, 20; 0, 30] 0 1 =
      documentedStage (lifecycleRule (exactArithmetic ℚ))
        (rowOf (exactArithmetic ℚ) !![10, 20; 0, 30] 0) 1 ∧
    stageMatrix (exactArithmetic ℚ) (lifecycleRule (exactArithmetic ℚ)) !![10, 20, 7] 0 1 =
      stageMatrix (exactArithmetic ℚ) (lifecycleRule (exactArithmetic ℚ)) !![10, 20; 0, 30] 0 1 := by
  have hwindow : 1 ≤ (lifecycleRule (exactArithmetic ℚ)).window := by decide
  have hboth := stageMatrix_documented !![10, 20; 0, 30] hwindow 0 1
  refine ⟨hboth.1, hboth.2 !![10, 20, 7] 0 1 rfl ?_⟩
  intro i i' hi hle
  fin_cases i <;> fin_cases i' <;> first | rfl | cases hi

end

end AnalyticsEngine.StyleAtlas
