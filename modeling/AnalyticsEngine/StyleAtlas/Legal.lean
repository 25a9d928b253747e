import AnalyticsEngine.StyleAtlas.Independence
import AnalyticsEngine.StyleAtlas.Rule
import Mathlib.Tactic.NormNum

/-!
# Legal lifecycle histories

The trough of a year that begins a spell is the year's own mean (`spell_begins`), which no ratio
above one lifts it over. A year with no mean at all stays under the floor, as a peak is positive
once a style has emerged (`peak_pos`).
-/

namespace AnalyticsEngine.StyleAtlas

/-- Operations in which no product or quotient underflows: exact ones, and not those of doubles. -/
structure LegalArithmetic (F : Type*) [LinearOrder F] extends YearArithmetic F where
  ofRat_mono : Monotone ofRat
  div_pos : ∀ a, ∀ n : ℕ, ofRat 0 < a → 0 < n → ofRat 0 < div a (ofRat n)
  mul_pos : ∀ a b, ofRat 0 < a → ofRat 0 < b → ofRat 0 < mul a b
  lt_mul : ∀ a b, ofRat 1 < a → ofRat 0 < b → b < mul a b

def exactLegal (K : Type*) [Field K] [LinearOrder K] [IsStrictOrderedRing K] :
    LegalArithmetic K where
  toYearArithmetic := exactArithmetic K
  ofRat_mono := Rat.cast_mono
  div_pos a n ha hn := by
    simpa [exactArithmetic] using div_pos (by simpa [exactArithmetic] using ha) (Nat.cast_pos.mpr hn)
  mul_pos a b ha hb := by
    simpa [exactArithmetic] using mul_pos (by simpa [exactArithmetic] using ha)
      (by simpa [exactArithmetic] using hb)
  lt_mul a b ha hb := by
    simpa [exactArithmetic] using lt_mul_of_one_lt_left (by simpa [exactArithmetic] using hb)
      (by simpa [exactArithmetic] using ha)

def Stage.Inactive (stage : Stage) : Prop := stage = .declining ∨ stage = .reviving

/-- What a style's stages do over the years of the timeline. -/
structure LegalHistory (firstYear lastYear : ℤ) (emergence : Option ℤ) (stage : ℤ → Option Stage) :
    Prop where
  absent : ∀ year, firstYear ≤ year → year ≤ lastYear → ∃ s, stage year = some s ∧
    (s = .absent ↔ ∀ y0, emergence = some y0 → year < y0)
  matures : ∀ year later, firstYear ≤ year → year < later → later ≤ lastYear →
    stage year = some .established → stage later ≠ some .emerging
  declines : ∀ year, firstYear ≤ year → year ≤ lastYear → ∀ s, stage year = some s → s.Inactive →
    (year = firstYear ∨ ∃ before, stage (year - 1) = some before ∧ ¬before.Inactive) →
      s = .declining

section
variable {F : Type*} [LinearOrder F] {ar : YearArithmetic F} {rule : LifecycleRule F}
  {c peak counts : ℕ → F} {y0 y : ℕ}

/-! ### One year -/

theorem yearStage_absent {trough : WithTop F} :
    yearStage ar rule c peak y0 y trough = .absent ↔ y < y0 := by
  unfold yearStage
  by_cases hlive : y0 ≤ y
  · refine iff_of_false ?_ (by omega)
    split_ifs <;> simp
  · refine iff_of_true ?_ (by omega)
    simp [hlive]

theorem yearStage_emerging {trough : WithTop F}
    (h : yearStage ar rule c peak y0 y trough = .emerging) :
    ar.ofRat (y - y0 : ℕ) < rule.establishYears := by
  unfold yearStage at h
  split_ifs at h with hactive hyoung hlive hrevives
  exact hyoung

theorem yearStage_established {trough : WithTop F}
    (h : yearStage ar rule c peak y0 y trough = .established) :
    ¬ar.ofRat (y - y0 : ℕ) < rule.establishYears := by
  unfold yearStage at h
  split_ifs at h with hactive hyoung hlive hrevives
  exact hyoung

/-- A year that is not inactive leaves no trough. -/
theorem yearTrough_top {trough trough' : WithTop F}
    (h : ¬(yearStage ar rule c peak y0 y trough').Inactive) :
    yearTrough ar rule c peak y0 y trough = ⊤ := by
  unfold yearTrough
  unfold yearStage Stage.Inactive at h
  split_ifs at h ⊢ with hactive hreset <;> simp_all

end

/-! ### One row -/

section
variable {F : Type*} [LinearOrder F] {ar : LegalArithmetic F} {rule : LifecycleRule F}
  {c counts : ℕ → F} {y0 y : ℕ}

/-- The first year of a spell declines: it has no mean, and then it is under the floor, or its
mean is its own trough. -/
theorem spell_begins {peak : ℕ → F} (hratio : ar.ofRat 1 < rule.reviveRatio)
    (hfloor : ar.ofRat 0 < rule.reviveFloor) (hmean : ar.ofRat 0 ≤ c y)
    (hpeak : y0 ≤ y → ar.ofRat 0 < peak y)
    (hinactive : (yearStage ar.toYearArithmetic rule c peak y0 y
      (yearTrough ar.toYearArithmetic rule c peak y0 y ⊤)).Inactive) :
    yearStage ar.toYearArithmetic rule c peak y0 y
      (yearTrough ar.toYearArithmetic rule c peak y0 y ⊤) = .declining := by
  unfold Stage.Inactive at hinactive
  unfold yearStage yearTrough at hinactive ⊢
  by_cases hlive : y0 ≤ y
  · by_cases hactive : ar.mul rule.activeShare (peak y) ≤ c y
    · simp only [hlive, hactive, and_self, if_true] at hinactive
      split_ifs at hinactive <;> simp at hinactive
    · have hrevives : ¬((aboveTrough ar.toYearArithmetic rule (c y) (min ⊤ ((c y : F) : WithTop F))) ∧
          ar.mul rule.reviveFloor (peak y) ≤ c y) := by
        rw [min_eq_right le_top]
        rintro ⟨habove, hhigh⟩
        rcases hmean.eq_or_lt with hzero | hpos
        · have hlow := ar.mul_pos _ _ hfloor (hpeak hlive)
          rw [hzero] at hlow
          exact absurd hhigh (not_le.mpr hlow)
        · exact absurd (of_decide_eq_true habove) (not_le.mpr (ar.lt_mul _ _ hratio hpos))
      simp only [hlive, hactive, and_false, not_true_eq_false, or_false, if_false, if_true, hrevives]
  · simp [hlive] at hinactive

theorem le_accumulateMax (values : ℕ → F) {i k : ℕ} (hik : i ≤ k) :
    values i ≤ accumulateMax values k := by
  induction k with
  | zero =>
    obtain rfl := Nat.le_zero.mp hik
    exact le_refl _
  | succ k ih =>
    rcases Nat.lt_or_ge i (k + 1) with hbefore | hnow
    · exact (ih (by omega)).trans (le_max_left _ _)
    · obtain rfl : i = k + 1 := by omega
      exact le_max_right _ _

theorem cumsum_quiet {i : ℕ} (hquiet : ∀ k ≤ i, counts k = ar.ofRat 0) :
    cumsum ar.toYearArithmetic counts i = ar.ofRat 0 := by
  induction i with
  | zero => exact hquiet 0 (le_refl _)
  | succ i ih =>
    rw [cumsum, ih fun k hk => hquiet k (by omega), hquiet (i + 1) (le_refl _), ar.zero_add]

/-- The first year with releases has a mean. -/
theorem trailingMean_first {window i : ℕ} (hwindow : 1 ≤ window)
    (hquiet : ∀ k < i, counts k = ar.ofRat 0) (hfirst : ar.ofRat 0 < counts i) :
    ar.ofRat 0 < trailingMean ar.toYearArithmetic counts window i := by
  have hsum : cumsum ar.toYearArithmetic counts i = counts i := by
    cases i with
    | zero => rfl
    | succ i => rw [cumsum, cumsum_quiet fun k hk => hquiet k (by omega), ar.zero_add]
  unfold trailingMean
  simp only
  apply ar.div_pos _ _ _ (by omega)
  rw [hsum]
  split_ifs with hstart
  · exact hfirst
  · rw [cumsum_quiet fun k hk => hquiet k (by omega), ar.sub_zero]
    exact hfirst

/-- An emerged style has a peak. -/
theorem peak_pos (hpos : ∀ i, ar.ofRat 0 ≤ counts i) (hrule : ar.ofRat 0 < rule.emergeTotal)
    (hwindow : 1 ≤ rule.window) {years : ℕ} (hy : y < years)
    (hlive : emergenceIndex ar.toYearArithmetic rule counts years ≤ y) :
    ar.ofRat 0 < accumulateMax (trailingMean ar.toYearArithmetic counts rule.window) y := by
  have hreached : ∃ i, i ≤ y ∧ ar.ofRat 0 < counts i := by
    by_contra hnone
    have hquiet : ∀ k ≤ y, counts k = ar.ofRat 0 := fun k hk =>
      le_antisymm (not_lt.mp fun hlt => hnone ⟨k, hk, hlt⟩) (hpos k)
    unfold emergenceIndex at hlive
    cases hfind : (List.range years).find? fun y =>
        decide (rule.emergeTotal ≤ cumsum ar.toYearArithmetic counts y) with
    | none =>
      rw [hfind] at hlive
      exact absurd hlive (not_le.mpr hy)
    | some i =>
      rw [hfind] at hlive
      have htotal := List.find?_some hfind
      simp only [Option.getD_some] at hlive
      rw [decide_eq_true_iff, cumsum_quiet fun k hk => hquiet k (hk.trans hlive)] at htotal
      exact absurd htotal (not_le.mpr hrule)
  obtain ⟨hle, hfirst⟩ := Nat.find_spec hreached
  have hquiet : ∀ k < Nat.find hreached, counts k = ar.ofRat 0 := fun k hk =>
    le_antisymm (not_lt.mp fun hlt => Nat.find_min hreached hk ⟨hk.le.trans hle, hlt⟩) (hpos k)
  exact (trailingMean_first hwindow hquiet hfirst).trans_le (le_accumulateMax _ hle)

/-- The stage of a year in a row of counts. -/
def rowStage (ar : YearArithmetic F) (rule : LifecycleRule F) (counts : ℕ → F) (years i : ℕ) : Stage :=
  let c := trailingMean ar counts rule.window
  let y0 := emergenceIndex ar rule counts years
  yearStage ar rule c (accumulateMax c) y0 i (stageLoop ar rule c (accumulateMax c) y0 (i + 1)).2

theorem stages_getElem {years i : ℕ} (hi : i < years) :
    (stages ar.toYearArithmetic rule counts years)[i]? =
      some (rowStage ar.toYearArithmetic rule counts years i) := by
  unfold stages rowStage
  exact stageLoop_getElem hi

theorem rowStage_matures {years i k : ℕ} (hik : i ≤ k)
    (hestablished : rowStage ar.toYearArithmetic rule counts years i = .established) :
    rowStage ar.toYearArithmetic rule counts years k ≠ .emerging := by
  intro hemerging
  have hold := yearStage_established hestablished
  have hyoung := yearStage_emerging hemerging
  have hage : ar.ofRat (i - emergenceIndex ar.toYearArithmetic rule counts years : ℕ) ≤
      ar.ofRat (k - emergenceIndex ar.toYearArithmetic rule counts years : ℕ) :=
    ar.ofRat_mono (Nat.cast_le.mpr (by omega))
  exact hold (hage.trans_lt hyoung)

theorem rowStage_declines (hpos : ∀ i, ar.ofRat 0 ≤ counts i) (hwindow : 1 ≤ rule.window)
    (htotal : ar.ofRat 0 < rule.emergeTotal) (hratio : ar.ofRat 1 < rule.reviveRatio)
    (hfloor : ar.ofRat 0 < rule.reviveFloor) {years i : ℕ} (hi : i < years)
    (hinactive : (rowStage ar.toYearArithmetic rule counts years i).Inactive)
    (hbefore : ∀ k, i = k + 1 → ¬(rowStage ar.toYearArithmetic rule counts years k).Inactive) :
    rowStage ar.toYearArithmetic rule counts years i = .declining := by
  unfold rowStage at hinactive hbefore ⊢
  simp only at hinactive hbefore ⊢
  have htop : (stageLoop ar.toYearArithmetic rule
      (trailingMean ar.toYearArithmetic counts rule.window)
      (accumulateMax (trailingMean ar.toYearArithmetic counts rule.window))
      (emergenceIndex ar.toYearArithmetic rule counts years) i).2 = ⊤ := by
    cases i with
    | zero => rfl
    | succ k =>
      rw [stageLoop_succ]
      exact yearTrough_top (hbefore k rfl)
  rw [stageLoop_succ, htop] at hinactive ⊢
  exact spell_begins hratio hfloor (trailingMean_nonneg hpos hwindow i)
    (fun hlive => peak_pos hpos htotal hwindow hi hlive) hinactive

variable {firstYear lastYear : ℤ} {stage : ℤ → Option Stage}

/-- A year of the timeline is an index of the row. -/
theorem stage_row (hstage : ∀ year, stage year =
      pyIndex (stages ar.toYearArithmetic rule counts (yearsFrom firstYear lastYear)) (year - firstYear))
    {year : ℤ} (hlow : firstYear ≤ year) (hhigh : year ≤ lastYear) : ∃ i : ℕ, year = firstYear + i ∧
      i < yearsFrom firstYear lastYear ∧
      stage year = some (rowStage ar.toYearArithmetic rule counts (yearsFrom firstYear lastYear) i) := by
  obtain ⟨i, hi⟩ := Int.eq_ofNat_of_zero_le (show 0 ≤ year - firstYear by omega)
  have hlt : i < yearsFrom firstYear lastYear := by
    unfold yearsFrom
    omega
  refine ⟨i, by omega, hlt, ?_⟩
  rw [hstage, hi, pyIndex_nat, stages_getElem hlt]

theorem rowStages_legal (hpos : ∀ i, ar.ofRat 0 ≤ counts i) (hwindow : 1 ≤ rule.window)
    (htotal : ar.ofRat 0 < rule.emergeTotal) (hratio : ar.ofRat 1 < rule.reviveRatio)
    (hfloor : ar.ofRat 0 < rule.reviveFloor) (hstage : ∀ year, stage year =
      pyIndex (stages ar.toYearArithmetic rule counts (yearsFrom firstYear lastYear))
        (year - firstYear)) :
    LegalHistory firstYear lastYear
      (let i := emergenceIndex ar.toYearArithmetic rule counts (yearsFrom firstYear lastYear)
      if i < yearsFrom firstYear lastYear then some (firstYear + i) else none) stage := by
  refine ⟨?_, ?_, ?_⟩
  · intro year hlow hhigh
    obtain ⟨i, rfl, hlt, hi⟩ := stage_row hstage hlow hhigh
    refine ⟨_, hi, ?_⟩
    unfold rowStage
    simp only
    rw [yearStage_absent]
    split_ifs with hemerges
    · simp only [Option.some.injEq, forall_eq']
      omega
    · refine iff_of_true (by omega) ?_
      intro y0 hnone
      cases hnone
  · intro year later hlow hlt hhigh hestablished hemerging
    obtain ⟨i, rfl, -, hi⟩ := stage_row hstage hlow (by omega)
    obtain ⟨k, rfl, -, hk⟩ := stage_row hstage (show firstYear ≤ later by omega) hhigh
    rw [hi] at hestablished
    rw [hk] at hemerging
    exact rowStage_matures (show i ≤ k by omega) (Option.some.inj hestablished)
      (Option.some.inj hemerging)
  · intro year hlow hhigh s hs hinactive hbegins
    obtain ⟨i, rfl, hlt, hi⟩ := stage_row hstage hlow hhigh
    rw [hi] at hs
    obtain rfl := Option.some.inj hs
    refine rowStage_declines hpos hwindow htotal hratio hfloor hlt hinactive ?_
    rintro k rfl
    rcases hbegins with hstart | ⟨before, hbefore, hactive⟩
    · omega
    · obtain ⟨k', hk', -, hk⟩ := stage_row hstage (show firstYear ≤ firstYear + (k + 1 : ℕ) - 1 by omega)
        (by omega)
      obtain rfl : k' = k := by omega
      rw [hk] at hbefore
      rw [Option.some.inj hbefore]
      exact hactive

end

/-! ### Every style -/

/-- The stages of a style are absent up to its emergence, never emerging once established, and
decline before they revive. -/
theorem styleLifecycles_legal {F : Type*} [LinearOrder F] (ar : LegalArithmetic F)
    (rows : List YearCount) (lastYear : ℤ) {rule : LifecycleRule F} (hwindow : 1 ≤ rule.window)
    (htotal : ar.ofRat 0 < rule.emergeTotal) (hratio : ar.ofRat 1 < rule.reviveRatio)
    (hfloor : ar.ofRat 0 < rule.reviveFloor) :
    let lifecycles := styleLifecycles ar.toYearArithmetic rows lastYear rule
    ∀ style ∈ lifecycles.styles, ∃ emergence,
      (lifecycles.emergenceYears ar.toYearArithmetic).lookup style = some emergence ∧
      LegalHistory lifecycles.firstYear lastYear emergence (lifecycles.stage style) := by
  intro lifecycles style hstyle
  have hkept := (mem_styles ar.toYearArithmetic rows lastYear rule style).mpr hstyle
  have hlookup := emergenceYears_lookup ar.toYearArithmetic rows lastYear rule style
  simp only [hkept, if_true] at hlookup
  have hpos : ∀ i, ar.ofRat 0 ≤ countAt ar.toYearArithmetic (keptRows rows lastYear)
      (firstYearOf (keptRows rows lastYear) lastYear) style i := countAt_nonneg _ _ _
  have hstage : ∀ year, lifecycles.stage style year =
      pyIndex (stages ar.toYearArithmetic rule (countAt ar.toYearArithmetic (keptRows rows lastYear)
        (firstYearOf (keptRows rows lastYear) lastYear) style)
        (yearsFrom (firstYearOf (keptRows rows lastYear) lastYear) lastYear))
        (year - firstYearOf (keptRows rows lastYear) lastYear) := by
    intro year
    have heq := stage_eq ar.toYearArithmetic rows lastYear rule style year
    simp only [hkept, if_true] at heq
    exact heq
  exact ⟨_, hlookup, rowStages_legal hpos hwindow htotal hratio hfloor hstage⟩

theorem styleLifecycles_legal_burst : ∃ emergence,
    ((styleLifecycles (exactArithmetic ℚ) burst 2002
      (lifecycleRule (exactArithmetic ℚ))).emergenceYears (exactArithmetic ℚ)).lookup "bebop" =
        some emergence ∧
    LegalHistory (firstYearOf (keptRows burst 2002) 2002) 2002 emergence
      ((styleLifecycles (exactArithmetic ℚ) burst 2002
        (lifecycleRule (exactArithmetic ℚ))).stage "bebop") := by
  have hstyle := (mem_styles (exactArithmetic ℚ) burst 2002
    (lifecycleRule (exactArithmetic ℚ)) "bebop").mp (by simp [keptRows, burst])
  refine styleLifecycles_legal (exactLegal ℚ) burst 2002 (by decide) ?_ ?_ ?_ "bebop" hstyle
  · exact Rat.cast_lt.mpr (by norm_num)
  · exact Rat.cast_lt.mpr (by norm_num)
  · exact Rat.cast_lt.mpr (by norm_num)

end AnalyticsEngine.StyleAtlas
