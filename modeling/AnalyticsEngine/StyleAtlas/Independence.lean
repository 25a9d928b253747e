import AnalyticsEngine.StyleAtlas.Lifecycle
import Mathlib.Tactic.Tauto

/-!
# insights/style_lifecycle.py: rows of other styles

Rows of other styles can only move the first year of the timeline, which puts years without
releases before a style's own. Its sums, peaks and trough do not see them. Its trailing mean does in
the first two years, where it divides by the years there are.
-/

namespace AnalyticsEngine.StyleAtlas

section
variable {F : Type*} [LinearOrder F] {ar : YearArithmetic F}

/-- `later` is `earlier` after `gap` years without releases. -/
structure Shifted (ar : YearArithmetic F) (gap : ℕ) (earlier later : ℕ → F) : Prop where
  before : ∀ i < gap, later i = ar.ofRat 0
  after : ∀ i, later (gap + i) = earlier i

theorem cumsum_shifted {gap : ℕ} {earlier later : ℕ → F} (h : Shifted ar gap earlier later) :
    Shifted ar gap (cumsum ar earlier) (cumsum ar later) := by
  have hbefore : ∀ i < gap, cumsum ar later i = ar.ofRat 0 := by
    intro i hi
    induction i with
    | zero => exact h.before 0 hi
    | succ i ih => rw [cumsum, ih (by omega), ar.zero_add, h.before (i + 1) hi]
  refine ⟨hbefore, ?_⟩
  intro i
  induction i with
  | zero =>
    cases gap with
    | zero => exact h.after 0
    | succ gap =>
      show ar.add (cumsum ar later gap) (later (gap + 1)) = earlier 0
      rw [hbefore gap (Nat.lt_succ_self gap), ar.zero_add]
      exact h.after 0
  | succ i ih =>
    rw [← Nat.add_assoc, cumsum, ih, cumsum]
    congr 1
    exact h.after (i + 1)

theorem emergenceIndex_shifted {rule : LifecycleRule F} {gap : ℕ} {earlier later : ℕ → F}
    (h : Shifted ar gap earlier later) (hrule : ar.ofRat 0 < rule.emergeTotal) (years : ℕ) :
    emergenceIndex ar rule later (gap + years) = gap + emergenceIndex ar rule earlier years := by
  have hsums := cumsum_shifted h
  have hquiet : (List.range gap).find? (fun y => rule.emergeTotal ≤ cumsum ar later y) = none := by
    rw [List.find?_eq_none]
    intro y hy
    rw [hsums.before y (List.mem_range.mp hy), decide_eq_true_eq, not_le]
    exact hrule
  have hsame : (List.range years).find? ((fun y => decide (rule.emergeTotal ≤ cumsum ar later y)) ∘
      (gap + ·)) = (List.range years).find? fun y => rule.emergeTotal ≤ cumsum ar earlier y := by
    congr 1
    funext y
    simp only [Function.comp_apply, hsums.after]
  unfold emergenceIndex
  rw [List.range_add, List.find?_append, hquiet, Option.none_or, List.find?_map, hsame]
  cases (List.range years).find? fun y => decide (rule.emergeTotal ≤ cumsum ar earlier y) with
  | none => rfl
  | some y => rfl

theorem accumulateMax_shifted {gap : ℕ} {earlier later : ℕ → F} (h : Shifted ar gap earlier later)
    (hpos : ∀ i, ar.ofRat 0 ≤ earlier i) :
    Shifted ar gap (accumulateMax earlier) (accumulateMax later) := by
  have hbefore : ∀ i < gap, accumulateMax later i = ar.ofRat 0 := by
    intro i hi
    induction i with
    | zero => exact h.before 0 hi
    | succ i ih => rw [accumulateMax, ih (by omega), h.before (i + 1) hi, max_self]
  refine ⟨hbefore, ?_⟩
  intro i
  induction i with
  | zero =>
    cases gap with
    | zero => exact h.after 0
    | succ gap =>
      have hfirst : later (gap + 1) = earlier 0 := h.after 0
      show max (accumulateMax later gap) (later (gap + 1)) = earlier 0
      rw [hbefore gap (Nat.lt_succ_self gap), hfirst]
      exact max_eq_right (hpos 0)
  | succ i ih =>
    rw [← Nat.add_assoc, accumulateMax, ih, accumulateMax]
    congr 1
    exact h.after (i + 1)

/-! ### The trailing mean -/

theorem cumsum_le {counts : ℕ → F} (hpos : ∀ i, ar.ofRat 0 ≤ counts i) {i k : ℕ} (hik : i ≤ k) :
    cumsum ar counts i ≤ cumsum ar counts k := by
  induction hik with
  | refl => exact le_refl _
  | step _ ih => exact ih.trans (ar.le_add _ _ (hpos _))

theorem cumsum_nonneg {counts : ℕ → F} (hpos : ∀ i, ar.ofRat 0 ≤ counts i) (i : ℕ) :
    ar.ofRat 0 ≤ cumsum ar counts i :=
  (hpos 0).trans (cumsum_le hpos (Nat.zero_le i))

theorem trailingMean_nonneg {counts : ℕ → F} (hpos : ∀ i, ar.ofRat 0 ≤ counts i) {window : ℕ}
    (hwindow : 0 < window) (i : ℕ) : ar.ofRat 0 ≤ trailingMean ar counts window i := by
  unfold trailingMean
  simp only
  apply ar.div_nonneg _ _ _ (by omega)
  split_ifs
  · exact cumsum_nonneg hpos i
  · exact ar.sub_nonneg _ _ (cumsum_le hpos (Nat.sub_le i window))

/- The years whose window reaches before the first year hold no releases. -/
theorem trailingMean_shifted {gap window : ℕ} {earlier later : ℕ → F}
    (h : Shifted ar gap earlier later) (hwindow : 0 < window)
    (hstart : ∀ i, i + 1 < window → earlier i = ar.ofRat 0) :
    Shifted ar gap (fun i => trailingMean ar earlier window i)
      (fun i => trailingMean ar later window i) := by
  have hsums := cumsum_shifted h
  have hquiet : ∀ i, i + 1 < window → cumsum ar earlier i = ar.ofRat 0 := by
    intro i hi
    induction i with
    | zero => exact hstart 0 hi
    | succ i ih => rw [cumsum, ih (by omega), hstart (i + 1) hi, ar.zero_add]
  have hzero : ∀ i : ℕ, ar.div (ar.ofRat 0) (ar.ofRat (min (i + 1) window : ℕ)) = ar.ofRat 0 :=
    fun i => ar.zero_div _ (by omega)
  have hempty : ∀ i < gap, cumsum ar later (i - window) = ar.ofRat 0 := fun i hi =>
    hsums.before _ (by omega)
  constructor
  · intro i hi
    unfold trailingMean
    simp only
    rw [hsums.before i hi, hempty i hi, ar.sub_zero, ite_self, hzero]
  · intro i
    unfold trailingMean
    simp only
    rw [hsums.after]
    have hwhole : ∀ k, window ≤ k + 1 → min (k + 1) window = window := fun k hk => by omega
    rcases Nat.lt_or_ge (i + 1) window with hi | hi
    · -- neither sum has seen a release
      rw [hquiet i hi, if_pos (show i < window by omega), hzero]
      split_ifs
      · exact hzero _
      · rw [hsums.before (gap + i - window) (by omega), ar.sub_zero]
        exact hzero _
    · rw [hwhole i hi, hwhole (gap + i) (by omega)]
      congr 1
      rcases Nat.lt_or_ge i window with hlast | hfull
      · rw [if_pos hlast]
        split_ifs
        · rfl
        · rw [hsums.before (gap + i - window) (by omega), ar.sub_zero]
      · have hback : gap + i - window = gap + (i - window) := by omega
        rw [if_neg (by omega), if_neg (by omega), hback, hsums.after]

/-! ### The loop over the years -/

theorem stageLoop_quiet {rule : LifecycleRule F} {c peak : ℕ → F} {y0 years : ℕ} (h : years ≤ y0) :
    stageLoop ar rule c peak y0 years = (List.replicate years .absent, ⊤) := by
  induction years with
  | zero => rfl
  | succ y ih =>
    have hnot : ¬y0 ≤ y := by omega
    unfold stageLoop
    simp only [ih (by omega), hnot, false_and, if_false, not_false_eq_true, or_true, if_true]
    rw [List.replicate_succ']

theorem stageLoop_shifted {rule : LifecycleRule F} {gap y0 : ℕ} {c c' peak peak' : ℕ → F}
    (hmean : Shifted ar gap c c') (hpeak : Shifted ar gap peak peak') (years : ℕ) :
    stageLoop ar rule c' peak' (gap + y0) (gap + years) =
      (List.replicate gap .absent ++ (stageLoop ar rule c peak y0 years).1,
        (stageLoop ar rule c peak y0 years).2) := by
  induction years with
  | zero =>
    rw [Nat.add_zero, stageLoop_quiet (Nat.le_add_right gap y0)]
    simp [stageLoop]
  | succ y ih =>
    have hlive : gap + y0 ≤ gap + y ↔ y0 ≤ y := Nat.add_le_add_iff_left
    have hage : gap + y - (gap + y0) = y - y0 := Nat.add_sub_add_left gap y y0
    rw [← Nat.add_assoc]
    conv_lhs => unfold stageLoop
    conv_rhs => unfold stageLoop
    simp only [ih, hmean.after, hpeak.after, hlive, hage, List.append_assoc]

theorem stages_shifted {rule : LifecycleRule F} {gap : ℕ} {earlier later : ℕ → F}
    (h : Shifted ar gap earlier later) (hpos : ∀ i, ar.ofRat 0 ≤ earlier i)
    (hrule : ar.ofRat 0 < rule.emergeTotal) (hwindow : 0 < rule.window)
    (hstart : ∀ i, i + 1 < rule.window → earlier i = ar.ofRat 0) (years : ℕ) :
    stages ar rule later (gap + years) =
      List.replicate gap .absent ++ stages ar rule earlier years := by
  have hmean := trailingMean_shifted h hwindow hstart
  have hpeak := accumulateMax_shifted hmean (trailingMean_nonneg hpos hwindow)
  unfold stages
  simp only
  rw [emergenceIndex_shifted h hrule]
  exact congrArg Prod.fst (stageLoop_shifted hmean hpeak years)

/-! ### The rows -/

theorem firstYearOf_le {kept : List YearCount} {lastYear : ℤ} {row : YearCount} (h : row ∈ kept) :
    firstYearOf kept lastYear ≤ row.year := by
  unfold firstYearOf
  cases hmin : (kept.map YearCount.year).min? with
  | none =>
    rw [List.min?_eq_none_iff, List.map_eq_nil_iff] at hmin
    rw [hmin] at h
    cases h
  | some year => exact (List.min?_eq_some_iff.mp hmin).2 _ (List.mem_map_of_mem h)

theorem firstYearOf_anti {kept kept' : List YearCount} {lastYear : ℤ}
    (hlast : ∀ row ∈ kept', row.year ≤ lastYear) (hsub : kept ⊆ kept') :
    firstYearOf kept' lastYear ≤ firstYearOf kept lastYear := by
  cases hmin : (kept.map YearCount.year).min? with
  | none =>
    have hdefault : firstYearOf kept lastYear = lastYear := by
      unfold firstYearOf
      rw [hmin]
      rfl
    rw [hdefault]
    cases kept' with
    | nil => exact le_refl _
    | cons row later =>
      exact (firstYearOf_le List.mem_cons_self).trans (hlast row List.mem_cons_self)
  | some year =>
    obtain ⟨row, hrow, rfl⟩ := List.mem_map.mp (List.min?_eq_some_iff.mp hmin).1
    have hfirst : firstYearOf kept lastYear = row.year := by
      unfold firstYearOf
      rw [hmin]
      rfl
    rw [hfirst]
    exact firstYearOf_le (hsub hrow)

theorem countAt_own (kept : List YearCount) (firstYear : ℤ) (style : String) :
    countAt ar kept firstYear style =
      countAt ar (kept.filter fun row => row.style = style) firstYear style := by
  funext i
  unfold countAt
  rw [List.foldl_filter]
  congr 1
  funext total row
  by_cases hstyle : row.style = style
  · simp [hstyle]
  · simp [hstyle]

theorem countAt_nonneg (kept : List YearCount) (firstYear : ℤ) (style : String) (i : ℕ) :
    ar.ofRat 0 ≤ countAt ar kept firstYear style i := by
  unfold countAt
  apply List.foldlRecOn kept
  · exact le_refl _
  · intro total htotal row _
    split_ifs
    · exact htotal.trans (ar.le_add _ _ (ar.ofRat_nonneg _))
    · exact htotal

theorem countAt_none {kept : List YearCount} {firstYear : ℤ} {style : String} {i : ℕ}
    (h : ∀ row ∈ kept, row.style = style → row.year - firstYear = i → row.releaseCount = 0) :
    countAt ar kept firstYear style i = ar.ofRat 0 := by
  unfold countAt
  apply List.foldlRecOn (motive := fun total => total = ar.ofRat 0) kept
  · rfl
  · intro total htotal row hrow
    split_ifs with hcell
    · rw [htotal, h row hrow hcell.1 hcell.2, ar.zero_add, Nat.cast_zero]
    · exact htotal

theorem counts_shifted (ar : YearArithmetic F) {kept kept' : List YearCount} {firstYear firstYear' : ℤ} {style : String}
    (hfirst : firstYear' ≤ firstYear) (hrows : ∀ row ∈ kept, firstYear ≤ row.year)
    (hsame : kept'.filter (fun row => row.style = style) =
      kept.filter fun row => row.style = style) :
    Shifted ar (firstYear - firstYear').toNat (countAt ar kept firstYear style)
      (countAt ar kept' firstYear' style) := by
  have hother : ∀ i, countAt ar kept' firstYear' style i = countAt ar kept firstYear' style i := by
    intro i
    rw [countAt_own kept', hsame, ← countAt_own]
  constructor
  · intro i hi
    rw [hother]
    apply countAt_none
    intro row hrow _ hyear
    have := hrows row hrow
    omega
  · intro i
    rw [hother]
    unfold countAt
    congr 1
    funext total row
    have hcell : row.year - firstYear' = ((firstYear - firstYear').toNat + i : ℕ) ↔
        row.year - firstYear = i := by omega
    simp only [hcell]

/-! ### What a style reads off the matrix -/

theorem lookup_map_self {α : Type*} (styles : List String) (f : String → α) (style : String) :
    (styles.map fun t => (t, f t)).lookup style = if style ∈ styles then some (f style) else none := by
  induction styles with
  | nil => rfl
  | cons t later ih =>
    rw [List.map_cons, List.lookup_cons, ih]
    by_cases hstyle : style = t
    · subst hstyle
      simp
    · rw [beq_false_of_ne hstyle]
      simp [hstyle]

theorem mem_styles (ar : YearArithmetic F) (rows : List YearCount) (lastYear : ℤ)
    (rule : LifecycleRule F) (style : String) :
    style ∈ (keptRows rows lastYear).map YearCount.style ↔
      style ∈ (styleLifecycles ar rows lastYear rule).styles := by
  unfold styleLifecycles
  rw [Finset.mem_sort, List.mem_toFinset]

theorem emergenceYears_lookup (ar : YearArithmetic F) (rows : List YearCount) (lastYear : ℤ) (rule : LifecycleRule F)
    (style : String) :
    ((styleLifecycles ar rows lastYear rule).emergenceYears ar).lookup style =
      let kept := keptRows rows lastYear
      let firstYear := firstYearOf kept lastYear
      let i := emergenceIndex ar rule (countAt ar kept firstYear style) (yearsFrom firstYear lastYear)
      if style ∈ kept.map YearCount.style then
        some (if i < yearsFrom firstYear lastYear then some (firstYear + i) else none)
      else none := by
  have hmem := mem_styles ar rows lastYear rule style
  unfold StyleLifecycles.emergenceYears
  unfold styleLifecycles at hmem ⊢
  simp only at hmem ⊢
  generalize ((keptRows rows lastYear).map YearCount.style).toFinset.sort (· ≤ ·) = styles
    at hmem ⊢
  rw [← List.map_prod_left_eq_zip, List.map_map]
  simp only [hmem]
  exact lookup_map_self styles _ style

theorem stage_eq (ar : YearArithmetic F) (rows : List YearCount) (lastYear : ℤ) (rule : LifecycleRule F) (style : String)
    (year : ℤ) :
    (styleLifecycles ar rows lastYear rule).stage style year =
      let kept := keptRows rows lastYear
      let firstYear := firstYearOf kept lastYear
      if style ∈ kept.map YearCount.style then
        pyIndex (stages ar rule (countAt ar kept firstYear style) (yearsFrom firstYear lastYear))
          (year - firstYear)
      else none := by
  have hmem := mem_styles ar rows lastYear rule style
  unfold StyleLifecycles.stage
  unfold styleLifecycles at hmem ⊢
  simp only at hmem ⊢
  generalize ((keptRows rows lastYear).map YearCount.style).toFinset.sort (· ≤ ·) = styles
    at hmem ⊢
  rw [List.map_map, List.getElem?_map]
  by_cases hstyle : style ∈ styles
  · rw [if_pos (hmem.mpr hstyle), List.getElem?_idxOf hstyle]
    rfl
  · rw [if_neg (hmem.not.mpr hstyle), List.idxOf_eq_length hstyle, List.getElem?_eq_none (le_refl _)]
    rfl

theorem pyIndex_nat {α : Type*} (row : List α) (i : ℕ) : pyIndex row i = row[i]? := by
  unfold pyIndex
  rw [if_pos (Int.natCast_nonneg i), Int.toNat_natCast]

/-! ### Rows of other styles -/

theorem keptRows_own (rows : List YearCount) {extra : List YearCount} {style : String}
    (hother : ∀ row ∈ extra, row.style ≠ style) (lastYear : ℤ) :
    (keptRows (rows ++ extra) lastYear).filter (fun row => row.style = style) =
      (keptRows rows lastYear).filter fun row => row.style = style := by
  have hnone : (keptRows extra lastYear).filter (fun row => row.style = style) = [] := by
    rw [List.filter_eq_nil_iff]
    intro row hrow
    simpa using hother row (List.mem_of_mem_filter hrow)
  unfold keptRows at hnone ⊢
  rw [List.filter_append, List.filter_append, hnone, List.append_nil]

theorem mem_styles_own {kept kept' : List YearCount} {style : String}
    (hsame : kept'.filter (fun row => row.style = style) =
      kept.filter fun row => row.style = style) :
    style ∈ kept'.map YearCount.style ↔ style ∈ kept.map YearCount.style := by
  have hiff : ∀ l : List YearCount, style ∈ l.map YearCount.style ↔
      l.filter (fun row => row.style = style) ≠ [] := by
    intro l
    rw [List.mem_map, Ne, List.filter_eq_nil_iff]
    simp
  rw [hiff, hiff, hsame]

/- The view of one style before and after the rows of other styles. -/
theorem own_shifted (ar : YearArithmetic F) (rows : List YearCount) {extra : List YearCount}
    (lastYear : ℤ) {style : String} (hother : ∀ row ∈ extra, row.style ≠ style) :
    ∃ gap : ℕ, firstYearOf (keptRows (rows ++ extra) lastYear) lastYear + gap =
        firstYearOf (keptRows rows lastYear) lastYear ∧
      yearsFrom (firstYearOf (keptRows (rows ++ extra) lastYear) lastYear) lastYear =
        gap + yearsFrom (firstYearOf (keptRows rows lastYear) lastYear) lastYear ∧
      Shifted ar gap
        (countAt ar (keptRows rows lastYear) (firstYearOf (keptRows rows lastYear) lastYear) style)
        (countAt ar (keptRows (rows ++ extra) lastYear)
          (firstYearOf (keptRows (rows ++ extra) lastYear) lastYear) style) := by
  have hlast : ∀ l : List YearCount, ∀ row ∈ keptRows l lastYear, row.year ≤ lastYear := by
    intro l row hrow
    exact of_decide_eq_true (List.mem_filter.mp hrow).2
  have hsub : keptRows rows lastYear ⊆ keptRows (rows ++ extra) lastYear := by
    intro row hrow
    obtain ⟨hrow, hyear⟩ := List.mem_filter.mp hrow
    exact List.mem_filter.mpr ⟨List.mem_append_left _ hrow, hyear⟩
  have hafter := firstYearOf_anti (hlast _) hsub
  have hbefore : firstYearOf (keptRows rows lastYear) lastYear ≤ firstYearOf [] lastYear :=
    firstYearOf_anti (hlast rows) (List.nil_subset _)
  have hdefault : firstYearOf [] lastYear = lastYear := rfl
  refine ⟨_, ?_, ?_, counts_shifted ar hafter (fun row hrow => firstYearOf_le hrow)
    (keptRows_own rows hother lastYear)⟩
  · omega
  · unfold yearsFrom
    omega

theorem emergence_independent (ar : YearArithmetic F) (rows : List YearCount)
    {extra : List YearCount} (lastYear : ℤ) {style : String}
    (hother : ∀ row ∈ extra, row.style ≠ style) {rule : LifecycleRule F}
    (hrule : ar.ofRat 0 < rule.emergeTotal) :
    ((styleLifecycles ar (rows ++ extra) lastYear rule).emergenceYears ar).lookup style =
      ((styleLifecycles ar rows lastYear rule).emergenceYears ar).lookup style := by
  obtain ⟨gap, hfirst, hyears, hshift⟩ := own_shifted ar rows lastYear hother
  have hmem := mem_styles_own (keptRows_own rows hother lastYear)
  rw [emergenceYears_lookup, emergenceYears_lookup]
  simp only [hmem, hyears, emergenceIndex_shifted hshift hrule, Nat.add_lt_add_iff_left,
    ← hfirst, Nat.cast_add, Int.add_assoc]

theorem stage_independent (ar : YearArithmetic F) {rows extra : List YearCount} {lastYear : ℤ}
    {style : String} (hother : ∀ row ∈ extra, row.style ≠ style) {rule : LifecycleRule F}
    (hrule : ar.ofRat 0 < rule.emergeTotal) (hwindow : 0 < rule.window)
    (hstart : ∀ row ∈ rows, row.style = style → row.year ≤ lastYear →
      row.year + 1 < firstYearOf (keptRows rows lastYear) lastYear + rule.window →
        row.releaseCount = 0) {year : ℤ}
    (hyear : firstYearOf (keptRows rows lastYear) lastYear ≤ year) :
    (styleLifecycles ar (rows ++ extra) lastYear rule).stage style year =
      (styleLifecycles ar rows lastYear rule).stage style year := by
  obtain ⟨gap, hfirst, hyears, hshift⟩ := own_shifted ar rows lastYear hother
  have hmem := mem_styles_own (keptRows_own rows hother lastYear)
  have hquiet : ∀ i, i + 1 < rule.window → countAt ar (keptRows rows lastYear)
      (firstYearOf (keptRows rows lastYear) lastYear) style i = ar.ofRat 0 := by
    intro i hi
    apply countAt_none
    intro row hrow hstyle hcell
    obtain ⟨hrow, hkept⟩ := List.mem_filter.mp hrow
    exact hstart row hrow hstyle (of_decide_eq_true hkept) (by omega)
  have hstages := stages_shifted hshift (countAt_nonneg _ _ _) hrule hwindow hquiet
  obtain ⟨i, hi⟩ := Int.eq_ofNat_of_zero_le (Int.sub_nonneg.mpr hyear)
  have hi' : year - firstYearOf (keptRows (rows ++ extra) lastYear) lastYear = (gap + i : ℕ) := by
    omega
  rw [stage_eq, stage_eq]
  simp only [hmem, hyears, hstages, hi, hi', pyIndex_nat]
  rw [List.getElem?_append_right (by simp)]
  simp

theorem stage_of_firstYear (ar : YearArithmetic F) {rows extra : List YearCount} {lastYear : ℤ}
    {style : String} (hother : ∀ row ∈ extra, row.style ≠ style) {rule : LifecycleRule F}
    (hsame : firstYearOf (keptRows (rows ++ extra) lastYear) lastYear =
      firstYearOf (keptRows rows lastYear) lastYear) (year : ℤ) :
    (styleLifecycles ar (rows ++ extra) lastYear rule).stage style year =
      (styleLifecycles ar rows lastYear rule).stage style year := by
  have hown := keptRows_own rows hother lastYear
  have hmem := mem_styles_own hown
  have hcounts : ∀ firstYear, countAt ar (keptRows (rows ++ extra) lastYear) firstYear style =
      countAt ar (keptRows rows lastYear) firstYear style := by
    intro firstYear
    rw [countAt_own, hown, ← countAt_own]
  rw [stage_eq, stage_eq]
  simp only [hmem, hsame, hcounts]

/-- Rows of other styles leave a style its emergence year. They leave it its stages, too, unless they
move the first year of the timeline and the style has releases in the two years from it on. -/
theorem lifecycle_independent (ar : YearArithmetic F) (rows extra : List YearCount) (lastYear : ℤ)
    (style : String) (hother : ∀ row ∈ extra, row.style ≠ style) :
    let before := styleLifecycles ar rows lastYear (lifecycleRule ar)
    let after := styleLifecycles ar (rows ++ extra) lastYear (lifecycleRule ar)
    (after.emergenceYears ar).lookup style = (before.emergenceYears ar).lookup style ∧
      (after.firstYear = before.firstYear ∨
          (∀ row ∈ rows, row.style = style → row.year ≤ lastYear →
            row.year < before.firstYear + 2 → row.releaseCount = 0) →
        ∀ year, before.firstYear ≤ year → after.firstYear ≤ year → year ≤ lastYear →
          after.stage style year = before.stage style year) := by
  have hrule : ar.ofRat 0 < (lifecycleRule ar).emergeTotal := ar.ofRat_lt 0 25 (by decide) (by decide)
  constructor
  · exact emergence_independent ar rows lastYear hother hrule
  · intro hcases year hbefore _ _
    rcases hcases with hsame | hstart
    · exact stage_of_firstYear ar hother hsame year
    · apply stage_independent ar hother hrule (show 0 < 3 by decide) _ hbefore
      intro row hrow hstyle hyear hwindow
      apply hstart row hrow hstyle hyear
      have hthree : (lifecycleRule ar).window = 3 := rfl
      rw [hthree] at hwindow
      show row.year < firstYearOf (keptRows rows lastYear) lastYear + 2
      omega

end

def burst : List YearCount := [⟨"bebop", 2000, 60⟩, ⟨"bebop", 2001, 10⟩, ⟨"bebop", 2002, 10⟩]

def misdated : List YearCount := [⟨"swing", 1998, 1⟩]

theorem lifecycle_independent_laterStart :
    let before := styleLifecycles ratArithmetic (⟨"swing", 1990, 1⟩ :: burst) 2002
      (lifecycleRule ratArithmetic)
    let after := styleLifecycles ratArithmetic ((⟨"swing", 1990, 1⟩ :: burst) ++ [⟨"cool", 1980, 5⟩])
      2002 (lifecycleRule ratArithmetic)
    after.stage "bebop" 2002 = before.stage "bebop" 2002 := by
  intro before after
  apply (lifecycle_independent ratArithmetic (⟨"swing", 1990, 1⟩ :: burst) [⟨"cool", 1980, 5⟩] 2002
    "bebop" (by decide)).2 (Or.inr (by decide +kernel)) 2002
  · decide +kernel
  · decide +kernel
  · decide

/-- One early release of another style turns a decline into an emergence. -/
theorem stage_depends_on_other_style :
    ¬∀ (rows extra : List YearCount) (lastYear : ℤ) (style : String),
      (∀ row ∈ extra, row.style ≠ style) →
        let before := styleLifecycles ratArithmetic rows lastYear (lifecycleRule ratArithmetic)
        let after := styleLifecycles ratArithmetic (rows ++ extra) lastYear
          (lifecycleRule ratArithmetic)
        ∀ year, before.firstYear ≤ year → after.firstYear ≤ year → year ≤ lastYear →
          after.stage style year = before.stage style year := by
  intro hall
  have hsame := hall burst misdated 2002 "bebop" (by decide) 2002 (by decide +kernel)
    (by decide +kernel) (by decide)
  have hbefore : (styleLifecycles ratArithmetic burst 2002 (lifecycleRule ratArithmetic)).stage
      "bebop" 2002 = some .declining := by
    rw [stage_eq]
    decide +kernel
  have hafter : (styleLifecycles ratArithmetic (burst ++ misdated) 2002
      (lifecycleRule ratArithmetic)).stage "bebop" 2002 = some .emerging := by
    rw [stage_eq]
    decide +kernel
  rw [hbefore, hafter] at hsame
  cases hsame

end AnalyticsEngine.StyleAtlas
