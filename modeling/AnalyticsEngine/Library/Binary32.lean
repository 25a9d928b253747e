import Mathlib.Data.BitVec
import Mathlib.Algebra.Order.Field.Rat
import Mathlib.Algebra.Order.Ring.Cast
import Mathlib.Order.WithBot
import Mathlib.Order.Monotone.Basic
import Mathlib.Tactic.Ring

/-!
# IEEE binary32 patterns and their values

The value of a pattern from its sign, exponent and fraction fields. Magnitudes rise with the low
31 bits (`magnitude_strictMono`), so that values compare as `signedOrder`, one integer for each
pattern that is the same for both zeros (`value_lt_iff`).
-/

namespace AnalyticsEngine.Library.Binary32

abbrev Bits := BitVec 32

def exponent (b : Bits) : ℕ := b.toNat / 2 ^ 23 % 2 ^ 8
def fraction (b : Bits) : ℕ := b.toNat % 2 ^ 23

def IsNaN (b : Bits) : Prop := exponent b = 255 ∧ fraction b ≠ 0
instance (b : Bits) : Decidable (IsNaN b) := inferInstanceAs (Decidable (_ ∧ _))

/- In units of `2^-149`, the least subnormal: `f` for a subnormal, `(2^23 + f) * 2^(e - 1)` for a
normal number. -/
def magnitude (e f : ℕ) : ℕ := if e = 0 then f else (2 ^ 23 + f) * 2 ^ (e - 1)

def units (b : Bits) : ℤ :=
  if b.msb then -(magnitude (exponent b) (fraction b) : ℤ) else magnitude (exponent b) (fraction b)

/-- The value of a pattern that is not a NaN. -/
def value (b : Bits) : WithBot (WithTop ℚ) :=
  if exponent b = 255 then if b.msb then ⊥ else ((⊤ : WithTop ℚ) : WithBot (WithTop ℚ))
  else (((units b : ℚ) / 2 ^ 149 : ℚ) : WithTop ℚ)

/-! ### The order of the patterns -/

/-- All bits but the sign. -/
def low (b : Bits) : ℕ := b.toNat % 2 ^ 31

def signedOrder (b : Bits) : ℤ := if b.msb then -(low b : ℤ) else low b

theorem fields_low (b : Bits) : exponent b = low b / 2 ^ 23 ∧ fraction b = low b % 2 ^ 23 := by
  unfold exponent fraction low
  omega

theorem low_lt (b : Bits) : low b < 2 ^ 31 := Nat.mod_lt _ (Nat.two_pow_pos 31)

theorem msb_eq (b : Bits) : b.msb = decide (2 ^ 31 ≤ b.toNat) := BitVec.msb_eq_decide b

theorem toNat_low (b : Bits) : b.toNat = if b.msb then 2 ^ 31 + low b else low b := by
  have hlt := b.isLt
  rw [msb_eq]
  unfold low
  by_cases h : 2 ^ 31 ≤ b.toNat
  · rw [decide_eq_true h, if_pos rfl]
    omega
  · rw [decide_eq_false h, if_neg Bool.false_ne_true]
    omega

theorem magnitude_strictMono : StrictMono fun m => magnitude (m / 2 ^ 23) (m % 2 ^ 23) := by
  apply strictMono_nat_of_lt_succ
  intro m
  have hfraction : m % 2 ^ 23 < 2 ^ 23 := Nat.mod_lt _ (Nat.two_pow_pos 23)
  by_cases hcarry : m % 2 ^ 23 + 1 < 2 ^ 23
  · have hexponent : (m + 1) / 2 ^ 23 = m / 2 ^ 23 := by omega
    have hnext : (m + 1) % 2 ^ 23 = m % 2 ^ 23 + 1 := by omega
    rw [hexponent, hnext]
    unfold magnitude
    split_ifs
    · exact Nat.lt_succ_self _
    · exact Nat.mul_lt_mul_of_pos_right (by omega) (Nat.two_pow_pos _)
  · -- the fraction is full, and the next number opens the next binade
    have hexponent : (m + 1) / 2 ^ 23 = m / 2 ^ 23 + 1 := by omega
    have hnext : (m + 1) % 2 ^ 23 = 0 := by omega
    rw [hexponent, hnext]
    unfold magnitude
    rw [if_neg (Nat.succ_ne_zero _), Nat.add_zero, Nat.add_sub_cancel]
    split_ifs with hzero
    · rw [hzero, pow_zero, Nat.mul_one]
      exact hfraction
    · have hpow : 2 ^ (m / 2 ^ 23) = 2 * 2 ^ (m / 2 ^ 23 - 1) := by
        rw [← pow_succ']
        congr 1
        omega
      rw [hpow, ← Nat.mul_assoc]
      exact Nat.mul_lt_mul_of_pos_right (by omega) (Nat.two_pow_pos _)

theorem magnitude_low (b : Bits) :
    magnitude (exponent b) (fraction b) = magnitude (low b / 2 ^ 23) (low b % 2 ^ 23) := by
  rw [(fields_low b).1, (fields_low b).2]

theorem magnitude_zero : magnitude (0 / 2 ^ 23) (0 % 2 ^ 23) = 0 := rfl

theorem units_lt_iff (a b : Bits) : units a < units b ↔ signedOrder a < signedOrder b := by
  have hmono := magnitude_strictMono
  have hzero : ∀ c : Bits, 0 < low c ↔ 0 < magnitude (low c / 2 ^ 23) (low c % 2 ^ 23) := by
    intro c
    have hlt := hmono.lt_iff_lt (a := 0) (b := low c)
    rw [magnitude_zero] at hlt
    exact hlt.symm
  have hlt := hmono.lt_iff_lt (a := low a) (b := low b)
  have hgt := hmono.lt_iff_lt (a := low b) (b := low a)
  have ha := hzero a
  have hb := hzero b
  unfold units signedOrder
  rw [magnitude_low, magnitude_low]
  cases a.msb <;> cases b.msb <;> simp only [Bool.false_eq_true, if_true, if_false] <;> omega

/-- A pattern is finite below the exponent of the infinities. -/
theorem isNaN_iff (b : Bits) : IsNaN b ↔ 255 * 2 ^ 23 < low b := by
  have hlt := low_lt b
  unfold IsNaN
  rw [(fields_low b).1, (fields_low b).2]
  omega

theorem exponent_eq_iff {b : Bits} (h : ¬IsNaN b) : exponent b = 255 ↔ low b = 255 * 2 ^ 23 := by
  have hlt := low_lt b
  rw [isNaN_iff] at h
  rw [(fields_low b).1]
  omega

/-- An infinity is at one end of the order, a finite number between the ends. -/
theorem value_cases {b : Bits} (h : ¬IsNaN b) :
    (value b = ⊥ ∧ signedOrder b = -(255 * 2 ^ 23)) ∨
    (value b = ((⊤ : WithTop ℚ) : WithBot (WithTop ℚ)) ∧ signedOrder b = 255 * 2 ^ 23) ∨
    (value b = (((units b : ℚ) / 2 ^ 149 : ℚ) : WithTop ℚ) ∧
      -(255 * 2 ^ 23) < signedOrder b ∧ signedOrder b < 255 * 2 ^ 23) := by
  have hinfinite := exponent_eq_iff h
  have hle := mt (isNaN_iff b).mpr h
  unfold value signedOrder
  by_cases hexponent : exponent b = 255
  · have hlow := hinfinite.mp hexponent
    rw [if_pos hexponent, hlow]
    cases b.msb
    · exact Or.inr (Or.inl ⟨rfl, rfl⟩)
    · exact Or.inl ⟨rfl, rfl⟩
  · have hlow := mt hinfinite.mpr hexponent
    rw [if_neg hexponent]
    refine Or.inr (Or.inr ⟨rfl, ?_⟩)
    split_ifs <;> omega

theorem coe_units_lt_iff (a b : Bits) :
    ((((units a : ℚ) / 2 ^ 149 : ℚ) : WithTop ℚ) : WithBot (WithTop ℚ)) <
      (((units b : ℚ) / 2 ^ 149 : ℚ) : WithTop ℚ) ↔ units a < units b := by
  have hscale : (0 : ℚ) < 2 ^ 149 := pow_pos two_pos 149
  rw [WithBot.coe_lt_coe, WithTop.coe_lt_coe, div_lt_div_iff_of_pos_right hscale, Int.cast_lt]

/-- Values compare as the signed orders of their patterns. -/
theorem value_lt_iff {a b : Bits} (ha : ¬IsNaN a) (hb : ¬IsNaN b) :
    value a < value b ↔ signedOrder a < signedOrder b := by
  rcases value_cases ha with ⟨hva, hoa⟩ | ⟨hva, hoa⟩ | ⟨hva, hoa⟩ <;>
    rcases value_cases hb with ⟨hvb, hob⟩ | ⟨hvb, hob⟩ | ⟨hvb, hob⟩ <;> rw [hva, hvb]
  · simp [hoa, hob]
  · simp [hoa, hob]
  · simp only [hoa, WithBot.bot_lt_coe, hob.1]
  · simp [hoa, hob]
  · simp [hoa, hob]
  · simp only [hoa, WithBot.coe_lt_coe, not_top_lt, false_iff]
    omega
  · simp only [not_lt_bot, false_iff]
    omega
  · simp only [WithBot.coe_lt_coe, WithTop.coe_lt_top, true_iff]
    omega
  · rw [coe_units_lt_iff, units_lt_iff]

theorem value_eq_iff {a b : Bits} (ha : ¬IsNaN a) (hb : ¬IsNaN b) :
    value a = value b ↔ signedOrder a = signedOrder b := by
  have hlt := value_lt_iff ha hb
  have hgt := value_lt_iff hb ha
  constructor
  · intro h
    have hlt' := mt hlt.mpr h.not_lt
    have hgt' := mt hgt.mpr h.not_gt
    omega
  · intro h
    have hlt' := mt hlt.mp h.not_lt
    have hgt' := mt hgt.mp h.not_gt
    exact le_antisymm (not_lt.mp hgt') (not_lt.mp hlt')

end AnalyticsEngine.Library.Binary32
