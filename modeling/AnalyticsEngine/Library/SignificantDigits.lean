import AnalyticsEngine.Library.Decimal
import Mathlib.Algebra.Order.Field.Power
import Mathlib.Data.Int.Log
import Mathlib.Data.List.DropRight
import Mathlib.Data.Rat.Floor
import Mathlib.Tactic.Linarith
import Mathlib.Tactic.Positivity
import Mathlib.Tactic.Ring

/-!
# Numbers of a fixed number of significant digits

The `%g` format rounds to `p` significant digits, drops the zeros behind the point and, away from
one, writes a power of ten. Its text is a decimal numeral of the rounded number, so it names that
number: `Significant.text_inj`.
-/

namespace AnalyticsEngine.Library

/-- `digits * 10 ^ (exponent - (p - 1))`. -/
structure Significant (p : ℕ) where
  digits : ℕ
  exponent : ℤ
  low : 10 ^ (p - 1) ≤ digits
  high : digits < 10 ^ p
deriving DecidableEq

variable {p : ℕ}

def Significant.value (s : Significant p) : ℚ := s.digits * 10 ^ (s.exponent - (p - 1 : ℕ))

/-! ### Rounding -/

def roundHalfEven (x : ℚ) : ℕ :=
  let below := ⌊x⌋₊
  if x - below < 1 / 2 then below
  else if 1 / 2 < x - below then below + 1
  else if below % 2 = 0 then below else below + 1

theorem roundHalfEven_bounds {x : ℚ} {a b : ℕ} (hlow : a ≤ x) (hhigh : x < b) :
    a ≤ roundHalfEven x ∧ roundHalfEven x ≤ b := by
  have hpos : 0 ≤ x := (Nat.cast_nonneg a).trans hlow
  have hbelow : a ≤ ⌊x⌋₊ := Nat.le_floor hlow
  have habove : ⌊x⌋₊ < b := (Nat.floor_lt hpos).mpr hhigh
  unfold roundHalfEven
  simp only
  split_ifs <;> omega

theorem scale_eq (k : ℕ) {e f : ℤ} (h : k + e = f) : ((10 ^ k : ℕ) : ℚ) * 10 ^ e = 10 ^ f := by
  rw [← h, zpow_add₀ (by norm_num), zpow_natCast, Nat.cast_pow, Nat.cast_ofNat]

/- The decimal exponent of a number before it is rounded; rounding may carry into the next. -/
def significant (hp : 0 < p) (x : ℚ) (hx : 0 < x) : Significant p :=
  let exponent := Int.log 10 x
  let digits := roundHalfEven (x / 10 ^ (exponent - (p - 1 : ℕ)))
  have hbounds : 10 ^ (p - 1) ≤ digits ∧ digits ≤ 10 ^ p := by
    have hunit : (0 : ℚ) < 10 ^ (exponent - (p - 1 : ℕ)) := by positivity
    apply roundHalfEven_bounds
    · rw [le_div_iff₀ hunit, scale_eq (f := exponent) (p - 1) (by omega)]
      exact Int.zpow_log_le_self (by decide) hx
    · rw [div_lt_iff₀ hunit, scale_eq (f := exponent + 1) p (by omega)]
      exact Int.lt_zpow_succ_log_self (by decide) x
  if hcarry : digits = 10 ^ p then
    ⟨10 ^ (p - 1), exponent + 1, le_rfl, Nat.pow_lt_pow_right (by decide) (by omega)⟩
  else
    ⟨digits, exponent, hbounds.1, lt_of_le_of_ne hbounds.2 hcarry⟩

theorem Significant.value_bounds (hp : 0 < p) (s : Significant p) :
    (10 : ℚ) ^ s.exponent ≤ s.value ∧ s.value < 10 ^ (s.exponent + 1) := by
  have hunit : (0 : ℚ) < 10 ^ (s.exponent - (p - 1 : ℕ)) := by positivity
  unfold Significant.value
  constructor
  · rw [← scale_eq (p - 1) (show ((p - 1 : ℕ) : ℤ) + (s.exponent - (p - 1 : ℕ)) = s.exponent by omega)]
    exact mul_le_mul_of_nonneg_right (Nat.cast_le.mpr s.low) hunit.le
  · rw [← scale_eq p (show (p : ℤ) + (s.exponent - (p - 1 : ℕ)) = s.exponent + 1 by omega)]
    exact mul_lt_mul_of_pos_right (Nat.cast_lt.mpr s.high) hunit

theorem Significant.value_inj (hp : 0 < p) {s t : Significant p} (h : s.value = t.value) : s = t := by
  have hs := s.value_bounds hp
  have ht := t.value_bounds hp
  have hle := (zpow_lt_zpow_iff_right₀ (by norm_num : (1 : ℚ) < 10)).mp
    (hs.1.trans_lt (h ▸ ht.2))
  have hge := (zpow_lt_zpow_iff_right₀ (by norm_num : (1 : ℚ) < 10)).mp
    (ht.1.trans_lt (h ▸ hs.2))
  have hexponent : s.exponent = t.exponent := by omega
  unfold Significant.value at h
  rw [hexponent] at h
  have hdigits := mul_right_cancel₀ (by positivity) h
  obtain ⟨_, _, _, _⟩ := s
  obtain ⟨_, _, _, _⟩ := t
  simp only at hexponent hdigits
  simp only [Significant.mk.injEq]
  exact ⟨Nat.cast_injective hdigits, hexponent⟩

/-! ### The text -/

def stripZeros (l : List Char) : List Char := l.rdropWhile (· == '0')

/-- No point without a fraction behind it. -/
def pointed (whole fraction : List Char) : List Char :=
  match stripZeros fraction with
  | [] => whole
  | stripped => whole ++ '.' :: stripped

def exponentText (exponent : ℤ) : List Char :=
  'e' :: (if exponent < 0 then '-' else '+') :: padded 2 exponent.natAbs

def Significant.text (s : Significant p) : List Char :=
  let digits := Nat.toDigits 10 s.digits
  if -4 ≤ s.exponent ∧ s.exponent < p then
    if 0 ≤ s.exponent then
      pointed (digits.take (s.exponent.toNat + 1)) (digits.drop (s.exponent.toNat + 1))
    else pointed ['0'] (List.replicate (-1 - s.exponent).toNat '0' ++ digits)
  else pointed (digits.take 1) (digits.drop 1) ++ exponentText s.exponent

/-! ### Reading it back -/

def readExponent : List Char → ℤ
  | 'e' :: '-' :: digits => -(Nat.ofDigitChars 10 digits 0 : ℤ)
  | 'e' :: '+' :: digits => Nat.ofDigitChars 10 digits 0
  | _ => 0

def readText (text : List Char) : ℚ :=
  let whole := text.takeWhile Char.isDigit
  let rest := text.dropWhile Char.isDigit
  let fraction := match rest with
    | '.' :: behind => behind.takeWhile Char.isDigit
    | _ => []
  let scale := match rest with
    | '.' :: behind => behind.dropWhile Char.isDigit
    | _ => rest
  Nat.ofDigitChars 10 (whole ++ fraction) 0 * 10 ^ (readExponent scale - fraction.length)

theorem readExponent_text (exponent : ℤ) : readExponent (exponentText exponent) = exponent := by
  have hvalue : Nat.ofDigitChars 10 (padded 2 exponent.natAbs) 0 = exponent.natAbs := by
    unfold padded
    rw [Nat.ofDigitChars_append, Nat.ofDigitChars_replicate_zero, Nat.mul_zero,
      Nat.ofDigitChars_ten_toDigits]
  unfold exponentText
  split_ifs with hneg
  · simp only [readExponent, hvalue]
    omega
  · simp only [readExponent, hvalue]
    omega

/- Dropping zeros divides the digits by the power of ten that the fraction gets shorter by. -/
theorem stripZeros_value (whole fraction : List Char) :
    ∃ k, fraction = stripZeros fraction ++ List.replicate k '0' ∧
      Nat.ofDigitChars 10 (whole ++ fraction) 0 =
        Nat.ofDigitChars 10 (whole ++ stripZeros fraction) 0 * 10 ^ k := by
  have hzeros : fraction.rtakeWhile (· == '0') =
      List.replicate (fraction.rtakeWhile (· == '0')).length '0' := by
    rw [List.eq_replicate_iff]
    exact ⟨rfl, fun c hc => by simpa using List.mem_rtakeWhile_imp hc⟩
  have hsplit : fraction = stripZeros fraction ++
      List.replicate (fraction.rtakeWhile (· == '0')).length '0' := by
    rw [← hzeros]
    exact List.rdropWhile_append_rtakeWhile.symm
  refine ⟨_, hsplit, ?_⟩
  conv_lhs => rw [hsplit]
  rw [← List.append_assoc, Nat.ofDigitChars_append, Nat.ofDigitChars_replicate_zero, Nat.mul_comm]

theorem digits_span {digits : List Char} (rest : List Char) (hdigits : ∀ c ∈ digits, c.isDigit)
    (hrest : ∀ c ∈ rest.head?, c.isDigit = false) :
    (digits ++ rest).takeWhile Char.isDigit = digits ∧
      (digits ++ rest).dropWhile Char.isDigit = rest := by
  rw [List.takeWhile_append_of_pos hdigits, List.dropWhile_append_of_pos hdigits]
  cases rest with
  | nil => simp
  | cons c rest =>
    have hc := hrest c rfl
    rw [List.takeWhile_cons_of_neg (by simp [hc]), List.dropWhile_cons_of_neg (by simp [hc]),
      List.append_nil]
    exact ⟨rfl, rfl⟩

theorem isDigit_stripZeros {l : List Char} (h : ∀ c ∈ l, c.isDigit) : ∀ c ∈ stripZeros l, c.isDigit :=
  fun c hc => h c (List.IsPrefix.subset (List.rdropWhile_prefix ..) hc)

theorem readText_pointed {whole fraction : List Char} (suffix : List Char)
    (hwhole : ∀ c ∈ whole, c.isDigit) (hfraction : ∀ c ∈ fraction, c.isDigit)
    (hsuffix : suffix = [] ∨ ∃ exponent, suffix = exponentText exponent) :
    readText (pointed whole fraction ++ suffix) =
      Nat.ofDigitChars 10 (whole ++ fraction) 0 *
        10 ^ (readExponent suffix - fraction.length) := by
  obtain ⟨k, hsplit, hvalue⟩ := stripZeros_value whole fraction
  have hstripped := isDigit_stripZeros hfraction
  have hlength : fraction.length = (stripZeros fraction).length + k := by
    conv_lhs => rw [hsplit]
    rw [List.length_append, List.length_replicate]
  have hhead : ∀ c ∈ suffix.head?, c.isDigit = false ∧ c ≠ '.' := by
    rcases hsuffix with rfl | ⟨exponent, rfl⟩
    · exact fun c hc => by cases hc
    · intro c hc
      obtain rfl : 'e' = c := Option.some.inj hc
      decide
  -- the zeros that were dropped are in the power of ten
  have hscale : ((Nat.ofDigitChars 10 (whole ++ fraction) 0 : ℕ) : ℚ) *
      10 ^ (readExponent suffix - fraction.length) =
        Nat.ofDigitChars 10 (whole ++ stripZeros fraction) 0 *
          10 ^ (readExponent suffix - (stripZeros fraction).length) := by
    rw [hvalue, Nat.cast_mul, mul_assoc, scale_eq (f := readExponent suffix -
      (stripZeros fraction).length) k (by omega)]
  rw [hscale]
  unfold pointed
  cases hempty : stripZeros fraction with
  | nil =>
    obtain ⟨htake, hdrop⟩ := digits_span suffix hwhole fun c hc => (hhead c hc).1
    unfold readText
    simp only [htake, hdrop]
    rcases hsuffix with rfl | ⟨exponent, rfl⟩
    · simp
    · simp [exponentText]
  | cons c stripped =>
    rw [hempty] at hstripped
    have hpoint : (whole ++ '.' :: c :: stripped) ++ suffix = whole ++ '.' :: (c :: stripped ++ suffix) := by
      simp
    obtain ⟨htake, hdrop⟩ := digits_span ('.' :: (c :: stripped ++ suffix)) hwhole (by simp)
    obtain ⟨htake', hdrop'⟩ := digits_span suffix hstripped fun c hc => (hhead c hc).1
    unfold readText
    simp only [hpoint, htake, hdrop, htake', hdrop']

theorem length_digits (hp : 0 < p) (s : Significant p) : (Nat.toDigits 10 s.digits).length = p := by
  apply le_antisymm
  · exact (Nat.length_toDigits_le_iff (by decide) hp).mpr s.high
  · rcases Nat.lt_or_ge 1 p with hmany | hone
    · by_contra hshort
      have hle : (Nat.toDigits 10 s.digits).length ≤ p - 1 := by omega
      have hlt := (Nat.length_toDigits_le_iff (by decide) (by omega)).mp hle
      exact absurd s.low (not_le.mpr hlt)
    · have hpos : 0 < (Nat.toDigits 10 s.digits).length := Nat.length_toDigits_pos
      omega

theorem isDigit_zeros_append {digits : List Char} (hdigits : ∀ c ∈ digits, c.isDigit) (n : ℕ) :
    ∀ c ∈ List.replicate n '0' ++ digits, c.isDigit := by
  intro c hc
  rcases List.mem_append.mp hc with hc | hc
  · rw [List.eq_of_mem_replicate hc]
    decide
  · exact hdigits c hc

/-- The text is a numeral of the number. -/
theorem Significant.readText_text (hp : 0 < p) (s : Significant p) : readText s.text = s.value := by
  have hdigits : ∀ c ∈ Nat.toDigits 10 s.digits, c.isDigit := isDigit_toDigits
  have hlength := length_digits hp s
  have htake : ∀ k, ∀ c ∈ (Nat.toDigits 10 s.digits).take k, c.isDigit :=
    fun k c hc => hdigits c (List.mem_of_mem_take hc)
  have hdrop : ∀ k, ∀ c ∈ (Nat.toDigits 10 s.digits).drop k, c.isDigit :=
    fun k c hc => hdigits c (List.mem_of_mem_drop hc)
  unfold Significant.text Significant.value
  simp only
  split_ifs with hfixed hwhole
  · have hread := readText_pointed [] (htake (s.exponent.toNat + 1))
      (hdrop (s.exponent.toNat + 1)) (Or.inl rfl)
    rw [List.append_nil] at hread
    rw [hread, List.take_append_drop, Nat.ofDigitChars_ten_toDigits, List.length_drop, hlength]
    congr 2
    simp only [readExponent]
    omega
  · have hzeros := isDigit_zeros_append hdigits (-1 - s.exponent).toNat
    have hzero : ∀ c ∈ ['0'], c.isDigit := List.forall_mem_singleton.mpr (by decide)
    have hread := readText_pointed [] hzero hzeros (Or.inl rfl)
    rw [List.append_nil] at hread
    have hvalue : Nat.ofDigitChars 10 (['0'] ++ (List.replicate (-1 - s.exponent).toNat '0' ++
        Nat.toDigits 10 s.digits)) 0 = s.digits := by
      rw [Nat.ofDigitChars_append, Nat.ofDigitChars_append, Nat.ofDigitChars_replicate_zero]
      exact Nat.ofDigitChars_ten_toDigits
    rw [hread, hvalue, List.length_append, List.length_replicate, hlength]
    congr 2
    simp only [readExponent]
    omega
  · rw [readText_pointed _ (htake 1) (hdrop 1) (Or.inr ⟨_, rfl⟩), List.take_append_drop,
      Nat.ofDigitChars_ten_toDigits, List.length_drop, hlength, readExponent_text]

theorem Significant.text_inj (hp : 0 < p) {s t : Significant p} (h : s.text = t.text) : s = t := by
  apply Significant.value_inj hp
  rw [← s.readText_text hp, ← t.readText_text hp, h]

/-! ### What a text is made of -/

theorem pointed_eq (whole fraction : List Char) :
    ∃ behind, pointed whole fraction = whole ++ behind ∧ ∀ c ∈ behind, c = '.' ∨ c ∈ fraction := by
  unfold pointed
  have hsub := List.IsPrefix.subset (List.rdropWhile_prefix (· == '0') fraction)
  cases hempty : stripZeros fraction with
  | nil => exact ⟨[], (List.append_nil _).symm, fun c hc => by cases hc⟩
  | cons d stripped =>
    refine ⟨_, rfl, ?_⟩
    intro c hc
    rcases List.mem_cons.mp hc with rfl | hc
    · exact Or.inl rfl
    · exact Or.inr (hsub (show c ∈ stripZeros fraction from hempty ▸ hc))

/-- The characters of a numeral. -/
def IsNumeral (text : List Char) : Prop :=
  (∃ c ∈ text.head?, c.isDigit) ∧ ∀ c ∈ text, c.isDigit ∨ c ∈ ['.', 'e', '+', '-']

theorem pointed_isNumeral {whole fraction : List Char} (suffix : List Char) (hne : whole ≠ [])
    (hwhole : ∀ c ∈ whole, c.isDigit) (hfraction : ∀ c ∈ fraction, c.isDigit)
    (hsuffix : ∀ c ∈ suffix, c.isDigit ∨ c ∈ ['.', 'e', '+', '-']) :
    IsNumeral (pointed whole fraction ++ suffix) := by
  obtain ⟨behind, hpointed, hbehind⟩ := pointed_eq whole fraction
  obtain ⟨d, rest, rfl⟩ := List.exists_cons_of_ne_nil hne
  rw [hpointed]
  refine ⟨⟨d, rfl, hwhole d List.mem_cons_self⟩, ?_⟩
  intro c hc
  rcases List.mem_append.mp hc with hc | hc
  · rcases List.mem_append.mp hc with hc | hc
    · exact Or.inl (hwhole c hc)
    · rcases hbehind c hc with rfl | hc
      · exact Or.inr (by decide)
      · exact Or.inl (hfraction c hc)
  · exact hsuffix c hc

theorem exponentText_chars {exponent : ℤ} :
    ∀ c ∈ exponentText exponent, c.isDigit ∨ c ∈ ['.', 'e', '+', '-'] := by
  intro c hc
  unfold exponentText at hc
  rcases List.mem_cons.mp hc with rfl | hc
  · exact Or.inr (by decide)
  · rcases List.mem_cons.mp hc with rfl | hc
    · split_ifs
      · exact Or.inr (by decide)
      · exact Or.inr (by decide)
    · exact Or.inl (isDigit_padded c hc)

theorem Significant.text_isNumeral (hp : 0 < p) (s : Significant p) : IsNumeral s.text := by
  have hdigits : ∀ c ∈ Nat.toDigits 10 s.digits, c.isDigit := isDigit_toDigits
  have hlength := length_digits hp s
  have htake : ∀ k, (Nat.toDigits 10 s.digits).take (k + 1) ≠ [] := by
    intro k hnil
    have hzero := congrArg List.length hnil
    rw [List.length_take, hlength, List.length_nil] at hzero
    omega
  have hfirst : ∀ k, ∀ c ∈ (Nat.toDigits 10 s.digits).take k, c.isDigit :=
    fun k c hc => hdigits c (List.mem_of_mem_take hc)
  have hlater : ∀ k, ∀ c ∈ (Nat.toDigits 10 s.digits).drop k, c.isDigit :=
    fun k c hc => hdigits c (List.mem_of_mem_drop hc)
  unfold Significant.text
  simp only
  split_ifs
  · rw [← List.append_nil (pointed _ _)]
    exact pointed_isNumeral [] (htake _) (hfirst _) (hlater _) (by simp)
  · rw [← List.append_nil (pointed _ _)]
    exact pointed_isNumeral [] (by simp) (List.forall_mem_singleton.mpr (by decide))
      (isDigit_zeros_append hdigits _) (by simp)
  · exact pointed_isNumeral _ (htake 0) (hfirst 1) (hlater 1) exponentText_chars

end AnalyticsEngine.Library
