import AnalyticsEngine.Library.SignificantDigits

/-!
# Rounding to a binary format

The numbers of `p + 1` binary digits and exponents from `low` on, as many as there are: the doubles
but for their bound above are those of `p = 52` and `low = -1074`. `nearest` rounds half to even. It
keeps order (`nearest_mono`) and moves no number of the format (`nearest_of_mem`).
-/

namespace AnalyticsEngine.Library

theorem roundHalfEven_natCast (n : ℕ) : roundHalfEven n = n := by
  unfold roundHalfEven
  simp

theorem roundHalfEven_mono {x y : ℚ} (hx : 0 ≤ x) (hxy : x ≤ y) :
    roundHalfEven x ≤ roundHalfEven y := by
  have hfloor : ⌊x⌋₊ ≤ ⌊y⌋₊ := Nat.floor_le_floor hxy
  rcases hfloor.eq_or_lt with heq | hlt
  · unfold roundHalfEven
    simp only [heq]
    split_ifs <;> first | omega | (exfalso; linarith)
  · have hup : roundHalfEven x ≤ ⌊x⌋₊ + 1 :=
      (roundHalfEven_bounds (Nat.floor_le hx) (by exact_mod_cast Nat.lt_floor_add_one x)).2
    have hdown : ⌊y⌋₊ ≤ roundHalfEven y :=
      (roundHalfEven_bounds (Nat.floor_le (hx.trans hxy))
        (by exact_mod_cast Nat.lt_floor_add_one y)).1
    omega

def InFormat (p : ℕ) (low : ℤ) (x : ℚ) : Prop :=
  ∃ m e : ℤ, m.natAbs < 2 ^ (p + 1) ∧ low ≤ e ∧ x = m * 2 ^ e

/- The exponent of the last digit that is kept. -/
def lastPlace (p : ℕ) (low : ℤ) (x : ℚ) : ℤ := max low (Int.log 2 x - p)

def nearestAbs (p : ℕ) (low : ℤ) (x : ℚ) : ℚ :=
  roundHalfEven (x / 2 ^ lastPlace p low x) * 2 ^ lastPlace p low x

def nearest (p : ℕ) (low : ℤ) (x : ℚ) : ℚ :=
  if 0 ≤ x then nearestAbs p low x else -nearestAbs p low (-x)

section
variable {p : ℕ} {low : ℤ} {x y : ℚ}

theorem two_zpow_pos (e : ℤ) : (0 : ℚ) < 2 ^ e := by positivity

theorem two_zpow_split {e f : ℤ} {k : ℕ} (h : k + e = f) :
    ((2 ^ k : ℕ) : ℚ) * 2 ^ e = 2 ^ f := by
  rw [← h, zpow_add₀ (by norm_num), zpow_natCast, Nat.cast_pow, Nat.cast_ofNat]

theorem InFormat.neg (h : InFormat p low x) : InFormat p low (-x) := by
  obtain ⟨m, e, hm, he, rfl⟩ := h
  exact ⟨-m, e, by rwa [Int.natAbs_neg], he, by push_cast; ring⟩

/-- A number has at most `p + 1` digits before its last place. -/
theorem scaled_lt : x / 2 ^ lastPlace p low x < (2 ^ (p + 1) : ℕ) := by
  have hlast : Int.log 2 x - p ≤ lastPlace p low x := le_max_right _ _
  rw [div_lt_iff₀ (two_zpow_pos _), two_zpow_split (f := p + 1 + lastPlace p low x) (by push_cast; ring)]
  have hlog : x < ((2 : ℕ) : ℚ) ^ (Int.log 2 x + 1) :=
    Int.lt_zpow_succ_log_self Nat.one_lt_two x
  exact hlog.trans_le (zpow_le_zpow_right₀ one_le_two (by omega))

/-- It has that many when its last place is not the least one. -/
theorem le_scaled (hx : 0 < x) (hlast : low < lastPlace p low x) :
    ((2 ^ p : ℕ) : ℚ) ≤ x / 2 ^ lastPlace p low x := by
  have heq : lastPlace p low x = Int.log 2 x - p := by
    unfold lastPlace at hlast ⊢
    omega
  rw [le_div_iff₀ (two_zpow_pos _), two_zpow_split (f := Int.log 2 x) (by rw [heq]; ring)]
  exact Int.zpow_log_le_self (by decide) hx

theorem nearestAbs_zero : nearestAbs p low 0 = 0 := by
  have hzero : roundHalfEven 0 = 0 := by simpa using roundHalfEven_natCast 0
  simp [nearestAbs, hzero]

theorem nearestAbs_nonneg : 0 ≤ nearestAbs p low x := by
  unfold nearestAbs
  positivity

theorem nearestAbs_mem (hx : 0 ≤ x) : InFormat p low (nearestAbs p low x) := by
  rcases hx.eq_or_lt with rfl | hpos
  · rw [nearestAbs_zero]
    exact ⟨0, low, by positivity, le_rfl, by simp⟩
  · have hbound : roundHalfEven (x / 2 ^ lastPlace p low x) ≤ 2 ^ (p + 1) :=
      (roundHalfEven_bounds (a := 0) (by simpa using (div_pos hpos (two_zpow_pos _)).le)
        scaled_lt).2
    have hlow : low ≤ lastPlace p low x := le_max_left _ _
    unfold nearestAbs
    rcases hbound.eq_or_lt with hcarry | hfits
    · refine ⟨2 ^ p, lastPlace p low x + 1, ?_, hlow.trans (by omega), ?_⟩
      · simp [Int.natAbs_pow, pow_succ]
      · rw [hcarry, zpow_add₀ (by norm_num)]
        push_cast
        ring
    · refine ⟨roundHalfEven (x / 2 ^ lastPlace p low x), lastPlace p low x, ?_, hlow, by norm_cast⟩
      rwa [Int.natAbs_natCast]

theorem nearestAbs_of_mem (hx : 0 ≤ x) (h : InFormat p low x) : nearestAbs p low x = x := by
  rcases hx.eq_or_lt with rfl | hpos
  · exact nearestAbs_zero
  · obtain ⟨m, e, hm, he, hvalue⟩ := h
    have hmpos : 0 < m := by
      rw [hvalue] at hpos
      exact_mod_cast pos_of_mul_pos_left hpos (two_zpow_pos e).le
    have hlog : Int.log 2 x < p + 1 + e := by
      rw [← Int.lt_zpow_iff_log_lt (by decide) hpos]
      have hdigits : (m : ℚ) < (2 ^ (p + 1) : ℕ) := by exact_mod_cast (by omega : m < (2 ^ (p + 1) : ℕ))
      rw [hvalue]
      calc (m : ℚ) * 2 ^ e < (2 ^ (p + 1) : ℕ) * 2 ^ e :=
            mul_lt_mul_of_pos_right hdigits (two_zpow_pos e)
        _ = ((2 : ℕ) : ℚ) ^ ((p : ℤ) + 1 + e) := two_zpow_split (by push_cast; ring)
    have hlast : lastPlace p low x ≤ e := by
      unfold lastPlace
      omega
    obtain ⟨k, hk⟩ := Int.eq_ofNat_of_zero_le (show 0 ≤ e - lastPlace p low x by omega)
    have hscaled : x / 2 ^ lastPlace p low x = ((m.toNat * 2 ^ k : ℕ) : ℚ) := by
      rw [div_eq_iff (two_zpow_pos _).ne']
      have hm' : ((m.toNat : ℕ) : ℚ) = m := by exact_mod_cast Int.toNat_of_nonneg hmpos.le
      have hsplit : (k : ℤ) + lastPlace p low x = e := by omega
      rw [Nat.cast_mul, hm', mul_assoc, two_zpow_split hsplit]
      exact hvalue
    unfold nearestAbs
    rw [hscaled, roundHalfEven_natCast, ← hscaled, div_mul_cancel₀ _ (two_zpow_pos _).ne']

theorem nearestAbs_mono (hx : 0 ≤ x) (hxy : x ≤ y) : nearestAbs p low x ≤ nearestAbs p low y := by
  rcases hx.eq_or_lt with rfl | hpos
  · rw [nearestAbs_zero]
    exact nearestAbs_nonneg
  have hypos := hpos.trans_le hxy
  have hplace : lastPlace p low x ≤ lastPlace p low y :=
    max_le_max le_rfl (Int.sub_le_sub_right (Int.log_mono_right hpos hxy) _)
  unfold nearestAbs
  rcases hplace.eq_or_lt with hsame | hlt
  · rw [hsame]
    refine mul_le_mul_of_nonneg_right ?_ (two_zpow_pos _).le
    exact_mod_cast roundHalfEven_mono (div_nonneg hx (two_zpow_pos _).le)
      (div_le_div_of_nonneg_right hxy (two_zpow_pos _).le)
  · -- A later last place: the power of two between the two numbers is between their roundings.
    have hup : roundHalfEven (x / 2 ^ lastPlace p low x) ≤ 2 ^ (p + 1) :=
      (roundHalfEven_bounds (a := 0) (by simpa using (div_pos hpos (two_zpow_pos _)).le)
        scaled_lt).2
    have hdown : 2 ^ p ≤ roundHalfEven (y / 2 ^ lastPlace p low y) :=
      (roundHalfEven_bounds (le_scaled hypos ((le_max_left _ _).trans_lt hlt))
        scaled_lt).1
    calc (roundHalfEven (x / 2 ^ lastPlace p low x) : ℚ) * 2 ^ lastPlace p low x
        ≤ (2 ^ (p + 1) : ℕ) * 2 ^ lastPlace p low x :=
          mul_le_mul_of_nonneg_right (Nat.cast_le.mpr hup) (two_zpow_pos _).le
      _ = 2 ^ ((p : ℤ) + 1 + lastPlace p low x) := two_zpow_split (by push_cast; ring)
      _ ≤ 2 ^ ((p : ℤ) + lastPlace p low y) := zpow_le_zpow_right₀ (by norm_num) (by omega)
      _ = (2 ^ p : ℕ) * 2 ^ lastPlace p low y := (two_zpow_split rfl).symm
      _ ≤ roundHalfEven (y / 2 ^ lastPlace p low y) * 2 ^ lastPlace p low y :=
          mul_le_mul_of_nonneg_right (Nat.cast_le.mpr hdown) (two_zpow_pos _).le

theorem nearest_mem (p : ℕ) (low : ℤ) (x : ℚ) : InFormat p low (nearest p low x) := by
  unfold nearest
  split_ifs with hx
  · exact nearestAbs_mem hx
  · exact (nearestAbs_mem (by linarith)).neg

theorem nearest_of_mem (h : InFormat p low x) : nearest p low x = x := by
  unfold nearest
  split_ifs with hx
  · exact nearestAbs_of_mem hx h
  · rw [nearestAbs_of_mem (by linarith) h.neg, neg_neg]

theorem nearest_mono (p : ℕ) (low : ℤ) : Monotone (nearest p low) := by
  intro x y hxy
  unfold nearest
  split_ifs with hx hy hy
  · exact nearestAbs_mono hx hxy
  · linarith
  · exact (neg_nonpos.mpr nearestAbs_nonneg).trans nearestAbs_nonneg
  · exact neg_le_neg (nearestAbs_mono (by linarith) (by linarith))

theorem nearest_zero : nearest p low 0 = 0 := by
  rw [nearest, if_pos le_rfl, nearestAbs_zero]

theorem nearest_nonneg (hx : 0 ≤ x) : 0 ≤ nearest p low x := by
  have hle := nearest_mono p low hx
  rwa [nearest_zero] at hle

end

end AnalyticsEngine.Library
