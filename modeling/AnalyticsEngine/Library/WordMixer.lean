import Mathlib.Algebra.GroupWithZero.Nat
import Mathlib.Algebra.Group.Fin.Basic
import Mathlib.Data.Set.Card
import Mathlib.Order.Interval.Finset.Fin

/-!
# Mixing words of a fixed width

The steps of a multiplicative mixer lose nothing: adding a constant, multiplying by one that has an
inverse, and xor with a shift of itself. A bijective hash therefore sends as many words below a
threshold as the threshold says (`ncard_lt`).
-/

namespace AnalyticsEngine.Library

/-- The bits of `x` are found from the top down. -/
theorem xor_shiftRight_injective {k : ℕ} (hk : 0 < k) :
    Function.Injective fun x : ℕ => x ^^^ (x >>> k) := by
  intro x y h
  obtain ⟨m, hm⟩ : ∃ m, x < 2 ^ m ∧ y < 2 ^ m := by
    refine ⟨max x y, ?_, ?_⟩
    · exact Nat.lt_two_pow_self.trans_le (Nat.pow_le_pow_right (by omega) (le_max_left x y))
    · exact Nat.lt_two_pow_self.trans_le (Nat.pow_le_pow_right (by omega) (le_max_right x y))
  have hbits : ∀ n i, m ≤ n + i → x.testBit i = y.testBit i := by
    intro n
    induction n with
    | zero =>
      intro i hi
      have hpow : 2 ^ m ≤ 2 ^ i := Nat.pow_le_pow_right (by omega) (by omega)
      rw [Nat.testBit_lt_two_pow (hm.1.trans_le hpow), Nat.testBit_lt_two_pow (hm.2.trans_le hpow)]
    | succ n ih =>
      intro i hi
      have hbit := congrArg (fun z => Nat.testBit z i) h
      simp only [Nat.testBit_xor, Nat.testBit_shiftRight] at hbit
      rw [ih (k + i) (by omega)] at hbit
      exact Bool.xor_left_inj.mp hbit
  exact Nat.eq_of_testBit_eq fun i => hbits m i (by omega)

variable {w : ℕ}

theorem xorShift_injective {s : Fin (2 ^ w)} (hs : 0 < s.val) :
    Function.Injective fun x : Fin (2 ^ w) => x ^^^ (x >>> s) := by
  intro x y h
  have hval := congrArg Fin.val h
  simp only [Fin.xor_val_of_two_pow, Fin.shiftRight_val] at hval
  exact Fin.ext (xor_shiftRight_injective hs hval)

theorem xor_injective (s : Fin (2 ^ w)) : Function.Injective fun x : Fin (2 ^ w) => x ^^^ s := by
  intro x y h
  have hval := congrArg (fun z => z.val ^^^ s.val) h
  simp only [Fin.xor_val_of_two_pow, Nat.xor_assoc, Nat.xor_self, Nat.xor_zero] at hval
  exact Fin.ext hval

section
variable {n : ℕ} [NeZero n]

theorem mul_injective_of_inverse {c inverse : Fin n} (h : c * inverse = 1) :
    Function.Injective fun x : Fin n => x * c := by
  intro x y hxy
  have hmul := congrArg (· * inverse) hxy
  simpa only [Fin.mul_assoc, h, Fin.mul_one] using hmul

end

theorem ncard_fin_lt {n k : ℕ} (hk : k ≤ n) : {u : Fin n | u.val < k}.ncard = k := by
  have hmap : {u : Fin n | u.val < k} = Set.range (Fin.castLE hk) := by
    ext u
    constructor
    · intro hu
      exact ⟨⟨u.val, hu⟩, rfl⟩
    · rintro ⟨v, rfl⟩
      exact v.isLt
  rw [hmap, ← Set.image_univ, Set.ncard_image_of_injective _ (Fin.castLE_injective hk),
    Set.ncard_univ, Nat.card_fin]

theorem ncard_fin_ge {n k : ℕ} (hk : k ≤ n) : {u : Fin n | n - k ≤ u.val}.ncard = k := by
  have hrev : {u : Fin n | n - k ≤ u.val} = Fin.rev '' {u : Fin n | u.val < k} := by
    ext u
    constructor
    · intro hu
      refine ⟨u.rev, ?_, Fin.rev_rev u⟩
      change u.rev.val < k
      rw [Fin.val_rev]
      have := u.isLt
      have hu' : n - k ≤ u.val := hu
      omega
    · rintro ⟨v, hv, rfl⟩
      change n - k ≤ v.rev.val
      rw [Fin.val_rev]
      have hv' : v.val < k := hv
      omega
  rw [hrev, Set.ncard_image_of_injective _ Fin.rev_injective, ncard_fin_lt hk]

/-- A bijection puts as many words into a set as the set has. -/
theorem ncard_hash {α : Type*} {hash : α → α} (h : Function.Bijective hash) (s : Set α) :
    {x | hash x ∈ s}.ncard = s.ncard :=
  Set.ncard_preimage_of_injective_subset_range h.1 (by rw [h.2.range_eq]; exact Set.subset_univ s)

end AnalyticsEngine.Library
