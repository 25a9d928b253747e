import AnalyticsEngine.ExactTopK.Candidates
import AnalyticsEngine.Library.Binary32
import Mathlib.Data.List.GetD

/-!
# The packed rank key

`_rank_keys` and `sorted_lists` on `float32` patterns and `int32` positions. A key is the word of
its high half and its position (`rankKeys_toInt`), the high half rises as the score falls
(`highWord_toInt`), so keys compare as the published order does.
-/

namespace AnalyticsEngine.ExactTopK
open Library Library.Binary32

/-- `np.negative`. -/
def negative (score : Bits) : Bits := score ^^^ 0x80000000#32

/- `+ np.float32(0.0)`: the sum of two zeros of unlike sign is `+0.0`, and any other number is
left as it is. -/
def addZero (score : Bits) : Bits :=
  if score = 0#32 ∨ score = 0x80000000#32 then 0#32 else score

def highWord (bits : BitVec 32) : BitVec 32 :=
  bits ^^^ (bits.sshiftRight 31 &&& 0x7FFFFFFF#32)

/-- `_rank_keys`, for one entry. -/
def rankKeys (score : Bits) (position : BitVec 32) : BitVec 64 :=
  let negated := addZero (negative score)
  (highWord negated).signExtend 64 <<< 32 ||| (position.signExtend 64 &&& 0xFFFFFFFF#64)

/-- `np.argsort`, which promises no order among equal keys. -/
structure ArgSort where
  run : List (BitVec 64) → List ℕ
  perm : ∀ keys, (run keys).Perm (List.range keys.length)
  sorted : ∀ keys, (run keys).Pairwise fun i j =>
    (keys.getD i 0#64).toInt ≤ (keys.getD j 0#64).toInt

/-- `np.take_along_axis`, for one row. -/
def takeAlong {β : Type*} [Inhabited β] (row : List β) (order : List ℕ) : List β :=
  order.map fun i => row.getD i default

def sortedRow (argsort : ArgSort) (scores : List Bits) (positions : List (BitVec 32)) :
    List Bits × List (BitVec 32) :=
  let order := argsort.run (List.zipWith rankKeys scores positions)
  (takeAlong scores order, takeAlong positions order)

/-- `sorted_lists`. -/
def sortedLists (argsort : ArgSort) (scores : List (List Bits))
    (positions : List (List (BitVec 32))) : List (List Bits) × List (List (BitVec 32)) :=
  (List.zipWith (sortedRow argsort) scores positions).unzip

/-! ### The words of a key -/

theorem sign_toNat (b : Bits) : (b ^^^ 0x80000000#32).toNat = (b.toNat + 2 ^ 31) % 2 ^ 32 := by
  have hlt := b.isLt
  have hdiv : (b.toNat ^^^ 2 ^ 31) / 2 ^ 31 = b.toNat / 2 ^ 31 ^^^ 1 := by
    rw [Nat.xor_div_two_pow, Nat.div_self (Nat.two_pow_pos 31)]
  have hmod : (b.toNat ^^^ 2 ^ 31) % 2 ^ 31 = b.toNat % 2 ^ 31 := by
    rw [Nat.xor_mod_two_pow, Nat.mod_self, Nat.xor_zero]
  have hbit : b.toNat / 2 ^ 31 = 0 ∨ b.toNat / 2 ^ 31 = 1 := by omega
  rw [BitVec.toNat_xor]
  change b.toNat ^^^ 2 ^ 31 = _
  rcases hbit with hbit | hbit
  · rw [hbit, Nat.zero_xor] at hdiv
    omega
  · rw [hbit, Nat.xor_self] at hdiv
    omega

theorem negative_fields (b : Bits) : (negative b).msb = !b.msb ∧ low (negative b) = low b := by
  have hlt := b.isLt
  have htoNat := sign_toNat b
  unfold negative
  constructor
  · rw [msb_eq, msb_eq, htoNat, ← decide_not]
    apply decide_eq_decide.mpr
    omega
  · unfold low
    omega

theorem signedOrder_negative (b : Bits) : signedOrder (negative b) = -signedOrder b := by
  unfold signedOrder
  rw [(negative_fields b).1, (negative_fields b).2]
  cases b.msb <;> simp

theorem low_eq_zero_iff (b : Bits) : low b = 0 ↔ b = 0#32 ∨ b = 0x80000000#32 := by
  have hlt := b.isLt
  unfold low
  constructor
  · intro h
    by_cases hzero : b.toNat = 0
    · exact Or.inl (BitVec.eq_of_toNat_eq hzero)
    · refine Or.inr (BitVec.eq_of_toNat_eq ?_)
      change b.toNat = 2 ^ 31
      omega
  · rintro (rfl | rfl) <;> rfl

/-- The sum is the same number, and never `-0.0`. -/
theorem addZero_spec (b : Bits) :
    signedOrder (addZero b) = signedOrder b ∧ ((addZero b).msb → low (addZero b) ≠ 0) := by
  unfold addZero
  by_cases hzero : low b = 0
  · rw [if_pos ((low_eq_zero_iff b).mp hzero)]
    refine ⟨?_, fun h => absurd h Bool.false_ne_true⟩
    unfold signedOrder
    rw [hzero]
    cases b.msb <;> rfl
  · rw [if_neg (mt (low_eq_zero_iff b).mpr hzero)]
    exact ⟨rfl, fun _ => hzero⟩

theorem sshiftRight_sign (b : Bits) :
    b.sshiftRight 31 = if b.msb then BitVec.allOnes 32 else 0#32 := by
  have hlt := b.isLt
  have hmsb := msb_eq b
  apply BitVec.eq_of_toInt_eq
  rw [BitVec.toInt_sshiftRight, Int.shiftRight_eq_div_pow, BitVec.toInt_eq_toNat_cond]
  by_cases h : 2 ^ 31 ≤ b.toNat
  · rw [hmsb, decide_eq_true h, if_pos rfl, if_neg (by omega)]
    change _ = (-1 : ℤ)
    omega
  · rw [hmsb, decide_eq_false h, if_neg Bool.false_ne_true, if_pos (by omega)]
    change _ = (0 : ℤ)
    omega

/-- The high word's integer: a negative number's is below zero by its magnitude and one. -/
theorem highWord_toInt (b : Bits) :
    (highWord b).toInt = if b.msb then -1 - (low b : ℤ) else low b := by
  have hlow := low_lt b
  have htoNat := toNat_low b
  unfold highWord
  rw [sshiftRight_sign]
  cases hmsb : b.msb with
  | false =>
    rw [hmsb, if_neg Bool.false_ne_true] at htoNat
    rw [if_neg Bool.false_ne_true, if_neg Bool.false_ne_true, BitVec.zero_and, BitVec.xor_zero,
      BitVec.toInt_eq_toNat_cond, htoNat, if_pos (by omega)]
  | true =>
    rw [hmsb, if_pos rfl] at htoNat
    have hmask : 0x7FFFFFFF#32 = ~~~0x80000000#32 := by decide
    have hsign := sign_toNat b
    rw [if_pos rfl, if_pos rfl, BitVec.allOnes_and, hmask, ← BitVec.not_xor_right,
      BitVec.toInt_eq_toNat_cond, BitVec.toNat_not, hsign, htoNat, if_neg (by omega)]
    omega

theorem rankKeys_append (score : Bits) (position : BitVec 32) :
    rankKeys score position = (highWord (addZero (negative score)) ++ position : BitVec 64) := by
  unfold rankKeys
  dsimp only
  generalize highWord (addZero (negative score)) = high
  have hmask : 0xFFFFFFFF#64 = (BitVec.allOnes 32).setWidth 64 := by decide
  apply BitVec.eq_of_getLsbD_eq
  intro i hi
  rw [hmask, BitVec.getLsbD_append, BitVec.getLsbD_or, BitVec.getLsbD_shiftLeft,
    BitVec.getLsbD_and, BitVec.getLsbD_signExtend, BitVec.getLsbD_signExtend,
    BitVec.getLsbD_setWidth, BitVec.getLsbD_allOnes]
  by_cases hlow : i < 32
  · simp [hlow, hi]
  · have hword : i - 32 < 32 := by omega
    have hkey : i - 32 < 64 := by omega
    simp [hlow, hi, hword, hkey]

theorem rankKeys_toInt (score : Bits) (position : BitVec 32) :
    (rankKeys score position).toInt =
      2 ^ 32 * (highWord (addZero (negative score))).toInt + position.toNat := by
  rw [rankKeys_append]
  exact BitVec.toInt_append

theorem highWord_score (b : Bits) :
    (highWord (addZero (negative b))).toInt =
      if 0 < signedOrder b then -1 - signedOrder b else -signedOrder b := by
  obtain ⟨horder, hzero⟩ := addZero_spec (negative b)
  rw [signedOrder_negative] at horder
  rw [highWord_toInt]
  unfold signedOrder at horder ⊢
  cases hmsb : (addZero (negative b)).msb with
  | false =>
    rw [hmsb, if_neg Bool.false_ne_true] at horder
    rw [if_neg Bool.false_ne_true, if_neg (by omega), horder]
  | true =>
    have hlow := hzero hmsb
    rw [hmsb, if_pos rfl] at horder
    rw [if_pos rfl, if_pos (by omega)]
    omega

/-! ### The published order -/

/-- A position the lists store. -/
def IsSlot (p : BitVec 32) : Prop := 0 ≤ p.toInt ∨ p = emptyPosition

/-- By position, `EMPTY_POSITION` after every real one. -/
def ComesBefore (p q : BitVec 32) : Prop :=
  p ≠ emptyPosition ∧ (q = emptyPosition ∨ p.toInt < q.toInt)

def RanksAhead (x y : Bits × BitVec 32) : Prop :=
  value y.1 < value x.1 ∨ (value x.1 = value y.1 ∧ ComesBefore x.2 y.2)

/-- A cell of the lists: a score that is not a NaN, and a slot's position. -/
def IsCell (x : Bits × BitVec 32) : Prop := ¬IsNaN x.1 ∧ IsSlot x.2

instance (p : BitVec 32) : Decidable (IsSlot p) := inferInstanceAs (Decidable (_ ∨ _))
instance (x : Bits × BitVec 32) : Decidable (IsCell x) := inferInstanceAs (Decidable (_ ∧ _))

theorem slot_toNat {p : BitVec 32} (h : IsSlot p) :
    (p = emptyPosition ∧ p.toNat = 2 ^ 32 - 1) ∨
    (p ≠ emptyPosition ∧ p.toNat < 2 ^ 31 ∧ p.toInt = p.toNat) := by
  by_cases hempty : p = emptyPosition
  · rw [hempty]
    exact Or.inl ⟨rfl, rfl⟩
  · have hreal := h.resolve_right hempty
    have hlt := p.isLt
    rw [BitVec.toInt_eq_toNat_cond] at hreal ⊢
    refine Or.inr ⟨hempty, ?_⟩
    split_ifs at hreal ⊢ <;> omega

theorem comesBefore_iff {p q : BitVec 32} (hp : IsSlot p) (hq : IsSlot q) :
    ComesBefore p q ↔ p.toNat < q.toNat := by
  have hlt := q.isLt
  unfold ComesBefore
  rcases slot_toNat hp with ⟨hempty, hword⟩ | ⟨hreal, hword, hint⟩
  · rw [hword]
    exact iff_of_false (fun h => h.1 hempty) (by omega)
  · rcases slot_toNat hq with ⟨hempty', hword'⟩ | ⟨hreal', _, hint'⟩
    · rw [hword']
      exact iff_of_true ⟨hreal, Or.inl hempty'⟩ (by omega)
    · rw [hint, hint', Nat.cast_lt]
      exact ⟨fun h => h.2.resolve_left hreal', fun h => ⟨hreal, Or.inr h⟩⟩

theorem rankKeys_lt_iff {x y : Bits × BitVec 32} (hx : IsCell x) (hy : IsCell y) :
    (rankKeys x.1 x.2).toInt < (rankKeys y.1 y.2).toInt ↔ RanksAhead x y := by
  have hxlt := x.2.isLt
  have hylt := y.2.isLt
  unfold RanksAhead
  rw [rankKeys_toInt, rankKeys_toInt, highWord_score, highWord_score,
    value_lt_iff hy.1 hx.1, value_eq_iff hx.1 hy.1, comesBefore_iff hx.2 hy.2]
  split_ifs <;> omega

/-! ### Sorted rows -/

/-- `-inf` and `EMPTY_POSITION`. -/
def unfilledSlot : Bits × BitVec 32 := (0xFF800000#32, emptyPosition)

/-- `out` is `row` in the published order, its unfilled slots last. -/
structure IsSorted (row out : List (Bits × BitVec 32)) : Prop where
  perm : out.Perm row
  ranked : out.Pairwise fun x y => ¬RanksAhead y x
  unfilled_last : ∃ filled count, out = filled ++ List.replicate count unfilledSlot ∧
    unfilledSlot ∉ filled

theorem unfilledSlot_order : signedOrder unfilledSlot.1 = -(255 * 2 ^ 23) := rfl

/-- Only an unfilled slot does not rank ahead of one. -/
theorem eq_unfilledSlot {x : Bits × BitVec 32} (hx : IsCell x) (h : ¬RanksAhead x unfilledSlot) :
    x = unfilledSlot := by
  have hnan : ¬IsNaN unfilledSlot.1 := by decide
  unfold RanksAhead at h
  rw [not_or, value_lt_iff hnan hx.1, value_eq_iff hx.1 hnan, unfilledSlot_order] at h
  obtain ⟨hscore, htie⟩ := h
  have hle := mt (isNaN_iff x.1).mpr hx.1
  have hword := toNat_low x.1
  unfold signedOrder at hscore htie
  cases hmsb : x.1.msb with
  | false =>
    rw [hmsb, if_neg Bool.false_ne_true] at hscore
    omega
  | true =>
    rw [hmsb, if_pos rfl] at hscore htie hword
    have hlow : low x.1 = 255 * 2 ^ 23 := by omega
    have hbits : x.1 = 0xFF800000#32 := by
      apply BitVec.eq_of_toNat_eq
      rw [hword, hlow]
      rfl
    have hposition : x.2 = emptyPosition := by
      by_contra hne
      refine htie ⟨?_, hne, Or.inl rfl⟩
      rw [hlow]
      rfl
    exact Prod.ext hbits hposition

theorem unfilled_suffix {l : List (Bits × BitVec 32)} (hcells : ∀ x ∈ l, IsCell x)
    (hranked : l.Pairwise fun x y => ¬RanksAhead y x) :
    ∃ filled count, l = filled ++ List.replicate count unfilledSlot ∧ unfilledSlot ∉ filled := by
  induction l with
  | nil => exact ⟨[], 0, rfl, List.not_mem_nil⟩
  | cons x l ih =>
    obtain ⟨hx, hl⟩ := List.pairwise_cons.mp hranked
    have hcells' : ∀ y ∈ l, IsCell y := fun y hy => hcells y (List.mem_cons_of_mem x hy)
    by_cases hunfilled : x = unfilledSlot
    · have hrest : ∀ y ∈ l, y = unfilledSlot := by
        intro y hy
        apply eq_unfilledSlot (hcells' y hy)
        rw [← hunfilled]
        exact hx y hy
      refine ⟨[], l.length + 1, ?_, List.not_mem_nil⟩
      rw [List.nil_append, List.replicate_succ, hunfilled, ← List.eq_replicate_of_mem hrest]
    · obtain ⟨filled, count, hsplit, hnot⟩ := ih hcells' hl
      refine ⟨x :: filled, count, ?_, ?_⟩
      · rw [hsplit, List.cons_append]
      · rw [List.mem_cons, not_or]
        exact ⟨Ne.symm hunfilled, hnot⟩

section
variable (argsort : ArgSort) {scores : List Bits} {positions : List (BitVec 32)}

def cellAt (scores : List Bits) (positions : List (BitVec 32)) (i : ℕ) : Bits × BitVec 32 :=
  (scores.getD i default, positions.getD i default)

theorem sortedRow_zip : List.zip (sortedRow argsort scores positions).1
    (sortedRow argsort scores positions).2 =
      (argsort.run (List.zipWith rankKeys scores positions)).map (cellAt scores positions) := by
  unfold sortedRow takeAlong
  exact List.zip_map'

theorem zip_cells (hlength : scores.length = positions.length) :
    scores.zip positions = (List.range scores.length).map (cellAt scores positions) := by
  apply List.ext_getElem
  · rw [List.length_zip, List.length_map, List.length_range, ← hlength, Nat.min_self]
  · intro i hi _
    rw [List.length_zip, ← hlength, Nat.min_self] at hi
    rw [List.getElem_zip, List.getElem_map, List.getElem_range]
    unfold cellAt
    rw [List.getD_eq_getElem scores default hi, List.getD_eq_getElem positions default (by omega)]

theorem keys_getD (hlength : scores.length = positions.length) {i : ℕ} (hi : i < scores.length) :
    (List.zipWith rankKeys scores positions).getD i 0#64 =
      rankKeys (cellAt scores positions i).1 (cellAt scores positions i).2 := by
  have hi' : i < (List.zipWith rankKeys scores positions).length := by
    rw [List.length_zipWith]
    omega
  unfold cellAt
  rw [List.getD_eq_getElem _ _ hi', List.getElem_zipWith, List.getD_eq_getElem scores default hi,
    List.getD_eq_getElem positions default (by omega)]

theorem sortedRow_isSorted (hlength : scores.length = positions.length)
    (hcells : ∀ x ∈ scores.zip positions, IsCell x) :
    IsSorted (scores.zip positions)
      (List.zip (sortedRow argsort scores positions).1 (sortedRow argsort scores positions).2) := by
  have horder := argsort.perm (List.zipWith rankKeys scores positions)
  rw [List.length_zipWith, ← hlength, Nat.min_self] at horder
  have hperm : (List.zip (sortedRow argsort scores positions).1
      (sortedRow argsort scores positions).2).Perm (scores.zip positions) := by
    rw [sortedRow_zip, zip_cells hlength]
    exact horder.map _
  have hcells' := fun x hx => hcells x (hperm.mem_iff.mp hx)
  have hranked : (List.zip (sortedRow argsort scores positions).1
      (sortedRow argsort scores positions).2).Pairwise fun x y => ¬RanksAhead y x := by
    rw [sortedRow_zip] at hcells' ⊢
    rw [List.pairwise_map]
    refine (argsort.sorted (List.zipWith rankKeys scores positions)).imp_of_mem ?_
    intro i j hi hj hle
    have hi' := List.mem_range.mp (horder.mem_iff.mp hi)
    have hj' := List.mem_range.mp (horder.mem_iff.mp hj)
    rw [keys_getD hlength hi', keys_getD hlength hj'] at hle
    rw [← rankKeys_lt_iff (hcells' _ (List.mem_map_of_mem hj)) (hcells' _ (List.mem_map_of_mem hi))]
    exact hle.not_gt
  exact ⟨hperm, hranked, unfilled_suffix hcells' hranked⟩

/-! ### The abstract lists -/

/-- A score pattern as a cell of the kernel: `_FLOOR` is the least finite number. -/
def cellScore (b : Bits) : Score ℚ :=
  if b = 0xFF7FFFFF#32 then floor
  else match value b with
    | none => negInf
    | some none => posInf
    | some (some q) => real q

def cellEntry (x : Bits × BitVec 32) : Entry ℚ := ⟨cellScore x.1, x.2⟩

theorem cellScore_cases {b : Bits} (h : ¬IsNaN b) :
    (cellScore b = negInf ∧ signedOrder b = -(255 * 2 ^ 23)) ∨
    (cellScore b = floor ∧ signedOrder b = 1 - 255 * 2 ^ 23) ∨
    (cellScore b = real ((units b : ℚ) / 2 ^ 149) ∧
      1 - 255 * 2 ^ 23 < signedOrder b ∧ signedOrder b < 255 * 2 ^ 23) ∨
    (cellScore b = posInf ∧ signedOrder b = 255 * 2 ^ 23) := by
  unfold cellScore
  by_cases hfloor : b = 0xFF7FFFFF#32
  · rw [if_pos hfloor, hfloor]
    exact Or.inr (Or.inl ⟨rfl, rfl⟩)
  · rw [if_neg hfloor]
    rcases value_cases h with ⟨hvalue, horder⟩ | ⟨hvalue, horder⟩ | ⟨hvalue, hlow, hhigh⟩
    · rw [hvalue]
      exact Or.inl ⟨rfl, horder⟩
    · rw [hvalue]
      exact Or.inr (Or.inr (Or.inr ⟨rfl, horder⟩))
    · rw [hvalue]
      refine Or.inr (Or.inr (Or.inl ⟨rfl, ?_, hhigh⟩))
      have hne : signedOrder b ≠ 1 - 255 * 2 ^ 23 := by
        intro horder
        apply hfloor
        have hword := toNat_low b
        apply BitVec.eq_of_toNat_eq
        change b.toNat = 4286578687
        unfold signedOrder at horder
        cases hmsb : b.msb with
        | false =>
          rw [hmsb, if_neg Bool.false_ne_true] at horder
          omega
        | true =>
          rw [hmsb, if_pos rfl] at horder hword
          omega
      omega

theorem cellScore_lt {a b : Bits} (ha : ¬IsNaN a) (hb : ¬IsNaN b)
    (h : signedOrder a < signedOrder b) : cellScore a < cellScore b := by
  rcases cellScore_cases ha with ⟨hca, hoa⟩ | ⟨hca, hoa⟩ | ⟨hca, hoa⟩ | ⟨hca, hoa⟩ <;>
    rcases cellScore_cases hb with ⟨hcb, hob⟩ | ⟨hcb, hob⟩ | ⟨hcb, hob⟩ | ⟨hcb, hob⟩ <;>
    try omega
  all_goals rw [hca, hcb]
  · exact negInf_lt_floor
  · exact negInf_lt_floor.trans (floor_lt_real _)
  · exact negInf_lt_posInf
  · exact floor_lt_real _
  · exact floor_lt_posInf
  · rw [lt_iff_not_ge, real_le_real, not_le]
    have hunits := coe_units_lt_iff a b
    rw [units_lt_iff, WithBot.coe_lt_coe, WithTop.coe_lt_coe] at hunits
    exact hunits.mpr h
  · exact real_lt_posInf _

theorem cellScore_eq {a b : Bits} (ha : ¬IsNaN a) (hb : ¬IsNaN b)
    (h : signedOrder a = signedOrder b) : cellScore a = cellScore b := by
  rcases cellScore_cases ha with ⟨hca, hoa⟩ | ⟨hca, hoa⟩ | ⟨hca, hoa⟩ | ⟨hca, hoa⟩ <;>
    rcases cellScore_cases hb with ⟨hcb, hob⟩ | ⟨hcb, hob⟩ | ⟨hcb, hob⟩ | ⟨hcb, hob⟩ <;>
    try omega
  all_goals rw [hca, hcb]
  have hlt := units_lt_iff a b
  have hgt := units_lt_iff b a
  have hunits : units a = units b := by omega
  rw [hunits]

/-- The keys order the cells as the kernel orders its entries. -/
theorem cellEntry_lt_iff {x y : Bits × BitVec 32} (hx : IsCell x) (hy : IsCell y) :
    cellEntry x < cellEntry y ↔ (rankKeys x.1 x.2).toInt < (rankKeys y.1 y.2).toInt := by
  rw [rankKeys_lt_iff hx hy]
  unfold RanksAhead
  rw [value_lt_iff hy.1 hx.1, value_eq_iff hx.1 hy.1, comesBefore_iff hx.2 hy.2]
  change toLex (OrderDual.toDual (cellScore x.1), x.2.toNat) <
    toLex (OrderDual.toDual (cellScore y.1), y.2.toNat) ↔ _
  rw [Prod.Lex.toLex_lt_toLex, OrderDual.toDual_lt_toDual, OrderDual.toDual_inj]
  rcases lt_trichotomy (signedOrder x.1) (signedOrder y.1) with h | h | h
  · have hlt := cellScore_lt hx.1 hy.1 h
    simp only [hlt.not_gt, hlt.ne, h.not_gt, h.ne, false_and, or_self]
  · have heq := cellScore_eq hx.1 hy.1 h
    simp only [heq, h, lt_irrefl, true_and, false_or]
  · have hlt := cellScore_lt hy.1 hx.1 h
    simp only [hlt, h, true_or]

/-- A sorted row is the kernel's sorted list of its cells. -/
theorem sortedRow_sortedList (hlength : scores.length = positions.length)
    (hcells : ∀ x ∈ scores.zip positions, IsCell x) :
    (List.zip (sortedRow argsort scores positions).1
      (sortedRow argsort scores positions).2).map cellEntry =
        sortedList ((scores.zip positions).map cellEntry) := by
  have hsorted := sortedRow_isSorted argsort hlength hcells
  have hperm : ((List.zip (sortedRow argsort scores positions).1
      (sortedRow argsort scores positions).2).map cellEntry).Perm
        (sortedList ((scores.zip positions).map cellEntry)) :=
    (hsorted.perm.map _).trans (List.mergeSort_perm _ _).symm
  have hranked : ((List.zip (sortedRow argsort scores positions).1
      (sortedRow argsort scores positions).2).map cellEntry).Pairwise (· ≤ ·) := by
    rw [List.pairwise_map]
    refine hsorted.ranked.imp_of_mem ?_
    intro x y hx hy hnot
    have hx' := hcells x (hsorted.perm.mem_iff.mp hx)
    have hy' := hcells y (hsorted.perm.mem_iff.mp hy)
    rw [← rankKeys_lt_iff hy' hx', ← cellEntry_lt_iff hy' hx'] at hnot
    exact not_lt.mp hnot
  exact hperm.eq_of_pairwise' hranked (pairwise_mergeSort_le _)

end

theorem sortedLists_zip (argsort : ArgSort) (scores : List (List Bits))
    (positions : List (List (BitVec 32))) :
    List.zipWith List.zip (sortedLists argsort scores positions).1
      (sortedLists argsort scores positions).2 =
        List.zipWith (fun s p => List.zip (sortedRow argsort s p).1 (sortedRow argsort s p).2)
          scores positions := by
  unfold sortedLists
  rw [List.unzip_eq_map, List.zipWith_map, List.zipWith_self, List.map_zipWith]

/-- Keys compare as the published order, and every row comes back in it. -/
theorem rankKeys_published :
    (∀ (a b : Bits) (p q : BitVec 32), ¬IsNaN a → ¬IsNaN b → IsSlot p → IsSlot q →
      ((rankKeys a p).toInt < (rankKeys b q).toInt ↔
        value b < value a ∨ (value a = value b ∧ ComesBefore p q))) ∧
    ∀ argsort scores positions,
      List.Forall₂ (fun s p => s.length = p.length) scores positions →
      (∀ row ∈ List.zipWith List.zip scores positions, ∀ x ∈ row, IsCell x) →
      List.Forall₂ IsSorted (List.zipWith List.zip scores positions)
        (List.zipWith List.zip (sortedLists argsort scores positions).1
          (sortedLists argsort scores positions).2) := by
  constructor
  · intro a b p q ha hb hp hq
    have ha' : IsCell (a, p) := ⟨ha, hp⟩
    have hb' : IsCell (b, q) := ⟨hb, hq⟩
    have hkeys := rankKeys_lt_iff ha' hb'
    unfold RanksAhead at hkeys
    dsimp only at hkeys
    exact hkeys
  · intro argsort scores positions hshape
    rw [sortedLists_zip]
    induction hshape with
    | nil => exact fun _ => List.Forall₂.nil
    | cons hlength _ ih =>
      intro hcells
      refine List.Forall₂.cons ?_ (ih fun row hrow => hcells row (List.mem_cons_of_mem _ hrow))
      exact sortedRow_isSorted argsort hlength (hcells _ List.mem_cons_self)

def mergeArgSort : ArgSort where
  run keys := (List.range keys.length).mergeSort fun i j =>
    (keys.getD i 0#64).toInt ≤ (keys.getD j 0#64).toInt
  perm keys := List.mergeSort_perm _ _
  sorted keys := by
    refine (List.pairwise_mergeSort ?_ ?_ _).imp of_decide_eq_true
    · intro i j l hij hjl
      exact decide_eq_true ((of_decide_eq_true hij).trans (of_decide_eq_true hjl))
    · intro i j
      rw [Bool.or_eq_true, decide_eq_true_eq, decide_eq_true_eq]
      exact le_total _ _

def halfScores : List Bits := [0xFF800000#32, 0x3F000000#32, 0x3F000000#32, 0x3F666666#32]
def halfPositions : List (BitVec 32) := [emptyPosition, 7#32, 3#32, 9#32]

theorem rankKeys_published_half :
    (rankKeys 0x80000000#32 3#32).toInt < (rankKeys 0x00000000#32 7#32).toInt ∧
    List.Forall₂ IsSorted [halfScores.zip halfPositions]
      (List.zipWith List.zip (sortedLists mergeArgSort [halfScores] [halfPositions]).1
        (sortedLists mergeArgSort [halfScores] [halfPositions]).2) := by
  have horder : signedOrder 0x80000000#32 = signedOrder 0x00000000#32 := by decide
  have hzeros : value 0x80000000#32 = value 0x00000000#32 :=
    (value_eq_iff (by decide) (by decide)).mpr horder
  have hbefore : ComesBefore 3#32 7#32 := ⟨by decide, Or.inr (by decide)⟩
  have hall : (halfScores.zip halfPositions).all (fun x => decide (IsCell x)) := by decide
  have hcells : ∀ x ∈ halfScores.zip halfPositions, IsCell x := fun x hx =>
    of_decide_eq_true (List.all_eq_true.mp hall x hx)
  constructor
  · exact (rankKeys_published.1 0x80000000#32 0x00000000#32 3#32 7#32 (by decide) (by decide)
      (by decide) (by decide)).mpr (Or.inr ⟨hzeros, hbefore⟩)
  · refine rankKeys_published.2 mergeArgSort [halfScores] [halfPositions]
      (List.Forall₂.cons rfl List.Forall₂.nil) ?_
    intro row hrow
    rw [List.mem_singleton.mp hrow]
    exact hcells

end AnalyticsEngine.ExactTopK
