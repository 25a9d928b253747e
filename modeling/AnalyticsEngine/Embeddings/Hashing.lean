import AnalyticsEngine.Embeddings.Projection
import AnalyticsEngine.Library.WordMixer
import Mathlib.Algebra.Order.Ring.Int
import Mathlib.Data.List.GetD
import Mathlib.Order.CompletePartialOrder

/-!
# The hashed draws (insights/embeddings/projection.py)

For each column the hash of the node keys is a bijection of the 64-bit words, so that the two tails
of the draw hold the same number of keys; two columns never hash a key alike. Any slice of rows
and range of columns is read off the full matrix.
-/

namespace AnalyticsEngine.Embeddings
open Library

variable {F D O : Type*}

/-! ### The scalar and the vectorised SplitMix64 -/

def mask64 : ℕ := (1 <<< 64) - 1
def mix1 : ℕ := 0xBF58476D1CE4E5B9
def mix2 : ℕ := 0x94D049BB133111EB

/-- `splitmix64`, on unbounded integers. -/
def splitmix64Scalar (x : ℕ) : ℕ :=
  let z := (x + 0x9E3779B97F4A7C15) &&& mask64
  let z := ((z ^^^ (z >>> 30)) * mix1) &&& mask64
  let z := ((z ^^^ (z >>> 27)) * mix2) &&& mask64
  z ^^^ (z >>> 31)

/-- `column_salt`. -/
def columnSaltScalar (seed column : ℕ) : ℕ :=
  splitmix64Scalar ((seed + (column + 1) * 0x9E3779B97F4A7C15) &&& mask64)

/-- `splitmix64_array`, one array operation a line. -/
def splitmix64Array (x : List U64) : List U64 :=
  let z := x.map (· + goldenGamma)
  let z := z.zipWith (· ^^^ ·) (z.map fun e => e >>> (30 : U64))
  let z := z.map (· * Fin.ofNat (2 ^ 64) mix1)
  let z := z.zipWith (· ^^^ ·) (z.map fun e => e >>> (27 : U64))
  let z := z.map (· * Fin.ofNat (2 ^ 64) mix2)
  z.zipWith (· ^^^ ·) (z.map fun e => e >>> (31 : U64))

theorem and_mask64 (x : ℕ) : x &&& mask64 = x % 2 ^ 64 := Nat.and_two_pow_sub_one_eq_mod x 64

theorem splitmix64_val (x : U64) : (splitmix64 x).val = splitmix64Scalar x.val := by
  unfold splitmix64 splitmix64Scalar
  simp only [and_mask64, Fin.xor_val_of_two_pow, Fin.shiftRight_val, Fin.val_mul, Fin.val_add]
  rfl

theorem columnSalt_val (seed : U64) (column : ℕ) :
    (columnSalt seed column).val = columnSaltScalar seed.val column := by
  unfold columnSalt columnSaltScalar
  rw [splitmix64_val, and_mask64, Fin.val_add, Fin.val_mul]
  congr 1
  rw [Fin.val_ofNat, Nat.mod_mul_mod, Nat.add_mod_mod]
  rfl

theorem splitmix64Array_map (x : List U64) : splitmix64Array x = x.map splitmix64 := by
  have hself : ∀ (f : U64 → U64) (z : List U64),
      z.zipWith (· ^^^ ·) (z.map f) = z.map fun e => e ^^^ f e := by
    intro f z
    rw [List.zipWith_map_right, List.zipWith_self]
  unfold splitmix64Array
  simp only [hself]
  simp only [List.map_map]
  rfl

/-! ### Balance -/

/- The inverses of the odd constants. -/
theorem goldenGamma_inverse : goldenGamma * 0xF1DE83E19937733D = 1 := by decide

theorem mix1_inverse : (0xBF58476D1CE4E5B9 : U64) * 0x96DE1B173F119089 = 1 := by decide

theorem mix2_inverse : (0x94D049BB133111EB : U64) * 0x319642B2D24D8EC3 = 1 := by decide

theorem splitmix64_injective : Function.Injective splitmix64 := by
  have hadd : Function.Injective fun x : U64 => x + goldenGamma := add_left_injective goldenGamma
  have hshift : ∀ s : U64, 0 < s.val → Function.Injective fun x : U64 => x ^^^ (x >>> s) :=
    fun s hs => xorShift_injective hs
  have hmix1 := mul_injective_of_inverse mix1_inverse
  have hmix2 := mul_injective_of_inverse mix2_inverse
  exact (hshift 31 (by decide)).comp (hmix2.comp ((hshift 27 (by decide)).comp
    (hmix1.comp ((hshift 30 (by decide)).comp hadd))))

/-- The hash of a column. -/
def columnHash (seed : U64) (column : ℕ) (key : U64) : U64 :=
  splitmix64 (key ^^^ columnSalt seed column)

theorem columnHash_bijective (seed : U64) (column : ℕ) :
    Function.Bijective (columnHash seed column) :=
  Finite.injective_iff_bijective.mp (splitmix64_injective.comp (xor_injective (columnSalt seed column)))

theorem columnSalt_injective (seed : U64) {column column' : ℕ} (h : column < 2 ^ 64)
    (h' : column' < 2 ^ 64) (heq : columnSalt seed column = columnSalt seed column') :
    column = column' := by
  have hsum := splitmix64_injective heq
  have hproduct := mul_injective_of_inverse goldenGamma_inverse (add_right_injective seed hsum)
  have hval := congrArg Fin.val hproduct
  rw [Fin.val_ofNat, Fin.val_ofNat] at hval
  omega

theorem columnHash_separates (seed key : U64) {column column' : ℕ} (h : column < 2 ^ 64)
    (h' : column' < 2 ^ 64) (hne : column ≠ column') :
    columnHash seed column key ≠ columnHash seed column' key := by
  intro heq
  have hxor := splitmix64_injective heq
  have hval := congrArg (fun z => key.val ^^^ z.val) hxor
  simp only [Fin.xor_val_of_two_pow, ← Nat.xor_assoc, Nat.xor_self, Nat.zero_xor] at hval
  exact hne (columnSalt_injective seed h h' (Fin.ext hval))

/-- The keys that draw `-sqrt(3)` in a column, and those that draw `+sqrt(3)`. -/
def lowKeys (seed : U64) (column : ℕ) : Set U64 := {key | columnHash seed column key < lowThreshold}

def highKeys (seed : U64) (column : ℕ) : Set U64 :=
  {key | highThreshold ≤ columnHash seed column key}

theorem highThreshold_val : highThreshold.val = 2 ^ 64 - 2 ^ 64 / 6 := by decide

theorem lowThreshold_val : lowThreshold.val = 2 ^ 64 / 6 := by decide

theorem ncard_lowKeys (seed : U64) (column : ℕ) : (lowKeys seed column).ncard = 2 ^ 64 / 6 := by
  have htail : {u : U64 | u.val < 2 ^ 64 / 6}.ncard = 2 ^ 64 / 6 := ncard_fin_lt (by omega)
  have hkeys := ncard_hash (columnHash_bijective seed column) {u : U64 | u.val < 2 ^ 64 / 6}
  rw [htail] at hkeys
  unfold lowKeys
  simp only [Fin.lt_def, lowThreshold_val]
  exact hkeys

theorem ncard_highKeys (seed : U64) (column : ℕ) : (highKeys seed column).ncard = 2 ^ 64 / 6 := by
  have htail : {u : U64 | 2 ^ 64 - 2 ^ 64 / 6 ≤ u.val}.ncard = 2 ^ 64 / 6 :=
    ncard_fin_ge (by omega)
  have hkeys := ncard_hash (columnHash_bijective seed column)
    {u : U64 | 2 ^ 64 - 2 ^ 64 / 6 ≤ u.val}
  rw [htail] at hkeys
  unfold highKeys
  simp only [Fin.le_def, highThreshold_val]
  exact hkeys

theorem disjoint_keys (seed : U64) (column : ℕ) :
    Disjoint (lowKeys seed column) (highKeys seed column) := by
  rw [Set.disjoint_left]
  intro key hlow hhigh
  unfold lowKeys at hlow
  unfold highKeys at hhigh
  rw [Set.mem_ofPred_eq, Fin.lt_def, lowThreshold_val] at hlow
  rw [Set.mem_ofPred_eq, Fin.le_def, highThreshold_val] at hhigh
  omega

open Classical in
theorem hashedEntry_none (ar : Arithmetic F D O) (seed key : U64) (column : ℕ) :
    hashedEntry ar seed key none column =
      if key ∈ highKeys seed column then ar.sqrt3
      else if key ∈ lowKeys seed column then ar.neg ar.sqrt3 else ar.zero := by
  unfold hashedEntry highKeys lowKeys columnHash
  dsimp only [Set.mem_ofPred_eq]
  congr

/-! ### Submatrices -/

/-- A Python slice. -/
structure PySlice where
  start : Option ℤ
  stop : Option ℤ
  step : Option ℤ

def PySlice.all : PySlice := ⟨none, none, none⟩

/- A bound brought into the range of a sequence of `n` elements. -/
def adjustBound (n lower upper bound : ℤ) : ℤ :=
  if bound < 0 then max (bound + n) lower else min bound upper

/-- The number of steps of size `step` from one bound up to the other. -/
def rangeLength (low high step : ℤ) : ℕ := ((high - low + step - 1) / step).toNat

/-- `slice.indices(n)` and the range it describes, `none` for a step of 0. -/
def PySlice.positions (s : PySlice) (n : ℕ) : Option (List ℕ) :=
  let step := s.step.getD 1
  if step = 0 then none
  else if 0 < step then
    let start := (s.start.map (adjustBound n 0 n)).getD 0
    let stop := (s.stop.map (adjustBound n 0 n)).getD n
    some ((List.range (rangeLength start stop step)).map fun t : ℕ => (start + t * step).toNat)
  else
    let start := (s.start.map (adjustBound n (-1) (n - 1))).getD (n - 1)
    let stop := (s.stop.map (adjustBound n (-1) (n - 1))).getD (-1)
    some ((List.range (rangeLength stop start (-step))).map fun t : ℕ => (start + t * step).toNat)

theorem adjustBound_mem {n : ℕ} {lower upper default : ℤ} (hlower : lower ≤ 0 ∧ -1 ≤ lower)
    (hupper : upper = n + lower) (hdefault : lower ≤ default ∧ default ≤ upper)
    (bound : Option ℤ) :
    lower ≤ (bound.map (adjustBound n lower upper)).getD default ∧
      (bound.map (adjustBound n lower upper)).getD default ≤ upper := by
  cases bound with
  | none => exact hdefault
  | some bound =>
    rw [Option.map_some, Option.getD_some]
    unfold adjustBound
    split <;> omega

theorem mul_lt_of_lt_rangeLength {low high step : ℤ} (hstep : 0 < step) {t : ℕ}
    (ht : t < rangeLength low high step) : t * step < high - low := by
  unfold rangeLength at ht
  have hle : (t : ℤ) + 1 ≤ (high - low + step - 1) / step := by omega
  have hmul := Int.mul_le_of_le_ediv hstep hle
  rw [add_mul, one_mul] at hmul
  omega

theorem positions_lt {s : PySlice} {n : ℕ} {rows : List ℕ} (h : s.positions n = some rows) :
    ∀ r ∈ rows, r < n := by
  unfold PySlice.positions at h
  dsimp only at h
  split at h
  · cases h
  · split at h
    · rename_i hpos
      cases h
      intro r hr
      obtain ⟨t, ht, rfl⟩ := List.mem_map.mp hr
      have hlt := mul_lt_of_lt_rangeLength hpos (List.mem_range.mp ht)
      have hstart : 0 ≤ (s.start.map (adjustBound n 0 n)).getD 0 ∧ _ :=
        adjustBound_mem (by omega) (by omega) (by omega) s.start
      have hstop : _ ∧ (s.stop.map (adjustBound n 0 n)).getD n ≤ (n : ℤ) :=
        adjustBound_mem (by omega) (by omega) (by omega) s.stop
      have hnonneg : 0 ≤ (t : ℤ) * s.step.getD 1 := mul_nonneg (Int.natCast_nonneg t) hpos.le
      omega
    · rename_i hzero hpos
      cases h
      intro r hr
      obtain ⟨t, ht, rfl⟩ := List.mem_map.mp hr
      have hlt := mul_lt_of_lt_rangeLength (by omega) (List.mem_range.mp ht)
      have hstart : _ ∧ (s.start.map (adjustBound n (-1) (n - 1))).getD (n - 1) ≤ (n - 1 : ℤ) :=
        adjustBound_mem (by omega) (by omega) (by omega) s.start
      have hstop : -1 ≤ (s.stop.map (adjustBound n (-1) (n - 1))).getD (-1) ∧ _ :=
        adjustBound_mem (by omega) (by omega) (by omega) s.stop
      have hneg : 0 ≤ (t : ℤ) * -s.step.getD 1 := mul_nonneg (by omega) (by omega)
      rw [mul_neg] at hlt hneg
      omega

/-- `self._keys[rows]` and `self._scale[rows]`. -/
def HashedProjection.restrict (p : HashedProjection F) (rows : List ℕ) : HashedProjection F where
  keys := fun i => p.keys (rows.getD i 0)
  seed := p.seed
  scale := p.scale.map fun scale i => scale (rows.getD i 0)

/-- `columns(start, stop, rows)`, for the positions that the slice selects. -/
def HashedProjection.columnsOf (ar : Arithmetic F D O) (p : HashedProjection F) (junk : Block F)
    (start stop : ℕ) (rows : List ℕ) : Block F :=
  (p.restrict rows).columns ar junk start stop 0 rows.length

theorem columnsOf_eq (ar : Arithmetic F D O) (p : HashedProjection F) (junk : Block F)
    {start stop : ℕ} {rows : List ℕ} {i j : ℕ} (hi : i < rows.length) (hj : start + j < stop) :
    p.columnsOf ar junk start stop rows i j =
      hashedEntry ar p.seed (p.keys (rows.getD i 0)) (p.scale.map (· (rows.getD i 0)))
        (start + j) := by
  unfold HashedProjection.columnsOf
  rw [columns_eq ar _ junk (by omega) hj, Nat.zero_add]
  unfold HashedProjection.restrict
  rw [Option.map_map]
  rfl

theorem positions_all (n : ℕ) : PySlice.all.positions n = some (List.range n) := by
  have hlength : rangeLength 0 n 1 = n := by
    unfold rangeLength
    omega
  unfold PySlice.positions PySlice.all
  dsimp only [Option.map_none, Option.getD_none]
  rw [if_neg (by decide), if_pos (by decide), hlength]
  simp

/-- The hash of every column is a bijection of the words, each tail of the draw has a sixth of the
keys, no two columns hash a key alike, the array version of SplitMix64 agrees with the scalar one,
and every block is the submatrix of the full matrix. -/
theorem hashedProjection_balanced (ar : Arithmetic F D O) (seed : U64) :
    (∀ column, Function.Bijective fun key => splitmix64 (key ^^^ columnSalt seed column)) ∧
    (∀ column, ∃ low high : Set U64, low.ncard = 2 ^ 64 / 6 ∧ high.ncard = 2 ^ 64 / 6 ∧
      Disjoint low high ∧ ∀ key, (key ∈ low → hashedEntry ar seed key none column = ar.neg ar.sqrt3) ∧
        (key ∈ high → hashedEntry ar seed key none column = ar.sqrt3) ∧
        (key ∉ low → key ∉ high → hashedEntry ar seed key none column = ar.zero)) ∧
    (∀ key column column', column < 2 ^ 64 → column' < 2 ^ 64 → column ≠ column' →
      splitmix64 (key ^^^ columnSalt seed column) ≠ splitmix64 (key ^^^ columnSalt seed column')) ∧
    (∀ x : List U64, (splitmix64Array x).map Fin.val = x.map fun e => splitmix64Scalar e.val) ∧
    (∀ column, (columnSalt seed column).val = columnSaltScalar seed.val column) ∧
    ∀ (p : HashedProjection F) (junk junk' : Block F) (n dim start stop : ℕ) (s : PySlice)
      (rows all : List ℕ), stop ≤ dim → s.positions n = some rows →
        PySlice.all.positions n = some all → ∀ i j, i < rows.length → start + j < stop →
          p.columnsOf ar junk start stop rows i j =
            p.columnsOf ar junk' 0 dim all (rows.getD i 0) (start + j) := by
  refine ⟨columnHash_bijective seed, ?_, ?_, ?_, columnSalt_val seed, ?_⟩
  · intro column
    have hdisjoint := disjoint_keys seed column
    refine ⟨lowKeys seed column, highKeys seed column, ncard_lowKeys seed column,
      ncard_highKeys seed column, hdisjoint, ?_⟩
    intro key
    rw [hashedEntry_none]
    refine ⟨?_, ?_, ?_⟩
    · intro hlow
      have hhigh : key ∉ highKeys seed column := Set.disjoint_left.mp hdisjoint hlow
      rw [if_neg hhigh, if_pos hlow]
    · intro hhigh
      rw [if_pos hhigh]
    · intro hlow hhigh
      rw [if_neg hhigh, if_neg hlow]
  · intro key column column' h h' hne
    exact columnHash_separates seed key h h' hne
  · intro x
    rw [splitmix64Array_map, List.map_map]
    apply List.map_congr_left
    intro e _
    rw [Function.comp_apply, splitmix64_val]
  · intro p junk junk' n dim start stop s rows all hdim hrows hall i j hi hj
    rw [positions_all, Option.some.injEq] at hall
    subst hall
    have hrow : rows.getD i 0 < n := by
      rw [List.getD_eq_getElem _ _ hi]
      exact positions_lt hrows _ (List.getElem_mem hi)
    rw [columnsOf_eq ar p junk hi hj, columnsOf_eq ar p junk' (by simpa using hrow) (by omega),
      List.getD_eq_getElem (List.range n) 0 (by simpa using hrow), List.getElem_range, Nat.zero_add]

end AnalyticsEngine.Embeddings
