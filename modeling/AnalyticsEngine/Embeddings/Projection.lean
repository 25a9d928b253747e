import AnalyticsEngine.Embeddings.Csr
import AnalyticsEngine.Library.Slices

/-!
# insights/embeddings/projection.py

A projection gives any block of columns of any slice of rows. The hashed projection draws each
entry from the row's key, the column and the seed alone (`hashedEntry`), scaled by a power of
the row's degree when `beta` is not zero.
-/

namespace AnalyticsEngine.Embeddings
open Library

variable {F D O : Type*}

/-- `columns(start, stop, slice(lo, hi))`. -/
structure Projection (F : Type*) where
  columns : ℕ → ℕ → ℕ → ℕ → Block F

/-- Every column is computed independently of the others, and every row. -/
def Projection.Independent (p : Projection F) (r : Block F) : Prop :=
  ∀ start stop lo hi i j, lo + i < hi → start + j < stop →
    p.columns start stop lo hi i j = r (lo + i) (start + j)

/-! ### The hashed projection -/

def goldenGamma : U64 := 0x9E3779B97F4A7C15

/- `splitmix64`, and `splitmix64_array` on one element. -/
def splitmix64 (x : U64) : U64 :=
  let z := x + goldenGamma
  let z := (z ^^^ (z >>> 30)) * 0xBF58476D1CE4E5B9
  let z := (z ^^^ (z >>> 27)) * 0x94D049BB133111EB
  z ^^^ (z >>> 31)

def columnSalt (seed : U64) (column : ℕ) : U64 :=
  splitmix64 (seed + Fin.ofNat (2 ^ 64) (column + 1) * goldenGamma)

def lowThreshold : U64 := Fin.ofNat (2 ^ 64) (2 ^ 64 / 6)
def highThreshold : U64 := Fin.ofNat (2 ^ 64) (2 ^ 64 - 2 ^ 64 / 6)

inductive ProjectionError where
  | seedRange
  | needsDegrees

def ProjectionError.message : ProjectionError → String
  | .seedRange => "seed must fit in an unsigned 64-bit integer"
  | .needsDegrees => "beta != 0 needs node degrees"

structure HashedProjection (F : Type*) where
  keys : ℕ → U64
  seed : U64
  scale : Option (ℕ → F)

def HashedProjection.new (ar : Arithmetic F D O) (keys : ℕ → U64) (seed : ℤ)
    (degree : Option (ℕ → ℕ)) (beta : D) : Except ProjectionError (HashedProjection F) :=
  if seed < 0 ∨ 2 ^ 64 ≤ seed then .error .seedRange
  else if ar.isZero beta then .ok ⟨keys, Fin.ofNat (2 ^ 64) seed.toNat, none⟩
  else
    match degree with
    | none => .error .needsDegrees
    | some degree => .ok ⟨keys, Fin.ofNat (2 ^ 64) seed.toNat,
        some fun i => ar.narrow (ar.pow64 (ar.ofNat64 (max (degree i) 1)) beta)⟩

def projectionRowSlice : ℕ := 2 ^ 16

/- `HashedProjection.columns`; `junk` is what `np.empty` allocated. Each column is written one
slice of rows at a time. -/
def HashedProjection.columns (ar : Arithmetic F D O) (p : HashedProjection F) (junk : Block F)
    (start stop lo hi : ℕ) : Block F :=
  (List.range (stop - start)).foldl (fun block offset =>
    let salt := columnSalt p.seed (start + offset)
    (stepSlices (hi - lo) projectionRowSlice).foldl (fun block s => fun i j =>
      if s.1 ≤ i ∧ i < s.2 ∧ j = offset then
        let u := splitmix64 (p.keys (lo + i) ^^^ salt)
        let value := if highThreshold ≤ u then ar.sqrt3
          else if u < lowThreshold then ar.neg ar.sqrt3 else ar.zero
        match p.scale with
        | none => value
        | some scale => ar.mul value (scale (lo + i))
      else block i j) block) junk

def HashedProjection.toProjection (ar : Arithmetic F D O) (p : HashedProjection F)
    (junk : ℕ → Block F) : Projection F where
  columns start stop lo hi := p.columns ar (junk start) start stop lo hi

/-! ### Its entries -/

def hashedEntry (ar : Arithmetic F D O) (seed key : U64) (scale : Option F) (column : ℕ) : F :=
  let u := splitmix64 (key ^^^ columnSalt seed column)
  let value := if highThreshold ≤ u then ar.sqrt3
    else if u < lowThreshold then ar.neg ar.sqrt3 else ar.zero
  match scale with
  | none => value
  | some scale => ar.mul value scale

theorem columns_eq (ar : Arithmetic F D O) (p : HashedProjection F) (junk : Block F)
    {start stop lo hi i j : ℕ} (hi' : lo + i < hi) (hj : start + j < stop) :
    p.columns ar junk start stop lo hi i j =
      hashedEntry ar p.seed (p.keys (lo + i)) (p.scale.map (· (lo + i))) (start + j) := by
  have hrow : ∃ s ∈ stepSlices (hi - lo) projectionRowSlice, s.1 ≤ i ∧ i < s.2 := by
    have hmem : i ∈ (stepSlices (hi - lo) projectionRowSlice).flatMap sliceRows := by
      rw [stepSlices_rows _ (by decide), List.mem_range]
      omega
    obtain ⟨s, hs, hi'⟩ := List.mem_flatMap.mp hmem
    exact ⟨s, hs, mem_sliceRows.mp hi'⟩
  unfold HashedProjection.columns
  -- the column of `j` is written once, every other column leaves it alone
  apply foldl_read (fun block : Block F => block i j) fun offset => offset = j
  · rintro offset - rfl block
    apply foldl_read (fun block : Block F => block i offset) fun s : ℕ × ℕ => s.1 ≤ i ∧ i < s.2
    · intro s _ hs block
      simp only [hs, and_self, if_true]
      unfold hashedEntry
      cases p.scale <;> rfl
    · intro s _ hs block
      exact if_neg fun h => hs ⟨h.1, h.2.1⟩
    · exact hrow
  · intro offset _ hne block
    apply foldl_frame fun block : Block F => block i j
    intro s _ block
    exact if_neg fun h => hne h.2.2.symm
  · exact ⟨j, List.mem_range.mpr (by omega), rfl⟩

theorem toProjection_independent (ar : Arithmetic F D O) (p : HashedProjection F)
    (junk : ℕ → Block F) : (p.toProjection ar junk).Independent fun v column =>
      hashedEntry ar p.seed (p.keys v) (p.scale.map (· v)) column :=
  fun _ _ _ _ _ _ hi hj => columns_eq ar p _ hi hj

end AnalyticsEngine.Embeddings
