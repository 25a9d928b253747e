import Mathlib.Algebra.GroupWithZero.Nat
import Mathlib.Data.List.Basic
import Mathlib.Order.Nat

/-!
# Arithmetic and sparse matrices of insights/embeddings

The arithmetic is arbitrary: nothing is assumed of the additions and only that the product of
`float32` commutes. The CSR product folds each row's stored entries in order from zero, so a
matrix and a slice of it agree as soon as their entries do (`entries_slice`).
-/

namespace AnalyticsEngine.Embeddings

/-- `uint64`, whose operations wrap. -/
abbrev U64 := Fin (2 ^ 64)

instance neZero_u64 : NeZero (2 ^ 64 : ℕ) := ⟨(Nat.two_pow_pos 64).ne'⟩

/- `float32`, `float64` and the output dtype; `isZero` compares with `0.0`. -/
structure Arithmetic (F D O : Type*) where
  zero : F
  add : F → F → F
  mul : F → F → F
  mul_comm : ∀ a b, mul a b = mul b a
  sqrt3 : F
  neg : F → F
  zero64 : D
  one64 : D
  add64 : D → D → D
  mul64 : D → D → D
  div64 : D → D → D
  pow64 : D → D → D
  sqrt64 : D → D
  ofNat64 : ℕ → D
  isZero : D → Bool
  widen : F → D
  narrow : D → F
  store : F → O

abbrev Block (F : Type*) := ℕ → ℕ → F

structure Csr (F : Type*) where
  rows : ℕ
  indptr : List ℕ
  indices : List ℕ
  data : List F

variable {F D O : Type*}

namespace Csr

def nnz (m : Csr F) : ℕ := m.indices.length

def start (m : Csr F) (i : ℕ) : ℕ := m.indptr.getD i 0

def entries (m : Csr F) (i : ℕ) : List (ℕ × F) :=
  ((m.indices.zip m.data).drop (m.start i)).take (m.start (i + 1) - m.start i)

/-- `matrix @ block`. -/
def matmul (ar : Arithmetic F D O) (m : Csr F) (block : Block F) : Block F := fun i j =>
  (m.entries i).foldl (fun sum e => ar.add sum (ar.mul e.2 (block e.1 j))) ar.zero

def slice (m : Csr F) (lo hi : ℕ) : Csr F where
  rows := hi - lo
  indptr := ((m.indptr.drop lo).take (hi + 1 - lo)).map (· - m.start lo)
  indices := (m.indices.drop (m.start lo)).take (m.start hi - m.start lo)
  data := (m.data.drop (m.start lo)).take (m.start hi - m.start lo)

structure Valid (m : Csr F) : Prop where
  length_indptr : m.indptr.length = m.rows + 1
  mono : ∀ i < m.rows, m.start i ≤ m.start (i + 1)
  last : m.start m.rows = m.nnz
  length_data : m.data.length = m.nnz
  columns : ∀ c ∈ m.indices, c < m.rows

variable {m : Csr F} {lo hi i : ℕ}

theorem start_mono (h : m.Valid) {i k : ℕ} (hik : i ≤ k) (hk : k ≤ m.rows) :
    m.start i ≤ m.start k := by
  induction k with
  | zero =>
    obtain rfl : i = 0 := by omega
    exact le_rfl
  | succ k ih =>
    rcases Nat.eq_or_lt_of_le hik with rfl | hlt
    · exact le_rfl
    · exact (ih (by omega) (by omega)).trans (h.mono k (by omega))

theorem start_slice (hi' : i < hi + 1 - lo) :
    (m.slice lo hi).start i = m.start (lo + i) - m.start lo := by
  unfold slice
  unfold start
  simp only [List.getD_eq_getElem?_getD, List.getElem?_map, List.getElem?_take_of_lt hi',
    List.getElem?_drop]
  cases m.indptr[lo + i]? with
  | none => simp
  | some p => rfl

theorem entries_slice (h : m.Valid) (hhi : hi ≤ m.rows) (hi' : i < hi - lo) :
    (m.slice lo hi).entries i = m.entries (lo + i) := by
  have hfirst : m.start lo ≤ m.start (lo + i) := start_mono h (by omega) (by omega)
  have hrow : m.start (lo + i) ≤ m.start (lo + (i + 1)) := start_mono h (by omega) (by omega)
  have hlast : m.start (lo + (i + 1)) ≤ m.start hi := start_mono h (by omega) hhi
  unfold entries
  rw [start_slice (by omega), start_slice (by omega)]
  unfold slice
  simp only [List.zip, ← List.take_zipWith, ← List.drop_zipWith]
  rw [List.drop_take, List.drop_drop, List.take_take, Nat.add_sub_cancel' hfirst]
  congr 1
  rw [Nat.add_assoc]
  omega

theorem matmul_slice (ar : Arithmetic F D O) (h : m.Valid) (hhi : hi ≤ m.rows)
    (hi' : i < hi - lo) (block : Block F) :
    (m.slice lo hi).matmul ar block i = m.matmul ar block (lo + i) := by
  unfold matmul
  rw [entries_slice h hhi hi']

theorem entry_lt (h : m.Valid) {e : ℕ × F} (he : e ∈ m.entries i) : e.1 < m.rows :=
  h.columns _ (List.of_mem_zip (List.mem_of_mem_drop (List.mem_of_mem_take he))).1

/-! ### A matrix from its rows -/

def ofRows (rows : List (List (ℕ × F))) : Csr F where
  rows := rows.length
  indptr := (List.range (rows.length + 1)).map fun i => (rows.take i).flatten.length
  indices := rows.flatten.map Prod.fst
  data := rows.flatten.map Prod.snd

variable {rows : List (List (ℕ × F))}

theorem start_ofRows (hi : i ≤ rows.length) :
    (ofRows rows).start i = (rows.take i).flatten.length := by
  unfold start ofRows
  rw [List.getD_eq_getElem?_getD, List.getElem?_map, List.getElem?_range (by omega)]
  rfl

theorem entries_ofRows (hi : i < rows.length) : (ofRows rows).entries i = rows[i] := by
  have hzip : (ofRows rows).indices.zip (ofRows rows).data = rows.flatten := by
    unfold ofRows
    exact (List.zip_of_prod rfl rfl).symm
  have hsplit : rows.flatten = (rows.take i).flatten ++ (rows[i] ++ (rows.drop (i + 1)).flatten) := by
    rw [← List.flatten_cons, ← List.drop_eq_getElem_cons hi, ← List.flatten_append,
      List.take_append_drop]
  have hnext : (rows.take (i + 1)).flatten.length = (rows.take i).flatten.length + rows[i].length := by
    rw [List.take_succ_eq_append_getElem hi, List.flatten_append, List.length_append]
    simp
  unfold entries
  rw [start_ofRows (by omega), start_ofRows (by omega), hzip, hsplit, List.drop_left, hnext,
    Nat.add_sub_cancel_left, List.take_left]

theorem valid_ofRows (hcolumns : ∀ row ∈ rows, ∀ e ∈ row, e.1 < rows.length) :
    (ofRows rows).Valid where
  length_indptr := by simp [ofRows]
  mono k hk := by
    have hk' : k < rows.length := hk
    rw [start_ofRows (by omega), start_ofRows (by omega),
      List.take_succ_eq_append_getElem hk', List.flatten_append, List.length_append]
    exact Nat.le_add_right _ _
  last := by
    have hlast : (ofRows rows).rows = rows.length := rfl
    rw [hlast, start_ofRows le_rfl, List.take_length]
    exact (List.length_map _).symm
  length_data := (List.length_map _).trans (List.length_map _).symm
  columns c hc := by
    obtain ⟨e, he, rfl⟩ := List.mem_map.mp hc
    obtain ⟨row, hrow, hmem⟩ := List.mem_flatten.mp he
    exact hcolumns row hrow e hmem

end Csr

end AnalyticsEngine.Embeddings
