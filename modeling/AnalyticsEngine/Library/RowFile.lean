import Mathlib.Data.List.Basic
import Mathlib.Tactic.Ring

/-!
# Row-major files

A raw file is a list of cells, absent until created, that holds rows of `k` cells one after
another. `HoldsRows` says that its first `m` rows are the given ones: writing the next rows at
their offset extends it (`holdsRows_overwrite`), and reading any rows of a whole file back and
cutting them into rows of `k` gives these rows (`reshape_read`).
-/

namespace AnalyticsEngine.Library

variable {β : Type*}

def resize (zero : β) (length : ℕ) (cells : List β) : List β :=
  cells.take length ++ List.replicate (length - cells.length) zero

/-- Write `data` at `offset`. A hole before it reads as zero cells. -/
def overwrite (zero : β) (offset : ℕ) (data cells : List β) : List β :=
  resize zero offset cells ++ data ++ cells.drop (offset + data.length)

inductive FileOp (β : Type*) where
  | unlink
  | create
  | truncate (length : ℕ)
  | write (offset : ℕ) (data : List β)

/-- One operation on a file; writing to an absent file raises. -/
def FileOp.run (zero : β) : FileOp β → Option (List β) → Option (Option (List β))
  | .unlink, _ => some none
  | .create, _ => some (some [])
  | .truncate length, file => file.map fun cells => some (resize zero length cells)
  | .write offset data, file => file.map fun cells => some (overwrite zero offset data cells)

/-- `cells.reshape(-1, k)`. -/
def reshape (k : ℕ) (cells : List β) : Option (List (List β)) :=
  if k = 0 ∨ cells.length % k ≠ 0 then none
  else some ((List.range (cells.length / k)).map fun r => (cells.drop (r * k)).take k)

/-- The first `m` rows of a file are those of `row`. -/
def HoldsRows (k : ℕ) (row : ℕ → List β) (m : ℕ) (cells : List β) : Prop :=
  cells.take (m * k) = (List.range m).flatMap row

section
variable {k : ℕ} {row : ℕ → List β} (hrow : ∀ r, (row r).length = k)
include hrow

theorem length_rows (m : ℕ) : ((List.range m).flatMap row).length = m * k := by
  induction m with
  | zero => simp
  | succ m ih =>
    rw [List.range_succ, List.flatMap_append, List.length_append, ih]
    simp only [List.flatMap_cons, List.flatMap_nil, List.append_nil, hrow]
    ring

omit hrow in
theorem rows_add (a d : ℕ) : (List.range (a + d)).flatMap row =
    (List.range a).flatMap row ++ (List.range d).flatMap fun r => row (a + r) := by
  rw [List.range_add, List.flatMap_append, List.flatMap_map]

theorem rows_slice {a d n : ℕ} (h : a + d ≤ n) :
    (((List.range n).flatMap row).drop (a * k)).take (d * k) =
      (List.range d).flatMap fun r => row (a + r) := by
  obtain ⟨rest, rfl⟩ := Nat.exists_eq_add_of_le h
  rw [rows_add (a + d) rest, rows_add a d, List.append_assoc,
    List.drop_left' (length_rows hrow a), List.take_left']
  exact length_rows (fun r => hrow (a + r)) d

theorem HoldsRows.mono {m m' : ℕ} {cells : List β} (h : HoldsRows k row m cells) (hm : m' ≤ m) :
    HoldsRows k row m' cells := by
  unfold HoldsRows at *
  have hk : m' * k ≤ m * k := Nat.mul_le_mul_right k hm
  have hcut : (cells.take (m * k)).take (m' * k) = cells.take (m' * k) := by
    rw [List.take_take, Nat.min_eq_left hk]
  have hslice := rows_slice hrow (a := 0) (d := m') (n := m) (by omega)
  simp only [Nat.zero_mul, List.drop_zero, Nat.zero_add] at hslice
  rw [← hcut, h, hslice]

omit hrow in
theorem holdsRows_zero (cells : List β) : HoldsRows k row 0 cells := by
  unfold HoldsRows
  simp

theorem holdsRows_overwrite (zero : β) {m d : ℕ} {cells : List β} (h : HoldsRows k row m cells)
    (hlen : m * k ≤ cells.length) :
    HoldsRows k row (m + d)
      (overwrite zero (m * k) ((List.range d).flatMap fun r => row (m + r)) cells) := by
  unfold HoldsRows overwrite resize at *
  have hd := length_rows (fun r => hrow (m + r)) d
  rw [Nat.sub_eq_zero_of_le hlen, List.replicate_zero, List.append_nil, h, rows_add]
  apply List.take_left'
  rw [List.length_append, length_rows hrow, hd]
  ring

omit hrow in
theorem length_overwrite (zero : β) {offset : ℕ} {data cells : List β}
    (h : offset + data.length ≤ cells.length) :
    (overwrite zero offset data cells).length = cells.length := by
  unfold overwrite resize
  simp only [List.length_append, List.length_take, List.length_replicate, List.length_drop]
  omega

omit hrow in
theorem length_resize (zero : β) (length : ℕ) (cells : List β) :
    (resize zero length cells).length = length := by
  unfold resize
  simp only [List.length_append, List.length_take, List.length_replicate]
  omega

theorem reshape_rows (hk : 0 < k) (d : ℕ) :
    reshape k ((List.range d).flatMap row) = some ((List.range d).map row) := by
  unfold reshape
  have hlen := length_rows hrow d
  have hmod : d * k % k = 0 := Nat.mul_mod_left d k
  rw [hlen, if_neg (by omega), Nat.mul_div_cancel d hk, Option.some.injEq]
  apply List.map_congr_left
  intro r hr
  have hrd := List.mem_range.mp hr
  have hslice := rows_slice hrow (a := r) (d := 1) (n := d) (by omega)
  rw [Nat.one_mul] at hslice
  rw [hslice]
  simp

theorem reshape_read (hk : 0 < k) {a d n : ℕ} {cells : List β} (h : HoldsRows k row n cells)
    (hlen : cells.length = n * k) (had : a + d ≤ n) :
    reshape k ((cells.drop (a * k)).take (d * k)) =
      some ((List.range d).map fun r => row (a + r)) := by
  have hcells : cells = (List.range n).flatMap row := by
    unfold HoldsRows at h
    rwa [← hlen, List.take_length] at h
  rw [hcells, rows_slice hrow had]
  exact reshape_rows (fun r => hrow (a + r)) hk d

end

/-! ### Rows by number -/

theorem range_mul (m w : ℕ) :
    List.range (m * w) = (List.range m).flatMap fun g => (List.range w).map fun t => g * w + t := by
  induction m with
  | zero => simp
  | succ m ih =>
    rw [Nat.succ_mul, List.range_add, ih, List.range_succ, List.flatMap_append]
    simp

/-- `n` rows cut into blocks of `w` are the rows in order. -/
theorem range_blocks (n w m : ℕ) :
    ((List.range m).flatMap fun i => (List.range (min (n - i * w) w)).map (i * w + ·)) =
      List.range (min n (m * w)) := by
  induction m with
  | zero => simp
  | succ m ih =>
    rw [List.range_succ, List.flatMap_append, ih, List.flatMap_cons, List.flatMap_nil,
      List.append_nil]
    have hsum : min n ((m + 1) * w) = min n (m * w) + min (n - m * w) w := by
      rw [Nat.succ_mul]
      omega
    rw [hsum, List.range_add]
    congr 1
    apply List.map_congr_left
    intro r hr
    have := List.mem_range.mp hr
    omega

theorem map_getD_range (l : List β) (d : β) :
    (List.range l.length).map (fun i => l.getD i d) = l := by
  apply List.ext_getElem
  · simp
  · intro i hi hi'
    simp [hi']

end AnalyticsEngine.Library
