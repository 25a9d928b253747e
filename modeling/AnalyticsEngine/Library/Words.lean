import Mathlib.Data.BitVec
import Mathlib.Data.List.Basic
import Mathlib.Tactic.Ring

/-!
# Big-endian words and rows of one length

A byte string of even length is the bytes of exactly one list of 16-bit words (`wordsOf_bytesOf`,
`bytesOf_wordsOf`). `cut` takes a list apart every `k` cells, which undoes joining rows of `k`
cells (`cut_flatten_rows`) and leaves no cell out (`cut_flatten`).
-/

namespace AnalyticsEngine.Library

abbrev Byte := BitVec 8
abbrev Word := BitVec 16

def wordOf (high low : Byte) : Word := high ++ low
def highByte (w : Word) : Byte := w.extractLsb' 8 8
def lowByte (w : Word) : Byte := w.extractLsb' 0 8

theorem wordOf_bytes (w : Word) : wordOf (highByte w) (lowByte w) = w := by
  unfold wordOf highByte lowByte
  exact BitVec.extractLsb'_append_extractLsb'

theorem highByte_wordOf (high low : Byte) : highByte (wordOf high low) = high := by
  unfold wordOf highByte
  ext i hi
  rw [BitVec.getElem_extractLsb', BitVec.getLsbD_append, if_neg (by omega),
    Nat.add_sub_cancel_left, BitVec.getLsbD_eq_getElem hi]

theorem lowByte_wordOf (high low : Byte) : lowByte (wordOf high low) = low := by
  unfold wordOf lowByte
  ext i hi
  rw [BitVec.getElem_extractLsb', BitVec.getLsbD_append, if_pos (by omega), Nat.zero_add,
    BitVec.getLsbD_eq_getElem hi]

/-- `np.frombuffer(data, dtype=">u2")`, which raises for an odd number of bytes. -/
def wordsOf : List Byte → Option (List Word)
  | [] => some []
  | [_] => none
  | high :: low :: rest => (wordsOf rest).map (wordOf high low :: ·)

/-- `words.tobytes()` of a `>u2` array. -/
def bytesOf (words : List Word) : List Byte := words.flatMap fun w => [highByte w, lowByte w]

theorem bytesOf_cons (w : Word) (words : List Word) :
    bytesOf (w :: words) = highByte w :: lowByte w :: bytesOf words := rfl

theorem length_bytesOf (words : List Word) : (bytesOf words).length = 2 * words.length := by
  induction words with
  | nil => rfl
  | cons w words ih =>
    rw [bytesOf_cons, List.length_cons, List.length_cons, List.length_cons, ih]
    ring

theorem bytesOf_flatten (rows : List (List Word)) :
    bytesOf rows.flatten = (rows.map bytesOf).flatten := by
  unfold bytesOf
  rw [List.flatMap_def, List.map_flatten, List.flatten_flatten, List.map_map]
  rfl

theorem wordsOf_bytesOf (words : List Word) : wordsOf (bytesOf words) = some words := by
  induction words with
  | nil => rfl
  | cons w words ih =>
    rw [bytesOf_cons, wordsOf, ih, wordOf_bytes]
    rfl

theorem bytesOf_wordsOf {bytes : List Byte} {words : List Word} (h : wordsOf bytes = some words) :
    bytesOf words = bytes := by
  induction bytes using wordsOf.induct generalizing words with
  | case1 =>
    cases h
    rfl
  | case2 _ => cases h
  | case3 high low rest ih =>
    rw [wordsOf] at h
    obtain ⟨later, hlater, rfl⟩ := Option.map_eq_some_iff.mp h
    rw [bytesOf_cons, highByte_wordOf, lowByte_wordOf, ih hlater]

theorem wordsOf_of_even {bytes : List Byte} (h : bytes.length % 2 = 0) :
    ∃ words, bytes = bytesOf words := by
  induction bytes using wordsOf.induct with
  | case1 => exact ⟨[], rfl⟩
  | case2 _ => cases h
  | case3 high low rest ih =>
    rw [List.length_cons, List.length_cons] at h
    obtain ⟨words, rfl⟩ := ih (by omega)
    refine ⟨wordOf high low :: words, ?_⟩
    rw [bytesOf_cons, highByte_wordOf, lowByte_wordOf]

/-! ### Rows of one length -/

section
variable {α : Type*}

/-- `n` slices of `k` cells, one after another. -/
def cut (k n : ℕ) (cells : List α) : List (List α) :=
  (List.range n).map fun r => (cells.drop (r * k)).take k

theorem cut_succ (k n : ℕ) (cells : List α) :
    cut k (n + 1) cells = cells.take k :: cut k n (cells.drop k) := by
  unfold cut
  rw [List.range_succ_eq_map, List.map_cons, List.map_map, Nat.zero_mul, List.drop_zero]
  congr 1
  apply List.map_congr_left
  intro r _
  rw [Function.comp_apply, List.drop_drop, Nat.succ_mul, Nat.add_comm]

theorem length_cut (k n : ℕ) (cells : List α) : (cut k n cells).length = n := by
  unfold cut
  rw [List.length_map, List.length_range]

theorem cut_flatten {k n : ℕ} {cells : List α} (h : cells.length ≤ n * k) :
    (cut k n cells).flatten = cells := by
  induction n generalizing cells with
  | zero =>
    rw [Nat.zero_mul, Nat.le_zero] at h
    rw [List.eq_nil_of_length_eq_zero h]
    rfl
  | succ n ih =>
    rw [Nat.succ_mul] at h
    have hrest : (cells.drop k).length ≤ n * k := by
      rw [List.length_drop]
      omega
    rw [cut_succ, List.flatten_cons, ih hrest, List.take_append_drop]

theorem length_of_mem_cut {k n : ℕ} {cells row : List α} (h : cells.length = n * k)
    (hrow : row ∈ cut k n cells) : row.length = k := by
  induction n generalizing cells with
  | zero => cases hrow
  | succ n ih =>
    rw [Nat.succ_mul] at h
    rw [cut_succ] at hrow
    rcases List.mem_cons.mp hrow with rfl | hrow
    · rw [List.length_take]
      omega
    · apply ih ?_ hrow
      rw [List.length_drop]
      omega

theorem length_flatten_rows {k : ℕ} {rows : List (List α)} (h : ∀ row ∈ rows, row.length = k) :
    rows.flatten.length = rows.length * k := by
  induction rows with
  | nil => simp
  | cons row rows ih =>
    have hrow := h row List.mem_cons_self
    have hrest := ih fun r hr => h r (List.mem_cons_of_mem _ hr)
    rw [List.flatten_cons, List.length_append, hrow, hrest, List.length_cons]
    ring

theorem cut_flatten_rows {k : ℕ} {rows : List (List α)} (h : ∀ row ∈ rows, row.length = k) :
    cut k rows.length rows.flatten = rows := by
  induction rows with
  | nil => rfl
  | cons row rows ih =>
    have hrow := h row List.mem_cons_self
    have hrest := ih fun r hr => h r (List.mem_cons_of_mem _ hr)
    rw [List.length_cons, cut_succ, List.flatten_cons, List.take_left' hrow,
      List.drop_left' hrow, hrest]

theorem rows_unique {k : ℕ} {rows rows' : List (List α)} (h : ∀ row ∈ rows, row.length = k)
    (h' : ∀ row ∈ rows', row.length = k) (hcount : rows.length = rows'.length)
    (hflat : rows.flatten = rows'.flatten) : rows = rows' := by
  rw [← cut_flatten_rows h, ← cut_flatten_rows h', hcount, hflat]

end

end AnalyticsEngine.Library
