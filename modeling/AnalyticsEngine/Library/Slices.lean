import AnalyticsEngine.Library.RowFile
import AnalyticsEngine.Library.Scatter
import Mathlib.Data.List.Chain
import Mathlib.Data.List.GetD

/-!
# Work cut into slices of a range

Consecutive bounds and steps of a fixed width cut a range into slices that hold every index
once. Tasks that each fill the rows of one slice then fill an array, whatever was in it before
and in whatever order their writes arrive (`fill_read`).
-/

namespace AnalyticsEngine.Library

universe u v w

def sliceRows (s : ℕ × ℕ) : List ℕ := List.range' s.1 (s.2 - s.1)

theorem mem_sliceRows {s : ℕ × ℕ} {i : ℕ} : i ∈ sliceRows s ↔ s.1 ≤ i ∧ i < s.2 := by
  unfold sliceRows
  rw [List.mem_range'_1]
  omega

theorem take_drop_slice {α : Type*} (l : List α) (d : α) {s : ℕ × ℕ} (hs : s.2 ≤ l.length) :
    (l.drop s.1).take (s.2 - s.1) = (sliceRows s).map fun i => l.getD i d := by
  unfold sliceRows
  apply List.ext_getElem
  · rw [List.length_take, List.length_drop, List.length_map, List.length_range']
    omega
  · intro i hi _
    rw [List.length_take, List.length_drop] at hi
    rw [List.getElem_take, List.getElem_drop, List.getElem_map, List.getElem_range', Nat.one_mul,
      List.getD_eq_getElem l d (by omega)]

/-! ### Steps -/

/-- `range(0, n, w)`, each start with its end. -/
def stepSlices (n w : ℕ) : List (ℕ × ℕ) :=
  (List.range ((n + w - 1) / w)).map fun i => (i * w, min (i * w + w) n)

theorem stepSlices_rows (n : ℕ) {w : ℕ} (hw : 1 ≤ w) :
    (stepSlices n w).flatMap sliceRows = List.range n := by
  have hblocks := range_blocks n w ((n + w - 1) / w)
  have hall : min n ((n + w - 1) / w * w) = n := by
    have hdiv := Nat.div_add_mod' (n + w - 1) w
    have hmod := Nat.mod_lt (n + w - 1) hw
    omega
  rw [hall] at hblocks
  rw [← hblocks]
  unfold stepSlices
  rw [List.flatMap_map]
  congr 1
  funext i
  unfold sliceRows
  rw [List.range'_eq_map_range]
  congr 2
  omega

theorem mapM_eq_pure {m : Type u → Type v} [Monad m] [LawfulMonad m] {β : Type w} {γ : Type u}
    {f : β → m γ} {g : β → γ} {l : List β} (h : ∀ b ∈ l, f b = pure (g b)) : l.mapM f = pure (l.map g) := by
  induction l with
  | nil => exact List.mapM_nil
  | cons b l ih =>
    rw [List.mapM_cons, h b List.mem_cons_self, ih fun c hc => h c (List.mem_cons_of_mem b hc),
      pure_bind, pure_bind, List.map_cons]

/-- A loop over steps that does the work of each index in its step does the work of every index. -/
theorem mapM_stepSlices {m : Type u → Type v} [Monad m] [LawfulMonad m] {γ : Type u}
    {f : ℕ × ℕ → m (List γ)} {g : ℕ → γ} {n w : ℕ} (hw : 1 ≤ w)
    (h : ∀ s ∈ stepSlices n w, f s = pure ((sliceRows s).map g)) :
    List.flatten <$> (stepSlices n w).mapM f = pure ((List.range n).map g) := by
  rw [mapM_eq_pure h, map_pure]
  congr 1
  rw [← stepSlices_rows n hw, List.map_flatMap, List.flatMap_def]

/-! ### Bounds -/

/-- `itertools.pairwise`. -/
def pairwise {α : Type*} (l : List α) : List (α × α) := l.zip l.tail

theorem pairwise_cons_cons {α : Type*} (a b : α) (l : List α) :
    pairwise (a :: b :: l) = (a, b) :: pairwise (b :: l) := rfl

theorem pairwise_rows {a b : ℕ} {l : List ℕ} (hsorted : (a :: (l ++ [b])).Pairwise (· ≤ ·)) :
    ((pairwise (a :: (l ++ [b]))).filter fun s => s.1 < s.2).flatMap sliceRows =
      List.range' a (b - a) := by
  induction l generalizing a with
  | nil =>
    rw [List.nil_append, pairwise_cons_cons]
    have hnil : pairwise [b] = [] := rfl
    rw [hnil]
    by_cases h : a < b
    · simp [h, sliceRows]
    · simp [h, Nat.sub_eq_zero_of_le (not_lt.mp h)]
  | cons c l ih =>
    obtain ⟨ha, hrest⟩ := List.pairwise_cons.mp hsorted
    have hac : a ≤ c := ha c List.mem_cons_self
    have hcb : c ≤ b := (List.pairwise_cons.mp hrest).1 b (by simp)
    have hlater := ih hrest
    rw [List.cons_append, pairwise_cons_cons, List.filter_cons]
    have hjoin : List.range' a (b - a) = List.range' a (c - a) ++ List.range' c (b - c) := by
      have hsplit := List.range'_append_1 (s := a) (m := c - a) (n := b - c)
      rw [show a + (c - a) = c by omega, show c - a + (b - c) = b - a by omega] at hsplit
      exact hsplit.symm
    by_cases h : a < c
    · rw [if_pos (decide_eq_true h), List.flatMap_cons, hlater, hjoin]
      rfl
    · obtain rfl : a = c := by omega
      rw [if_neg (by simp), hlater]

theorem pairwise_map {α β : Type*} (f : α → β) (l : List α) :
    pairwise (l.map f) = (pairwise l).map (Prod.map f f) := by
  unfold pairwise
  rw [← List.map_tail, List.zip_map]

theorem mem_pairwise {α : Type*} {l : List α} {s : α × α} (hs : s ∈ pairwise l) :
    s.1 ∈ l ∧ s.2 ∈ l := by
  obtain ⟨h1, h2⟩ := List.of_mem_zip hs
  exact ⟨h1, List.mem_of_mem_tail h2⟩

/-! ### Filling an array -/

section
variable {σ ι γ : Type*} {step : σ → ι → σ}

theorem foldl_frame (read : σ → γ) {steps : List ι} (hmiss : ∀ x ∈ steps, ∀ m, read (step m x) = read m) (m : σ) :
    read (steps.foldl step m) = read m := by
  induction steps generalizing m with
  | nil => rfl
  | cons x steps ih =>
    rw [List.foldl_cons, ih fun y hy => hmiss y (List.mem_cons_of_mem _ hy)]
    exact hmiss x List.mem_cons_self m

/-- A cell that every step touching it sets to `v` holds `v` once one of them has run. -/
theorem foldl_read (read : σ → γ) (touches : ι → Prop) {steps : List ι} {v : γ}
    (hhit : ∀ x ∈ steps, touches x → ∀ m, read (step m x) = v)
    (hmiss : ∀ x ∈ steps, ¬touches x → ∀ m, read (step m x) = read m)
    (htouched : ∃ x ∈ steps, touches x) (m : σ) : read (steps.foldl step m) = v := by
  induction steps generalizing m with
  | nil =>
    obtain ⟨x, hx, _⟩ := htouched
    cases hx
  | cons x steps ih =>
    have hhit' := fun y hy => hhit y (List.mem_cons_of_mem _ hy)
    have hmiss' := fun y hy => hmiss y (List.mem_cons_of_mem _ hy)
    rw [List.foldl_cons]
    by_cases hlater : ∃ y ∈ steps, touches y
    · exact ih hhit' hmiss' hlater _
    · have hnone : ∀ y ∈ steps, ¬touches y := fun y hy hty => hlater ⟨y, hy, hty⟩
      rw [foldl_frame read fun y hy m => hmiss' y hy (hnone y hy) m]
      obtain ⟨y, hy, hty⟩ := htouched
      rcases List.mem_cons.mp hy with rfl | hy
      · exact hhit y List.mem_cons_self hty m
      · exact absurd hty (hnone y hy)

end

section
variable {α : Type*}

def sliceWrites (slices : List (ℕ × ℕ)) (value : ℕ × ℕ → ℕ → α) : List (ℕ × α) :=
  slices.flatMap fun s => (sliceRows s).map fun i => (i, value s i)

theorem sliceWrites_rows (slices : List (ℕ × ℕ)) (value : ℕ × ℕ → ℕ → α) :
    (sliceWrites slices value).map Prod.fst = slices.flatMap sliceRows := by
  unfold sliceWrites
  rw [List.map_flatMap]
  congr 1
  funext s
  rw [List.map_map]
  exact List.map_id _

/-- Every row of a covered range is as its task wrote it, in any order of the writes. -/
theorem fill_read (good : ℕ → α → Prop) {slices : List (ℕ × ℕ)} {n : ℕ} {value : ℕ × ℕ → ℕ → α}
    (hcover : slices.flatMap sliceRows = List.range n)
    (hvalue : ∀ s ∈ slices, ∀ i ∈ sliceRows s, good i (value s i)) {order : List (ℕ × α)}
    (horder : order.Perm (sliceWrites slices value)) (junk : ℕ → α) {i : ℕ} (hi : i < n) :
    good i (applyWrites order junk i) := by
  have hmem : i ∈ slices.flatMap sliceRows := by
    rw [hcover]
    exact List.mem_range.mpr hi
  obtain ⟨s, hs, his⟩ := List.mem_flatMap.mp hmem
  have hwrite : (i, value s i) ∈ sliceWrites slices value :=
    List.mem_flatMap.mpr ⟨s, hs, List.mem_map.mpr ⟨i, his, rfl⟩⟩
  have hrows : (order.map Prod.fst).Nodup := by
    rw [(horder.map Prod.fst).nodup_iff, sliceWrites_rows, hcover]
    exact List.nodup_range
  rw [applyWrites_read _ junk i _ hrows (horder.mem_iff.mpr hwrite)]
  exact hvalue s hs i his

end

end AnalyticsEngine.Library
