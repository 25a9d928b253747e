import AnalyticsEngine.StyleAtlas.Ring
import Mathlib.Algebra.Order.Ring.Rat
import Mathlib.Data.List.Permutation

/-!
# insights/style_atlas.py: the heaviest ring

The table holds the heaviest path to every vertex of every set and `ringOrder` closes the heaviest
of them. Turning the cycle around to its canonical direction changes no pair of neighbours.
-/

namespace AnalyticsEngine.StyleAtlas
open Library

/-! ### The canonical direction -/

theorem canonical_cycleWeight {K : Type*} [AddCommMonoid K] {weight : ℕ → ℕ → K} {order : List ℕ}
    (hsymm : ∀ i ∈ order, ∀ j ∈ order, weight i j = weight j i) :
    cycleWeight weight (canonical order) = cycleWeight weight order := by
  unfold canonical
  cases order with
  | nil => rfl
  | cons first rest =>
    simp only
    split_ifs
    · exact cycleWeight_turn hsymm
    · rfl

theorem canonical_head (order : List ℕ) : (canonical order).head? = order.head? := by
  unfold canonical
  cases order with
  | nil => rfl
  | cons first rest =>
    simp only
    split_ifs
    · rfl
    · rfl

theorem canonical_direction {order : List ℕ} (hnodup : order.Nodup) (hlength : 3 ≤ order.length)
    {second last : ℕ} (hsecond : (canonical order)[1]? = some second)
    (hlast : (canonical order).getLast? = some last) : second < last := by
  obtain ⟨first, a, rest, rfl⟩ : ∃ first a rest, order = first :: a :: rest := by
    match order, hlength with
    | first :: a :: rest, _ => exact ⟨first, a, rest, rfl⟩
  obtain ⟨middle, z, rfl⟩ : ∃ middle z, rest = middle ++ [z] := by
    rcases List.eq_nil_or_concat rest with rfl | ⟨middle, z, hrest⟩
    · simp at hlength
    · exact ⟨middle, z, by rw [hrest, List.concat_eq_append]⟩
  have hne : a ≠ z := by
    intro heq
    subst heq
    simp at hnodup
  have hlastD : (a :: (middle ++ [z])).getLastD first = z := by
    rw [← List.cons_append, List.getLastD_concat]
  unfold canonical at hsecond hlast
  simp only [hlastD, List.headD_cons] at hsecond hlast
  split_ifs at hsecond hlast with hturn
  · have hturned : first :: (a :: (middle ++ [z])).reverse = first :: z :: (middle.reverse ++ [a]) := by
      simp
    rw [hturned] at hsecond hlast
    have hz : z = second := Option.some.inj hsecond
    have ha : a = last := by
      rw [← List.cons_append, ← List.cons_append, List.getLast?_concat] at hlast
      exact Option.some.inj hlast
    omega
  · have ha : a = second := Option.some.inj hsecond
    have hz : z = last := by
      rw [← List.cons_append, ← List.cons_append, List.getLast?_concat] at hlast
      exact Option.some.inj hlast
    omega

/-! ### Every cycle through the genres -/

/- Up to three genres make one cycle, read in one of its two directions. -/
theorem cycleWeight_few {K : Type*} [AddCommMonoid K] {n : ℕ} {weight : ℕ → ℕ → K} {rest : List ℕ}
    (hfew : n ≤ 3) (hperm : (0 :: rest).Perm (List.range n))
    (hsymm : ∀ i < n, ∀ j < n, weight i j = weight j i) :
    cycleWeight weight (0 :: rest) = cycleWeight weight (List.range n) := by
  match n, hfew with
  | 0, _ => exact absurd hperm.length_eq (Nat.succ_ne_zero _)
  | 1, _ =>
    have hrest : 0 :: rest = [0] := List.perm_singleton.mp hperm
    rw [hrest]
    rfl
  | 2, _ =>
    have hrest : rest.Perm [1] := List.Perm.cons_inv hperm
    rw [List.perm_singleton.mp hrest]
    rfl
  | 3, _ =>
    have hrest : rest.Perm [1, 2] := List.Perm.cons_inv hperm
    have hrange : List.range 3 = [0, 1, 2] := rfl
    rcases List.perm_pair.mp hrest with rfl | rfl
    · rfl
    · have hsymm' : ∀ i ∈ [0, 1, 2], ∀ j ∈ [0, 1, 2], weight i j = weight j i := by
        intro i hi j hj
        exact hsymm i (List.mem_range.mp (hrange ▸ hi)) j (List.mem_range.mp (hrange ▸ hj))
      exact cycleWeight_turn hsymm'

section
variable {K : Type*} [LinearOrder K] [AddCommMonoid K] {n : ℕ} {weight : ℕ → ℕ → K}

theorem ringOrder_head {order : List ℕ} (h : ringOrder n weight = .ok order) (hn : 0 < n) :
    order.head? = some 0 := by
  by_cases hfew : n ≤ 3
  · rw [ringOrder_few h hfew]
    obtain ⟨k, rfl⟩ : ∃ k, n = k + 1 := ⟨n - 1, by omega⟩
    rw [List.range_succ_eq_map]
    rfl
  · obtain ⟨last, htarget, rfl, _⟩ := ringOrder_unwound h (by omega)
    obtain ⟨_, _, hend⟩ := (heldKarp_bellman n weight).unwind_spec (Finset.card_range n).le
      (Or.inr htarget)
    rw [canonical_head, List.head?_reverse, hend]

theorem ringOrder_closing {order : List ℕ} (h : ringOrder n weight = .ok order) (hmany : 3 < n)
    (hsymm : ∀ i < n, ∀ j < n, weight i j = weight j i) :
    ∃ last, ((cycleWeight weight order : K) : WithBot K) =
        (heldKarp n weight).best (Finset.range n) last + weight last 0 ∧
      ∀ k, k < n → k ≠ 0 → (heldKarp n weight).best (Finset.range n) k + weight k 0 ≤
        (heldKarp n weight).best (Finset.range n) last + weight last 0 := by
  obtain ⟨last, htarget, horder, hmax⟩ := ringOrder_unwound h hmany
  refine ⟨last, ?_, hmax⟩
  have hbellman := heldKarp_bellman n weight
  have hcard := (Finset.card_range n).le
  obtain ⟨_, hmem, hend⟩ := hbellman.unwind_spec hcard (Or.inr htarget)
  rw [hbellman.best_unwind hcard (Or.inr htarget), horder, canonical_cycleWeight]
  · -- the unwound path begins at `last`
    obtain ⟨fuel, rfl⟩ : ∃ fuel, n = fuel + 1 := ⟨n - 1, by omega⟩
    rw [unwind] at hend ⊢
    rw [cycleWeight_path hend, WithBot.coe_add]
  · intro i hi j hj
    rw [List.mem_reverse, hmem, Finset.mem_range] at hi hj
    exact hsymm i hi j hj

variable [IsOrderedAddMonoid K]

/- Any cycle closes one of the paths the table dominates. -/
theorem cycleWeight_le_closing (weight : ℕ → ℕ → K) (hmany : 3 < n) {rest : List ℕ}
    (hperm : (0 :: rest).Perm (List.range n)) :
    ∃ last, last < n ∧ last ≠ 0 ∧ ((cycleWeight weight (0 :: rest) : K) : WithBot K) ≤
      (heldKarp n weight).best (Finset.range n) last + weight last 0 := by
  have hlength := hperm.length_eq
  rw [List.length_range] at hlength
  obtain ⟨front, last, rfl⟩ : ∃ front last, rest = front ++ [last] := by
    rcases List.eq_nil_or_concat rest with rfl | ⟨front, last, hrest⟩
    · simp at hlength
      omega
    · exact ⟨front, last, by rw [hrest, List.concat_eq_append]⟩
  have hreverse : 0 :: (front ++ [last]) = (last :: (0 :: front).reverse).reverse := by simp
  have hperm' : (last :: (0 :: front).reverse).Perm (List.range n) :=
    (List.reverse_perm _).symm.trans (hreverse ▸ hperm)
  have hnodup : (last :: (0 :: front).reverse).Nodup := hperm'.nodup_iff.mpr List.nodup_range
  have hstart : (last :: (0 :: front).reverse).getLast? = some 0 := by
    rw [List.getLast?_cons, List.getLast?_reverse]
    rfl
  have hdominates := (heldKarp_bellman n weight).dominates (Finset.Subset.refl _) hnodup
    (fun k => by rw [hperm'.mem_iff, List.mem_range, Finset.mem_range]) hstart
  refine ⟨last, List.mem_range.mp (hperm'.mem_iff.mp List.mem_cons_self), ?_, ?_⟩
  · intro heq
    subst heq
    simp at hnodup
  · rw [hreverse, cycleWeight_path hstart, WithBot.coe_add]
    exact add_le_add_left hdominates _

theorem ringOrder_heaviest {order : List ℕ} (h : ringOrder n weight = .ok order)
    (hsymm : ∀ i < n, ∀ j < n, weight i j = weight j i) {other : List ℕ}
    (hother : other.Perm (List.range n)) : cycleWeight weight other ≤ cycleWeight weight order := by
  rcases Nat.eq_zero_or_pos n with rfl | hn
  · rw [ringOrder_few h (by omega), List.perm_nil.mp hother]
    exact le_refl _
  obtain ⟨k, rest, hrotate⟩ := exists_rotation (hother.mem_iff.mpr (List.mem_range.mpr hn))
  have hperm : (0 :: rest).Perm (List.range n) := hrotate ▸ (List.rotate_perm other k).trans hother
  rw [← cycleWeight_rotate other k, hrotate]
  by_cases hfew : n ≤ 3
  · rw [cycleWeight_few hfew hperm hsymm, ringOrder_few h hfew]
  · obtain ⟨last, hweight, hmax⟩ := ringOrder_closing h (by omega) hsymm
    obtain ⟨k, hk, hk0, hle⟩ := cycleWeight_le_closing weight (by omega) hperm
    rw [← WithBot.coe_le_coe, hweight]
    exact hle.trans (hmax k hk hk0)

end

/-- The ring is an order of the genres from the first one on that no other order outweighs. -/
theorem ringOrder_optimal {n : ℕ} {weight : ℕ → ℕ → ℚ} (hn : n ≤ ringExactMaxGenres)
    (hsymm : ∀ i < n, ∀ j < n, weight i j = weight j i) :
    ∃ order, ringOrder n weight = .ok order ∧ order.Perm (List.range n) ∧
      (0 < n → order.head? = some 0) ∧
      (∀ other : List ℕ, other.Perm (List.range n) →
        cycleWeight weight other ≤ cycleWeight weight order) ∧
      (4 ≤ n → ∀ second last, order[1]? = some second → order.getLast? = some last →
        second < last) := by
  obtain ⟨order, horder⟩ := ringOrder_ok weight hn
  refine ⟨order, horder, ringOrder_perm horder, ?_, ?_, ?_⟩
  · intro hpos
    exact ringOrder_head horder hpos
  · intro other hother
    exact ringOrder_heaviest horder hsymm hother
  · intro hmany second last hsecond hlast
    have hperm := ringOrder_perm horder
    obtain ⟨_, _, rfl, _⟩ := ringOrder_unwound horder (by omega)
    have hperm' := (canonical_perm _).symm.trans hperm
    apply canonical_direction (hperm'.nodup_iff.mpr List.nodup_range) _ hsecond hlast
    rw [hperm'.length_eq, List.length_range]
    omega

theorem ringOrder_optimal_square :
    ∃ order, ringOrder 4 (fun i j => if i = j then (0 : ℚ) else i + j) = .ok order ∧
      order.Perm (List.range 4) ∧ (0 < 4 → order.head? = some 0) ∧
      (∀ other : List ℕ, other.Perm (List.range 4) →
        cycleWeight (fun i j => if i = j then (0 : ℚ) else i + j) other ≤
          cycleWeight (fun i j => if i = j then (0 : ℚ) else i + j) order) ∧
      (4 ≤ 4 → ∀ second last, order[1]? = some second → order.getLast? = some last →
        second < last) := by
  apply ringOrder_optimal
  · decide
  · intro i _ j _
    by_cases heq : i = j
    · rw [heq]
    · rw [if_neg heq, if_neg (Ne.symm heq), add_comm]

end AnalyticsEngine.StyleAtlas
