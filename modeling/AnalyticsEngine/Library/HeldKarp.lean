import Mathlib.Algebra.BigOperators.Group.List.Basic
import Mathlib.Algebra.Order.Monoid.WithTop
import Mathlib.Data.Finset.Card
import Mathlib.Data.Finset.Range
import Mathlib.Data.List.MinMax
import Mathlib.Data.List.Rotate

/-!
# Best paths through sets of vertices

A table that satisfies the recurrence of Held and Karp has a finite entry exactly where a path
from vertex `0` through the set ends, and its back pointers unwind into an order of the set.
-/

namespace AnalyticsEngine.Library

/-- `np.argmax`: the position of the first largest value. -/
def argmax {α : Type*} [LinearOrder α] (values : List α) : ℕ :=
  ((values.zipIdx.argmax Prod.fst).map Prod.snd).getD 0

theorem argmax_spec {α : Type*} [LinearOrder α] {values : List α} (h : values ≠ []) :
    ∃ v, values[argmax values]? = some v ∧ ∀ u ∈ values, u ≤ v := by
  cases hmax : values.zipIdx.argmax Prod.fst with
  | none =>
    rw [List.argmax_eq_none, List.zipIdx_eq_nil_iff] at hmax
    exact absurd hmax h
  | some p =>
    obtain ⟨v, i⟩ := p
    have hi : argmax values = i := by
      unfold argmax
      rw [hmax]
      rfl
    refine ⟨v, ?_, ?_⟩
    · rw [hi]
      exact List.mem_zipIdx_iff_getElem?.mp (List.argmax_mem hmax)
    · intro u hu
      obtain ⟨k, hk, rfl⟩ := List.mem_iff_getElem.mp hu
      have hmem : (values[k], k) ∈ values.zipIdx :=
        List.mem_zipIdx_iff_getElem?.mpr (List.getElem?_eq_getElem hk)
      exact List.le_of_mem_argmax hmem hmax

theorem argmax_range {α : Type*} [LinearOrder α] {n : ℕ} (hn : 0 < n) (f : ℕ → α) :
    argmax ((List.range n).map f) < n ∧
      ∀ k < n, f k ≤ f (argmax ((List.range n).map f)) := by
  have hne : (List.range n).map f ≠ [] := by
    rw [Ne, List.map_eq_nil_iff, List.range_eq_nil]
    omega
  obtain ⟨v, hv, hmax⟩ := argmax_spec hne
  rw [List.getElem?_map] at hv
  obtain ⟨i, hi, rfl⟩ := Option.map_eq_some_iff.mp hv
  have hlt := (List.getElem?_eq_some_iff.mp hi).1
  have hieq := List.getElem_range (by simpa using hlt) ▸ (List.getElem?_eq_some_iff.mp hi).2
  rw [List.length_range] at hlt
  refine ⟨hlt, ?_⟩
  intro k hk
  rw [hieq]
  exact hmax _ (List.mem_map.mpr ⟨k, List.mem_range.mpr hk, rfl⟩)

/-- The best path through a set to a vertex, and the vertex before it. -/
structure PathTable (K : Type*) where
  best : Finset ℕ → ℕ → WithBot K
  previous : Finset ℕ → ℕ → Option ℕ

/-- A path from `0` through `mask` can end at `last`. -/
def Target (n : ℕ) (mask : Finset ℕ) (last : ℕ) : Prop :=
  mask ⊆ Finset.range n ∧ 0 ∈ mask ∧ last ∈ mask ∧ last ≠ 0

instance (n : ℕ) (mask : Finset ℕ) (last : ℕ) : Decidable (Target n mask last) :=
  inferInstanceAs (Decidable (_ ∧ _ ∧ _ ∧ _))

section
variable {K : Type*} [LinearOrder K] [AddCommMonoid K]

def candidates (n : ℕ) (weight : ℕ → ℕ → K) (table : PathTable K) (mask : Finset ℕ) (last : ℕ) :
    List (WithBot K) :=
  (List.range n).map fun k => table.best (mask.erase last) k + weight k last

structure Bellman (n : ℕ) (weight : ℕ → ℕ → K) (table : PathTable K) : Prop where
  start : table.best {0} 0 = 0
  step : ∀ mask last, Target n mask last →
    table.best mask last =
        table.best (mask.erase last) (argmax (candidates n weight table mask last)) +
          weight (argmax (candidates n weight table mask last)) last ∧
      table.previous mask last = some (argmax (candidates n weight table mask last))
  unreached : ∀ mask last, ¬Target n mask last → ¬(mask = {0} ∧ last = 0) →
    table.best mask last = ⊥
  stop : ∀ mask last, ¬Target n mask last → table.previous mask last = none

/-- Follow the back pointers from `last`. -/
def unwind (previous : Finset ℕ → ℕ → Option ℕ) : ℕ → Finset ℕ → Option ℕ → List ℕ
  | 0, _, _ => []
  | _ + 1, _, none => []
  | fuel + 1, mask, some last =>
    last :: unwind previous fuel (mask.erase last) (previous mask last)

variable {n : ℕ} {weight : ℕ → ℕ → K} {table : PathTable K}

theorem Target.erase {mask : Finset ℕ} {last k : ℕ} (h : Target n mask last)
    (hk : k ∈ mask.erase last) (hk0 : k ≠ 0) : Target n (mask.erase last) k :=
  ⟨(Finset.erase_subset _ _).trans h.1, Finset.mem_erase.mpr ⟨h.2.2.2.symm, h.2.1⟩, hk, hk0⟩

theorem Bellman.reached (h : Bellman n weight table) {mask : Finset ℕ} {last : ℕ}
    (htarget : Target n mask last) : table.best mask last ≠ ⊥ := by
  induction hcard : mask.card generalizing mask last with
  | zero =>
    rw [Finset.card_eq_zero.mp hcard] at htarget
    exact absurd htarget.2.1 (Finset.notMem_empty 0)
  | succ size ih =>
    have hzero : 0 ∈ mask.erase last := Finset.mem_erase.mpr ⟨htarget.2.2.2.symm, htarget.2.1⟩
    -- some path ends in the rest of the set
    have hrest : ∃ k < n, table.best (mask.erase last) k ≠ ⊥ := by
      by_cases hsingle : mask.erase last = {0}
      · have hpos : 0 < n := Finset.mem_range.mp (htarget.1 htarget.2.1)
        refine ⟨0, hpos, ?_⟩
        rw [hsingle, h.start]
        exact WithBot.coe_ne_bot
      · obtain ⟨k, hk, hk0⟩ : ∃ k ∈ mask.erase last, k ≠ 0 := by
          by_contra hnone
          push Not at hnone
          exact hsingle (Finset.eq_singleton_iff_unique_mem.mpr ⟨hzero, hnone⟩)
        have hk' := htarget.erase hk hk0
        refine ⟨k, Finset.mem_range.mp (hk'.1 hk), ih hk' ?_⟩
        rw [Finset.card_erase_of_mem htarget.2.2.1, hcard, Nat.succ_sub_one]
    obtain ⟨k, hkn, hk⟩ := hrest
    have hmax := (argmax_range (Nat.zero_lt_of_lt hkn)
      (fun k => table.best (mask.erase last) k + weight k last)).2 k hkn
    rw [(h.step mask last htarget).1]
    intro hbot
    have hbot' : table.best (mask.erase last) k + weight k last = ⊥ := le_bot_iff.mp (hbot ▸ hmax)
    rcases WithBot.add_eq_bot.mp hbot' with hk' | hk'
    · exact hk hk'
    · exact WithBot.coe_ne_bot hk'

theorem Bellman.previous_reached (h : Bellman n weight table) {mask : Finset ℕ} {last : ℕ}
    (htarget : Target n mask last) : ∃ k, table.previous mask last = some k ∧
      ((mask.erase last = {0} ∧ k = 0) ∨ Target n (mask.erase last) k) := by
  obtain ⟨hbest, hprevious⟩ := h.step mask last htarget
  refine ⟨_, hprevious, ?_⟩
  by_contra hneither
  obtain ⟨hstart, htarget'⟩ := not_or.mp hneither
  have hbot := h.unreached _ _ htarget' hstart
  rw [hbot, WithBot.bot_add] at hbest
  exact h.reached htarget hbest

theorem Bellman.unwind_start (h : Bellman n weight table) (fuel : ℕ) :
    unwind table.previous (fuel + 1) {0} (some 0) = [0] := by
  have hnone : table.previous {0} 0 = none := h.stop _ _ fun htarget => htarget.2.2.2 rfl
  have hend : unwind table.previous fuel (({0} : Finset ℕ).erase 0) none = [] := by
    cases fuel <;> rfl
  unfold unwind
  rw [hnone, hend]

/-- The back pointers visit every vertex of the set once and end at `0`. -/
theorem Bellman.unwind_spec (h : Bellman n weight table) {fuel : ℕ} {mask : Finset ℕ} {last : ℕ}
    (hfuel : mask.card ≤ fuel) (hlast : (mask = {0} ∧ last = 0) ∨ Target n mask last) :
    (unwind table.previous fuel mask (some last)).Nodup ∧
      (∀ k, k ∈ unwind table.previous fuel mask (some last) ↔ k ∈ mask) ∧
      (unwind table.previous fuel mask (some last)).getLast? = some 0 := by
  induction fuel generalizing mask last with
  | zero =>
    have hempty := Finset.card_eq_zero.mp (Nat.le_zero.mp hfuel)
    rcases hlast with ⟨hmask, _⟩ | htarget
    · rw [hempty] at hmask
      exact absurd hmask.symm (Finset.singleton_ne_empty 0)
    · rw [hempty] at htarget
      exact absurd htarget.2.1 (Finset.notMem_empty 0)
  | succ fuel ih =>
    rcases hlast with ⟨rfl, rfl⟩ | htarget
    · rw [h.unwind_start]
      simp
    · unfold unwind
      obtain ⟨k, hprevious, hk⟩ := h.previous_reached htarget
      have hcard : (mask.erase last).card ≤ fuel := by
        rw [Finset.card_erase_of_mem htarget.2.2.1]
        omega
      obtain ⟨hnodup, hmem, hend⟩ := ih hcard hk
      rw [hprevious]
      refine ⟨?_, ?_, ?_⟩
      · refine List.nodup_cons.mpr ⟨?_, hnodup⟩
        rw [hmem]
        exact Finset.notMem_erase last mask
      · intro j
        rw [List.mem_cons, hmem, Finset.mem_erase]
        constructor
        · intro hcases
          rcases hcases with rfl | ⟨_, hj⟩
          · exact htarget.2.2.1
          · exact hj
        · intro hj
          by_cases hjl : j = last
          · exact Or.inl hjl
          · exact Or.inr ⟨hjl, hj⟩
      · rw [List.getLast?_cons, hend]
        rfl

/-! ### The best path is the best -/

/-- The weight of a path listed from its last vertex back. -/
def pathWeight (weight : ℕ → ℕ → K) : List ℕ → K
  | [] => 0
  | [_] => 0
  | last :: before :: path => pathWeight weight (before :: path) + weight before last

/-- The back pointers follow a path of the weight in the table. -/
theorem Bellman.best_unwind (h : Bellman n weight table) {fuel : ℕ} {mask : Finset ℕ} {last : ℕ}
    (hfuel : mask.card ≤ fuel) (hlast : (mask = {0} ∧ last = 0) ∨ Target n mask last) :
    table.best mask last = pathWeight weight (unwind table.previous fuel mask (some last)) := by
  have hmember : last ∈ mask := by
    rcases hlast with ⟨rfl, rfl⟩ | htarget
    · exact Finset.mem_singleton_self 0
    · exact htarget.2.2.1
  induction fuel generalizing mask last with
  | zero =>
    have hpos := Finset.card_pos.mpr ⟨last, hmember⟩
    omega
  | succ fuel ih =>
    rcases hlast with ⟨rfl, rfl⟩ | htarget
    · rw [h.unwind_start, h.start]
      rfl
    · obtain ⟨k, hprevious, hk⟩ := h.previous_reached htarget
      obtain ⟨hbest, hchosen⟩ := h.step mask last htarget
      have hsame : argmax (candidates n weight table mask last) = k :=
        Option.some.inj (hchosen.symm.trans hprevious)
      have hcard : (mask.erase last).card ≤ fuel := by
        rw [Finset.card_erase_of_mem hmember]
        omega
      have hkmember : k ∈ mask.erase last := by
        rcases hk with ⟨hmask, rfl⟩ | htarget'
        · rw [hmask]
          exact Finset.mem_singleton_self 0
        · exact htarget'.2.2.1
      have hpos := Finset.card_pos.mpr ⟨k, hkmember⟩
      rw [hbest, hsame, ih hcard hk hkmember]
      -- the rest of the path begins at `k`
      obtain ⟨fuel, rfl⟩ : ∃ fuel', fuel = fuel' + 1 := ⟨fuel - 1, by omega⟩
      conv_rhs => rw [unwind, hprevious]
      rfl

/-- No path through the set outweighs the table. -/
theorem Bellman.dominates [IsOrderedAddMonoid K] (h : Bellman n weight table) {mask : Finset ℕ}
    {last : ℕ} {path : List ℕ} (hmask : mask ⊆ Finset.range n) (hnodup : (last :: path).Nodup)
    (hvisits : ∀ k, k ∈ last :: path ↔ k ∈ mask) (hstart : (last :: path).getLast? = some 0) :
    ((pathWeight weight (last :: path) : K) : WithBot K) ≤ table.best mask last := by
  induction path generalizing mask last with
  | nil =>
    have hzero : last = 0 := Option.some.inj hstart
    have hsingle : mask = {0} := by
      ext k
      rw [← hvisits, hzero, List.mem_singleton, Finset.mem_singleton]
    rw [hsingle, hzero, h.start]
    exact le_refl _
  | cons before path ih =>
    obtain ⟨hlast, hrest⟩ := List.nodup_cons.mp hnodup
    have hend : (before :: path).getLast? = some 0 := by
      rw [List.getLast?_cons_cons] at hstart
      exact hstart
    have hzero : 0 ∈ before :: path := List.mem_of_getLast? hend
    have hne : last ≠ 0 := fun heq => hlast (heq ▸ hzero)
    have htarget : Target n mask last :=
      ⟨hmask, (hvisits 0).mp (List.mem_cons_of_mem _ hzero), (hvisits last).mp List.mem_cons_self, hne⟩
    have hvisits' : ∀ k, k ∈ before :: path ↔ k ∈ mask.erase last := by
      intro k
      rw [Finset.mem_erase, ← hvisits, List.mem_cons (a := k) (b := last)]
      constructor
      · intro hk
        exact ⟨fun heq => hlast (heq ▸ hk), Or.inr hk⟩
      · intro hk
        exact hk.2.resolve_left hk.1
    have hbefore : before < n :=
      Finset.mem_range.mp (hmask (Finset.mem_of_mem_erase ((hvisits' before).mp List.mem_cons_self)))
    have hmax := (argmax_range (Nat.zero_lt_of_lt hbefore)
      (fun k => table.best (mask.erase last) k + weight k last)).2 before hbefore
    have hshorter := ih ((Finset.erase_subset _ _).trans hmask) hrest hvisits' hend
    rw [(h.step mask last htarget).1]
    calc ((pathWeight weight (last :: before :: path) : K) : WithBot K)
        = (pathWeight weight (before :: path) : K) + (weight before last : K) := rfl
      _ ≤ table.best (mask.erase last) before + weight before last := by
          exact add_le_add_left hshorter _
      _ ≤ _ := hmax

end

/-! ### Cycles -/

section
variable {K : Type*} [AddCommMonoid K] {weight : ℕ → ℕ → K}

/-- The weight of a cycle: of every vertex and the one after it. -/
def cycleWeight (weight : ℕ → ℕ → K) (order : List ℕ) : K :=
  (List.zipWith weight order (order.rotate 1)).sum

theorem cycleWeight_rotate (order : List ℕ) (k : ℕ) :
    cycleWeight weight (order.rotate k) = cycleWeight weight order := by
  unfold cycleWeight
  have hcomm : (order.rotate k).rotate 1 = (order.rotate 1).rotate k := by
    rw [List.rotate_rotate, List.rotate_rotate, Nat.add_comm]
  rw [hcomm, ← List.zipWith_rotate_distrib weight order _ k (List.length_rotate order 1).symm]
  exact (List.rotate_perm _ k).sum_eq

/-- Read the other way a cycle weighs the same. -/
theorem cycleWeight_reverse {order : List ℕ}
    (hsymm : ∀ i ∈ order, ∀ j ∈ order, weight i j = weight j i) :
    cycleWeight weight order.reverse = cycleWeight weight order := by
  have hturn := List.reverse_rotate order 1
  have hback : (order.rotate 1).reverse.rotate 1 = order.reverse := by
    rw [List.rotate_eq_iff, List.length_reverse]
    exact hturn
  have hpairs : List.zipWith weight (order.rotate 1) order =
      List.zipWith weight order (order.rotate 1) := by
    rw [List.zipWith_comm, ← List.map_uncurry_zip_eq_zipWith, ← List.map_uncurry_zip_eq_zipWith]
    apply List.map_congr_left
    intro p hp
    obtain ⟨hfirst, hsecond⟩ := List.of_mem_zip hp
    exact hsymm _ (List.mem_rotate.mp hsecond) _ hfirst
  calc cycleWeight weight order.reverse
      = cycleWeight weight (order.rotate 1).reverse := by
        rw [hturn, cycleWeight_rotate]
    _ = (List.zipWith weight (order.rotate 1) order).reverse.sum := by
        unfold cycleWeight
        rw [hback, List.reverse_zipWith (List.length_rotate order 1)]
    _ = (List.zipWith weight order (order.rotate 1)).sum := by
        rw [hpairs]
        exact (List.reverse_perm _).sum_eq

theorem cycleWeight_turn {first : ℕ} {rest : List ℕ}
    (hsymm : ∀ i ∈ first :: rest, ∀ j ∈ first :: rest, weight i j = weight j i) :
    cycleWeight weight (first :: rest.reverse) = cycleWeight weight (first :: rest) := by
  have hturned : (first :: rest.reverse).rotate 1 = (first :: rest).reverse := by
    rw [List.rotate_cons_succ, List.rotate_zero, List.reverse_cons]
  rw [← cycleWeight_rotate (first :: rest.reverse) 1, hturned, cycleWeight_reverse hsymm]

theorem exists_rotation {order : List ℕ} (hzero : 0 ∈ order) :
    ∃ k rest, order.rotate k = 0 :: rest := by
  obtain ⟨before, after, rfl⟩ := List.append_of_mem hzero
  refine ⟨before.length, after ++ before, ?_⟩
  rw [List.rotate_append_length_eq, List.cons_append]

theorem sum_consecutive (last after : ℕ) (path : List ℕ) :
    (List.zipWith weight (last :: path).reverse ((last :: path).reverse.tail ++ [after])).sum =
      pathWeight weight (last :: path) + weight last after := by
  induction path generalizing last after with
  | nil => simp [pathWeight]
  | cons before path ih =>
    have hne : (before :: path).reverse ≠ [] := by simp
    have htail : ((before :: path).reverse ++ [last]).tail =
        (before :: path).reverse.tail ++ [last] := List.tail_append_of_ne_nil hne
    have hlength : (before :: path).reverse.length =
        ((before :: path).reverse.tail ++ [last]).length := by simp
    rw [List.reverse_cons (a := last), htail, List.zipWith_append hlength, List.sum_append, ih]
    simp [pathWeight]

/- A cycle from the start weighs its path, listed from the last vertex back, and the edge home. -/
theorem cycleWeight_path {last : ℕ} {path : List ℕ} (hstart : (last :: path).getLast? = some 0) :
    cycleWeight weight (last :: path).reverse = pathWeight weight (last :: path) + weight last 0 := by
  have hhead : (last :: path).reverse.head? = some 0 := by
    rw [List.head?_reverse, hstart]
  obtain ⟨rest, hrest⟩ := List.head?_eq_some_iff.mp hhead
  have hturn : (last :: path).reverse.rotate 1 = (last :: path).reverse.tail ++ [0] := by
    rw [hrest, List.rotate_cons_succ, List.rotate_zero, List.tail_cons]
  unfold cycleWeight
  rw [hturn, sum_consecutive]

end

end AnalyticsEngine.Library
