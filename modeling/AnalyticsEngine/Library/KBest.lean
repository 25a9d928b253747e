import Mathlib.Data.Finset.Sort
import Mathlib.Data.Multiset.Sort
import Mathlib.Tactic.Tauto

/-!
# The k best elements of a finite set

In a linear order the smaller element ranks ahead. `kBest k S` holds the elements of `S` that
fewer than `k` others rank ahead of. Two facts carry every incremental top-`k` algorithm:
elements that `k` others rank ahead of may be dropped before the selection (`kBest_of_dropped`),
and a selection may be replaced by the selection of a running result and the new elements
(`kBest_kBest_union`). `IsSelection` is the contract of a partition routine that returns the
`k` smallest entries of a list in no particular order, and `selection_fill` reads off its result
on a list of distinct entries mixed with fillers that rank behind all of them.
-/

namespace AnalyticsEngine.Library

variable {κ : Type*} [LinearOrder κ]

def ahead (S : Finset κ) (x : κ) : Finset κ := S.filter (· < x)

/-- The elements of `S` with fewer than `k` others ahead of them. -/
def kBest (k : ℕ) (S : Finset κ) : Finset κ := S.filter fun x => (ahead S x).card < k

theorem mem_ahead {S : Finset κ} {x y : κ} : y ∈ ahead S x ↔ y ∈ S ∧ y < x := by
  simp only [ahead, Finset.mem_filter]

theorem mem_kBest {k : ℕ} {S : Finset κ} {x : κ} :
    x ∈ kBest k S ↔ x ∈ S ∧ (ahead S x).card < k := by
  simp only [kBest, Finset.mem_filter]

theorem kBest_subset (k : ℕ) (S : Finset κ) : kBest k S ⊆ S := Finset.filter_subset _ _

theorem ahead_mono {S T : Finset κ} (h : S ⊆ T) (x : κ) : ahead S x ⊆ ahead T x :=
  Finset.filter_subset_filter _ h

theorem ahead_subset_of_le {S : Finset κ} {x y : κ} (h : x ≤ y) : ahead S x ⊆ ahead S y := by
  intro z hz
  rw [mem_ahead] at hz ⊢
  exact ⟨hz.1, lt_of_lt_of_le hz.2 h⟩

/-! ### The sorted list -/

theorem mem_take_sorted (l : List κ) (hl : l.Pairwise (· < ·)) (k : ℕ) (x : κ) :
    x ∈ l.take k ↔ x ∈ l ∧ (l.filter (· < x)).length < k := by
  induction l generalizing k with
  | nil => simp
  | cons a l ih =>
    obtain ⟨ha, hl'⟩ := List.pairwise_cons.mp hl
    cases k with
    | zero => simp
    | succ k =>
      rw [List.take_succ_cons, List.mem_cons, List.mem_cons]
      by_cases hx : x = a
      · subst hx
        have hnil : (x :: l).filter (· < x) = [] := by
          rw [List.filter_eq_nil_iff]
          intro b hb
          rcases List.mem_cons.mp hb with rfl | hb
          · simp
          · simp [(ha b hb).le]
        simp [hnil]
      · have hiff := ih hl' k
        constructor
        · intro hcases
          rcases hcases with rfl | hmem
          · exact absurd rfl hx
          · have h := hiff.mp hmem
            have hax : a < x := ha x h.1
            refine ⟨Or.inr h.1, ?_⟩
            rw [List.filter_cons_of_pos (by simpa using hax), List.length_cons]
            omega
        · intro hfound
          rcases hfound with ⟨rfl | hmem, hlen⟩
          · exact absurd rfl hx
          · have hax : a < x := ha x hmem
            rw [List.filter_cons_of_pos (by simpa using hax), List.length_cons] at hlen
            exact Or.inr (hiff.mpr ⟨hmem, by omega⟩)

theorem sort_pairwise_lt (S : Finset κ) : S.sort.Pairwise (· < ·) := by
  have hle : S.sort.Pairwise (· ≤ ·) := S.pairwise_sort (· ≤ ·)
  have hne : S.sort.Pairwise (· ≠ ·) := S.sort_nodup (· ≤ ·)
  exact (hle.and hne).imp fun h => lt_of_le_of_ne h.1 h.2

theorem ahead_card (S : Finset κ) (x : κ) : (ahead S x).card = (S.sort.filter (· < x)).length := by
  have hnd : (S.sort.filter (· < x)).Nodup := (S.sort_nodup (· ≤ ·)).filter _
  have heq : (S.sort.filter (· < x)).toFinset = ahead S x := by
    ext y
    simp only [List.mem_toFinset, List.mem_filter, Finset.mem_sort, decide_eq_true_eq, mem_ahead]
  rw [← heq, List.toFinset_card_of_nodup hnd]

theorem sort_kBest (k : ℕ) (S : Finset κ) : (kBest k S).sort = S.sort.take k := by
  have hlt : (S.sort.take k).Pairwise (· < ·) := (sort_pairwise_lt S).sublist (List.take_sublist _ _)
  have hset : (S.sort.take k).toFinset = kBest k S := by
    ext x
    rw [List.mem_toFinset, mem_take_sorted _ (sort_pairwise_lt S), Finset.mem_sort, mem_kBest,
      ahead_card]
  have hnd : (S.sort.take k).Nodup := (S.sort_nodup (· ≤ ·)).sublist (List.take_sublist _ _)
  rw [← hset]
  exact (List.toFinset_sort (· ≤ ·) hnd).mpr (hlt.imp le_of_lt)

theorem card_kBest (k : ℕ) (S : Finset κ) : (kBest k S).card = min k S.card := by
  have h := congrArg List.length (sort_kBest k S)
  rwa [Finset.length_sort, List.length_take, Finset.length_sort] at h

theorem kBest_of_card_le {k : ℕ} {S : Finset κ} (h : S.card ≤ k) : kBest k S = S := by
  apply Finset.eq_of_subset_of_card_le (kBest_subset k S)
  rw [card_kBest]
  omega

/-! ### Dropping and merging -/

theorem kBest_ahead {k : ℕ} {S : Finset κ} {x : κ} (hk : k ≤ (ahead S x).card) :
    kBest k S ⊆ ahead S x := by
  intro y hy
  obtain ⟨hyS, hyk⟩ := mem_kBest.mp hy
  rw [mem_ahead]
  refine ⟨hyS, lt_of_not_ge fun hxy => ?_⟩
  have := Finset.card_le_card (ahead_subset_of_le (S := S) hxy)
  omega

/-- Elements that `k` others rank ahead of may be dropped before the selection. -/
theorem kBest_of_dropped {k : ℕ} {K X : Finset κ} (hKX : K ⊆ X)
    (hdrop : ∀ d ∈ X, d ∉ K → k ≤ (ahead X d).card) : kBest k K = kBest k X := by
  have hin : kBest k X ⊆ K := by
    intro x hx
    obtain ⟨hxX, hxk⟩ := mem_kBest.mp hx
    by_contra hnot
    have := hdrop x hxX hnot
    omega
  ext x
  constructor
  · intro hx
    obtain ⟨hxK, hxk⟩ := mem_kBest.mp hx
    refine mem_kBest.mpr ⟨hKX hxK, ?_⟩
    by_contra hnot
    -- the k best of X would all lie in K and ahead of x
    have hsub : kBest k X ⊆ ahead K x := by
      intro y hy
      exact mem_ahead.mpr ⟨hin hy, (mem_ahead.mp (kBest_ahead (by omega) hy)).2⟩
    have hcard := Finset.card_le_card hsub
    have hX : (ahead X x).card ≤ X.card := Finset.card_le_card (Finset.filter_subset _ _)
    rw [card_kBest] at hcard
    omega
  · intro hx
    obtain ⟨_, hxk⟩ := mem_kBest.mp hx
    exact mem_kBest.mpr ⟨hin hx,
      lt_of_le_of_lt (Finset.card_le_card (ahead_mono hKX x)) hxk⟩

/-- A running selection may stand for the set it was selected from. -/
theorem kBest_kBest_union (k : ℕ) (S T : Finset κ) :
    kBest k (kBest k S ∪ T) = kBest k (S ∪ T) := by
  refine kBest_of_dropped (Finset.union_subset_union_left (kBest_subset k S)) ?_
  intro d hd hnot
  rw [Finset.mem_union] at hd hnot
  have hdS : d ∈ S := by tauto
  have hdk : d ∉ kBest k S := by tauto
  have hk : k ≤ (ahead S d).card := by
    by_contra h
    exact hdk (mem_kBest.mpr ⟨hdS, by omega⟩)
  exact hk.trans (Finset.card_le_card (ahead_mono Finset.subset_union_left d))

/-! ### Selection routines -/

/-- `out` is a choice of the `k` smallest entries of `l`, in any order: the contract of a
partition routine around position `k - 1`. -/
def IsSelection (k : ℕ) (l out : List κ) : Prop :=
  ∃ rest, (out ++ rest).Perm l ∧ out.length = min k l.length ∧ ∀ a ∈ out, ∀ b ∈ rest, a ≤ b

structure Partition (κ : Type*) [LinearOrder κ] where
  run : ℕ → List κ → List κ
  selects : ∀ k l, IsSelection k l (run k l)

theorem pairwise_mergeSort_le (l : List κ) : (l.mergeSort (· ≤ ·)).Pairwise (· ≤ ·) := by
  refine (List.pairwise_mergeSort ?_ ?_ l).imp fun h => of_decide_eq_true h
  · intro a b c hab hbc
    simp only [decide_eq_true_eq] at *
    exact hab.trans hbc
  · intro a b
    simpa using le_total a b

theorem selection_perm {k : ℕ} {l out : List κ} (h : IsSelection k l out) :
    out.Perm ((l.mergeSort (· ≤ ·)).take k) := by
  obtain ⟨rest, hperm, hlen, hle⟩ := h
  have hsorted : (out.mergeSort (· ≤ ·) ++ rest.mergeSort (· ≤ ·)).Pairwise (· ≤ ·) := by
    refine List.pairwise_append.mpr ⟨pairwise_mergeSort_le out, pairwise_mergeSort_le rest, ?_⟩
    intro a ha b hb
    exact hle a (List.mem_mergeSort.mp ha) b (List.mem_mergeSort.mp hb)
  have hall : (out.mergeSort (· ≤ ·) ++ rest.mergeSort (· ≤ ·)).Perm (l.mergeSort (· ≤ ·)) :=
    ((List.mergeSort_perm out _).append (List.mergeSort_perm rest _)).trans
      (hperm.trans (List.mergeSort_perm l _).symm)
  have heq := hall.eq_of_pairwise' hsorted (pairwise_mergeSort_le l)
  rw [← heq]
  have hk : (out.mergeSort (· ≤ ·)).length = min k l.length := by
    rw [List.length_mergeSort, hlen]
  have htotal : out.length + rest.length = l.length := by
    rw [← List.length_append]
    exact hperm.length_eq
  by_cases hlk : l.length ≤ k
  · have hrest : rest = [] := List.eq_nil_of_length_eq_zero (by omega)
    subst hrest
    rw [List.take_of_length_le (by simp; omega)]
    simp only [List.mergeSort_nil, List.append_nil]
    exact (List.mergeSort_perm out _).symm
  · rw [List.take_append_of_le_length (by omega), List.take_of_length_le (by omega)]
    exact (List.mergeSort_perm out _).symm

def sortPartition (κ : Type*) [LinearOrder κ] : Partition κ where
  run k l := (l.mergeSort (· ≤ ·)).take k
  selects := by
    intro k l
    refine ⟨(l.mergeSort (· ≤ ·)).drop k, ?_, ?_, ?_⟩
    · rw [List.take_append_drop]
      exact List.mergeSort_perm l _
    · rw [List.length_take, List.length_mergeSort]
    · have h := pairwise_mergeSort_le l
      rw [← List.take_append_drop k (l.mergeSort (· ≤ ·))] at h
      exact (List.pairwise_append.mp h).2.2

/-- On distinct entries `R` mixed with fillers that all rank behind them, a selection holds the
`k` best of `R`, completed by fillers. -/
theorem selection_fill {k : ℕ} {l out fill : List κ} {R : Finset κ}
    (h : IsSelection k l out) (hl : (l : Multiset κ) = R.val + (fill : Multiset κ))
    (hfill : ∀ r ∈ R, ∀ f ∈ fill, r < f) :
    (out : Multiset κ) =
      (kBest k R).val + (((fill.mergeSort (· ≤ ·)).take (k - R.card) : List κ) : Multiset κ) := by
  have hsorted : (R.sort ++ fill.mergeSort (· ≤ ·)).Pairwise (· ≤ ·) := by
    refine List.pairwise_append.mpr ⟨R.pairwise_sort (· ≤ ·), pairwise_mergeSort_le fill, ?_⟩
    intro a ha b hb
    exact (hfill a ((Finset.mem_sort (· ≤ ·)).mp ha) b (List.mem_mergeSort.mp hb)).le
  have hperm : (R.sort ++ fill.mergeSort (· ≤ ·)).Perm (l.mergeSort (· ≤ ·)) := by
    rw [← Multiset.coe_eq_coe, ← Multiset.coe_add, Finset.sort_eq,
      Multiset.coe_eq_coe.mpr (List.mergeSort_perm fill _), ← hl]
    exact (Multiset.coe_eq_coe.mpr (List.mergeSort_perm l _)).symm
  have heq := hperm.eq_of_pairwise' hsorted (pairwise_mergeSort_le l)
  rw [Multiset.coe_eq_coe.mpr (selection_perm h), ← heq, List.take_append, ← Multiset.coe_add,
    Finset.length_sort, ← sort_kBest, Finset.sort_eq]

end AnalyticsEngine.Library
