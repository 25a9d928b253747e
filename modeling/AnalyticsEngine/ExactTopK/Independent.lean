import AnalyticsEngine.ExactTopK.Exact
import AnalyticsEngine.Library.Slices
import Mathlib.Data.List.GetD

/-!
# The independent comparator (scripts/independent_exact_top_k.py)

Each query keeps a running list, into which every chunk of candidates is merged. A selection is
the sorted list cut at `k` (`select_best`), so that after any chunks the running list is the best
of the candidates seen (`updateRow_best`), and the result is free of both chunk sizes.
-/

namespace AnalyticsEngine.ExactTopK
open Library

/- A cell of the `scores` and the `positions` array, paired. -/
@[ext] structure Scored (α : Type*) where
  score : α
  position : ℕ

namespace Scored
variable {α : Type*}

def key (e : Scored α) : αᵒᵈ ×ₗ ℕ := toLex (OrderDual.toDual e.score, e.position)

theorem key_injective : Function.Injective (key : Scored α → αᵒᵈ ×ₗ ℕ) := by
  intro a b h
  have hpair := Prod.ext_iff.mp (toLex.injective h)
  exact Scored.ext (OrderDual.toDual.injective hpair.1) hpair.2

variable [LinearOrder α]

instance : LinearOrder (Scored α) := LinearOrder.lift' key key_injective

theorem le_iff {a b : Scored α} :
    a ≤ b ↔ b.score < a.score ∨ (a.score = b.score ∧ a.position ≤ b.position) := by
  change key a ≤ key b ↔ _
  unfold key
  rw [Prod.Lex.toLex_le_toLex]
  exact Iff.rfl

end Scored

variable {α : Type*} [LinearOrder α]

/-- `_select`; `np.partition` raises on an empty array. -/
def select (k : ℕ) (entries : List (Scored α)) : Option (List (Scored α)) :=
  let count := min k entries.length
  match ((entries.map Scored.score).mergeSort (· ≤ ·))[entries.length - count]? with
  | none => none
  | some boundary =>
    let above := entries.filter fun e => boundary < e.score
    let tied := entries.filter fun e => e.score = boundary
    let first := (tied.mergeSort fun a b => a.position ≤ b.position).take (count - above.length)
    some ((above ++ first).mergeSort fun a b =>
      b.score < a.score ∨ (a.score = b.score ∧ a.position ≤ b.position))

/-- The body of the loop over `current`. -/
def updateRow (k : ℕ) (score : ℕ → ℕ → α) (start stop own : ℕ) (running : List (Scored α)) :
    Option (List (Scored α)) :=
  let keep := (List.range' start (stop - start)).filter fun c => c ≠ own
  if keep = [] then some running
  else do
    let chunk ← select k (keep.map fun c => ⟨score own c, c⟩)
    select k (running ++ chunk)

/-- One batch of queries against the whole catalog. -/
def queryBatch (n k candidateRows : ℕ) (score : ℕ → ℕ → α) (current : List ℕ) :
    Option (List (List (Scored α))) :=
  (stepSlices n candidateRows).foldlM (fun running s =>
    (current.zip running).mapM fun x => updateRow k score s.1 s.2 x.1 x.2) (current.map fun _ => [])

/-- `independent_top_k`; `score` is what the products of normalised rows yield. -/
def independentTopK (n k queryRows candidateRows : ℕ) (score : ℕ → ℕ → α) (queries : List ℤ) :
    Except String (List (List (Scored α))) :=
  if k < 1 ∨ n ≤ k ∨ queryRows < 1 ∨ candidateRows < 1 then
    .error "invalid catalog, k, or chunk sizes"
  else if queries.any fun q => q < 0 ∨ (n : ℤ) ≤ q then .error "query outside catalog"
  else
    let positions := queries.map Int.toNat
    match (stepSlices queries.length queryRows).mapM fun s =>
      queryBatch n k candidateRows score ((positions.drop s.1).take (s.2 - s.1)) with
    | none => .error "kth out of bounds"
    | some batches => .ok batches.flatten

/-! ### Selection -/

/-- The best `k` entries in rank order. -/
def best (k : ℕ) (entries : List (Scored α)) : List (Scored α) :=
  (entries.mergeSort (· ≤ ·)).take k

theorem mergeSort_before (entries : List (Scored α)) :
    (entries.mergeSort fun a b =>
      b.score < a.score ∨ (a.score = b.score ∧ a.position ≤ b.position)) =
        entries.mergeSort (· ≤ ·) := by
  congr 1
  funext a b
  exact decide_eq_decide.mpr Scored.le_iff.symm

theorem sorted_scores (entries : List (Scored α)) :
    (entries.map Scored.score).mergeSort (· ≤ ·) =
      ((entries.mergeSort (· ≤ ·)).map Scored.score).reverse := by
  have hperm : ((entries.map Scored.score).mergeSort (· ≤ ·)).Perm
      ((entries.mergeSort (· ≤ ·)).map Scored.score).reverse :=
    (List.mergeSort_perm _ _).trans
      (((List.mergeSort_perm entries _).map _).symm.trans (List.reverse_perm _).symm)
  have hsorted : ((entries.mergeSort (· ≤ ·)).map Scored.score).reverse.Pairwise (· ≤ ·) := by
    rw [List.pairwise_reverse, List.pairwise_map]
    refine (pairwise_mergeSort_le entries).imp ?_
    intro a b hab
    rcases Scored.le_iff.mp hab with hlt | ⟨heq, _⟩
    · exact hlt.le
    · exact heq.ge
  exact hperm.eq_of_pairwise' (pairwise_mergeSort_le _) hsorted

theorem score_antitone {a b : Scored α} (h : a ≤ b) : b.score ≤ a.score := by
  rcases Scored.le_iff.mp h with hlt | ⟨heq, _⟩
  · exact hlt.le
  · exact heq.ge

omit [LinearOrder α] in
theorem pairwise_positions (l : List (Scored α)) :
    (l.mergeSort fun a b => a.position ≤ b.position).Pairwise
      fun a b => a.position ≤ b.position := by
  refine (List.pairwise_mergeSort ?_ ?_ l).imp fun h => of_decide_eq_true h
  · intro a b c hab hbc
    simp only [decide_eq_true_eq] at *
    exact hab.trans hbc
  · intro a b
    simpa using le_total a.position b.position

/-- The entry at the cut of a sorted list. -/
theorem exists_boundary {k : ℕ} {l : List (Scored α)} (hk : 1 ≤ k) (hne : l ≠ [])
    (hsorted : l.Pairwise (· ≤ ·)) :
    ∃ b ∈ l.take k, (l.map Scored.score).reverse[l.length - min k l.length]? = some b.score ∧
      (∀ e ∈ l.take k, b.score ≤ e.score) ∧ ∀ e ∈ l.drop k, e.score ≤ b.score := by
  have hpos := List.length_pos_iff.mpr hne
  have hle : ∀ i j (hi : i < l.length) (hj : j < l.length), i ≤ j → l[i] ≤ l[j] := by
    intro i j hi hj hij
    rcases Nat.eq_or_lt_of_le hij with rfl | hlt
    · exact le_rfl
    · exact List.pairwise_iff_getElem.mp hsorted i j hi hj hlt
  have hcut : min k l.length - 1 < l.length := by omega
  refine ⟨l[min k l.length - 1], ?_, ?_, ?_, ?_⟩
  · exact List.mem_take_iff_getElem.mpr ⟨min k l.length - 1, by omega, rfl⟩
  · have hindex : l.length - min k l.length < (l.map Scored.score).reverse.length := by
      rw [List.length_reverse, List.length_map]
      omega
    rw [List.getElem?_eq_getElem hindex, Option.some.injEq, List.getElem_reverse,
      List.getElem_map]
    congr 2
    rw [List.length_map]
    omega
  · intro e he
    obtain ⟨i, hi, rfl⟩ := List.mem_take_iff_getElem.mp he
    exact score_antitone (hle i _ (by omega) hcut (by omega))
  · intro e he
    obtain ⟨i, hi, rfl⟩ := List.mem_drop_iff_getElem.mp he
    exact score_antitone (hle _ (k + i) hcut (by omega) (by omega))

section
variable {k : ℕ} {entries l : List (Scored α)} {b : Scored α}

/-- What ranks above the boundary is in the cut. -/
theorem high_cut (hperm : l.Perm entries) (hbelow : ∀ e ∈ l.drop k, e.score ≤ b.score) :
    (entries.filter fun e => b.score < e.score).Perm
      ((l.take k).filter fun e => b.score < e.score) := by
  have hdrop : ((l.drop k).filter fun e => b.score < e.score) = [] := by
    apply List.filter_eq_nil_iff.mpr
    intro e he
    simpa using hbelow e he
  have hsplit := congrArg (List.filter fun e => decide (b.score < e.score))
    (List.take_append_drop k l)
  rw [List.filter_append, hdrop, List.append_nil] at hsplit
  rw [hsplit]
  exact hperm.symm.filter _

/-- The cut is what ranks above the boundary and the boundary's ties in it. -/
theorem cut_perm (hperm : l.Perm entries) (habove : ∀ e ∈ l.take k, b.score ≤ e.score)
    (hbelow : ∀ e ∈ l.drop k, e.score ≤ b.score) :
    ((entries.filter fun e => b.score < e.score) ++
      (l.take k).filter fun e => e.score = b.score).Perm (l.take k) := by
  have hties : ((l.take k).filter fun e => e.score = b.score) =
      (l.take k).filter fun e => !decide (b.score < e.score) := by
    apply List.filter_congr
    intro e he
    have hge := habove e he
    rw [← decide_not]
    exact decide_eq_decide.mpr ⟨fun heq => heq.le.not_gt, fun hnot => (not_lt.mp hnot).antisymm hge⟩
  rw [hties]
  exact ((high_cut hperm hbelow).append_right _).trans (List.filter_append_perm _ _)

/-- The ties by position are the ties of the sorted list. -/
theorem ties_sorted (hperm : l.Perm entries) (hsorted : l.Pairwise (· ≤ ·)) :
    ((entries.filter fun e => e.score = b.score).mergeSort fun a b => a.position ≤ b.position) =
      l.filter fun e => e.score = b.score := by
  have hties : ((entries.filter fun e => e.score = b.score).mergeSort
      fun a b => a.position ≤ b.position).Perm (l.filter fun e => e.score = b.score) :=
    (List.mergeSort_perm _ _).trans (hperm.symm.filter _)
  have hpositions : ((entries.filter fun e => e.score = b.score).mergeSort
      fun a b => a.position ≤ b.position).Pairwise (· ≤ ·) := by
    refine (pairwise_positions _).imp_of_mem ?_
    intro x y hx hy hxy
    have hscore : ∀ {e : Scored α}, e ∈ (entries.filter fun e => e.score = b.score).mergeSort
        (fun a b => a.position ≤ b.position) → e.score = b.score := fun he =>
      of_decide_eq_true (List.mem_filter.mp (List.mem_mergeSort.mp he)).2
    exact Scored.le_iff.mpr (Or.inr ⟨(hscore hx).trans (hscore hy).symm, hxy⟩)
  exact hties.eq_of_pairwise' hpositions (hsorted.sublist List.filter_sublist)

/-- A selection is the sorted list, cut at `k`. -/
theorem select_best (hk : 1 ≤ k) (hne : entries ≠ []) :
    select k entries = some (best k entries) := by
  have hperm := List.mergeSort_perm entries fun a b => decide (a ≤ b)
  have hsorted := pairwise_mergeSort_le entries
  have hlength := hperm.length_eq
  unfold select best
  rw [sorted_scores, ← hlength]
  generalize entries.mergeSort (fun a b => decide (a ≤ b)) = l at hperm hsorted hlength
  have hne' : l ≠ [] := by
    rintro rfl
    exact hne (List.eq_nil_of_length_eq_zero hlength.symm)
  obtain ⟨b, hb, hboundary, habove, hbelow⟩ := exists_boundary hk hne' hsorted
  dsimp only
  rw [hboundary]
  dsimp only
  rw [mergeSort_before, Option.some.injEq, ties_sorted hperm hsorted]
  have hcut := cut_perm hperm habove hbelow
  have hfirst : (l.filter fun e => e.score = b.score).take
      (min k l.length - (entries.filter fun e => b.score < e.score).length) =
        (l.take k).filter fun e => e.score = b.score := by
    have hsplit := congrArg (List.filter fun e => decide (e.score = b.score))
      (List.take_append_drop k l)
    have hcount := hcut.length_eq
    rw [List.length_append, List.length_take] at hcount
    rw [List.filter_append] at hsplit
    rw [← hsplit]
    apply List.take_left'
    omega
  rw [hfirst]
  exact ((List.mergeSort_perm _ _).trans hcut).eq_of_pairwise' (pairwise_mergeSort_le _)
    (hsorted.sublist (List.take_sublist k l))

end

/-! ### Merging -/

theorem best_sort {k : ℕ} {entries : List (Scored α)} (h : entries.Nodup) :
    best k entries = (kBest k entries.toFinset).sort := by
  unfold best
  rw [sort_kBest]
  congr 1
  have hperm := List.mergeSort_perm entries fun a b => decide (a ≤ b)
  have hnodup := hperm.nodup_iff.mpr h
  have hset : (entries.mergeSort fun a b => decide (a ≤ b)).toFinset = entries.toFinset :=
    List.toFinset_eq_of_perm _ _ hperm
  rw [← hset]
  exact ((List.toFinset_sort (· ≤ ·) hnodup).mpr (pairwise_mergeSort_le entries)).symm

/-- Two selections merged are the selection of both. -/
theorem best_merge (k : ℕ) {xs ys : List (Scored α)} (h : (xs ++ ys).Nodup) :
    best k (best k xs ++ best k ys) = best k (xs ++ ys) := by
  obtain ⟨hxs, hys, hdisjoint⟩ := List.nodup_append'.mp h
  have hsub : ∀ {l : List (Scored α)}, best k l ⊆ l := fun e =>
    List.mem_mergeSort.mp (List.mem_of_mem_take e)
  have hnodup : ∀ {l : List (Scored α)}, l.Nodup → (best k l).Nodup := fun hl =>
    ((List.mergeSort_perm _ _).nodup_iff.mpr hl).sublist (List.take_sublist _ _)
  have hboth : (best k xs ++ best k ys).Nodup :=
    List.nodup_append'.mpr ⟨hnodup hxs, hnodup hys, fun _ hx hy => hdisjoint (hsub hx) (hsub hy)⟩
  rw [best_sort hboth, best_sort h, List.toFinset_append, List.toFinset_append, best_sort hxs,
    best_sort hys, Finset.sort_toFinset, Finset.sort_toFinset, kBest_kBest_union,
    Finset.union_comm, kBest_kBest_union, Finset.union_comm]

/-! ### The running lists -/

section
variable {k n : ℕ} {score : ℕ → ℕ → α}

/-- The candidates of a query among the first `m` rows. -/
def seen (score : ℕ → ℕ → α) (own m : ℕ) : List (Scored α) :=
  ((List.range m).filter fun c => c ≠ own).map fun c => ⟨score own c, c⟩

omit [LinearOrder α] in
theorem seen_nodup (score : ℕ → ℕ → α) (own m : ℕ) : (seen score own m).Nodup := by
  apply List.Nodup.of_map Scored.position
  unfold seen
  rw [List.map_map]
  have hposition : (Scored.position ∘ fun c => (⟨score own c, c⟩ : Scored α)) = id := rfl
  rw [hposition, List.map_id]
  exact List.nodup_range.filter _

omit [LinearOrder α] in
theorem seen_append {own start stop : ℕ} (h : start ≤ stop) :
    seen score own stop = seen score own start ++
      ((List.range' start (stop - start)).filter fun c => c ≠ own).map fun c =>
        ⟨score own c, c⟩ := by
  have hrange : List.range stop = List.range start ++ List.range' start (stop - start) := by
    rw [List.range'_eq_map_range, ← List.range_add, Nat.add_sub_cancel' h]
  unfold seen
  rw [hrange, List.filter_append, List.map_append]

/-- A chunk brings the running list up to its candidates. -/
theorem updateRow_best (hk : 1 ≤ k) {own start stop : ℕ} (h : start ≤ stop) :
    updateRow k score start stop own (best k (seen score own start)) =
      some (best k (seen score own stop)) := by
  have hnodup := seen_nodup score own stop
  rw [seen_append h] at hnodup ⊢
  unfold updateRow
  dsimp only
  by_cases hkeep : ((List.range' start (stop - start)).filter fun c => c ≠ own) = []
  · rw [if_pos hkeep, hkeep, List.map_nil, List.append_nil]
  · have hchunk : (((List.range' start (stop - start)).filter fun c => c ≠ own).map fun c =>
        (⟨score own c, c⟩ : Scored α)) ≠ [] := fun hnil => hkeep (List.map_eq_nil_iff.mp hnil)
    have hlocal : best k (((List.range' start (stop - start)).filter fun c => c ≠ own).map fun c =>
        (⟨score own c, c⟩ : Scored α)) ≠ [] := by
      unfold best
      rw [ne_eq, List.take_eq_nil_iff, not_or]
      refine ⟨by omega, ?_⟩
      intro hnil
      exact hchunk (List.eq_nil_of_length_eq_zero (by
        rw [← List.length_mergeSort, hnil, List.length_nil]))
    rw [if_neg hkeep, select_best hk hchunk]
    change select k _ = _
    rw [select_best hk (List.append_ne_nil_of_right_ne_nil _ hlocal), best_merge k hnodup]

/-- One chunk brings every list of the batch up. -/
theorem updateRows_best (hk : 1 ≤ k) {start stop : ℕ} (h : start ≤ stop) (current : List ℕ) :
    ((current.zip (current.map fun own => best k (seen score own start))).mapM fun x =>
      updateRow k score start stop x.1 x.2) =
        some (current.map fun own => best k (seen score own stop)) := by
  have hzip : current.zip (current.map fun own => best k (seen score own start)) =
      current.map fun own => (own, best k (seen score own start)) :=
    List.map_prod_left_eq_zip.symm
  have hrows : ∀ own ∈ current, updateRow k score start stop own (best k (seen score own start)) =
      pure (best k (seen score own stop)) := fun own _ => updateRow_best hk h
  rw [hzip, List.mapM_map]
  exact mapM_eq_pure hrows

theorem queryBatch_best (hk : 1 ≤ k) {candidateRows : ℕ} (hrows : 1 ≤ candidateRows)
    (current : List ℕ) :
    queryBatch n k candidateRows score current =
      some (current.map fun own => best k (seen score own n)) := by
  have hchunks : ∀ m, m * candidateRows < n + candidateRows →
      ((List.range m).map fun i => (i * candidateRows, min (i * candidateRows + candidateRows) n)).foldlM
        (fun running s => (current.zip running).mapM fun x => updateRow k score s.1 s.2 x.1 x.2)
        (current.map fun _ => []) =
        some (current.map fun own => best k (seen score own (min (m * candidateRows) n))) := by
    intro m
    induction m with
    | zero =>
      intro _
      rw [Nat.zero_mul, Nat.zero_min]
      have hempty : ∀ own, best k (seen score own 0) = [] := by
        intro own
        unfold best seen
        rw [List.range_zero, List.filter_nil, List.map_nil, List.mergeSort_nil, List.take_nil]
      simp only [hempty]
      rfl
    | succ m ih =>
      intro hm
      rw [Nat.succ_mul] at hm ⊢
      have hstart : min (m * candidateRows) n = m * candidateRows := by omega
      rw [List.range_succ, List.map_append, List.foldlM_append, ih (by omega), hstart]
      have hle : m * candidateRows ≤ min (m * candidateRows + candidateRows) n := by omega
      have hchunk : ((current.zip (current.map fun own =>
          best k (seen score own (m * candidateRows)))).mapM fun x => updateRow k score
            (m * candidateRows) (min (m * candidateRows + candidateRows) n) x.1 x.2) =
          some (current.map fun own =>
            best k (seen score own (min (m * candidateRows + candidateRows) n))) :=
        updateRows_best hk hle current
      rw [Option.bind_eq_bind, Option.bind_some, List.map_singleton, List.foldlM_cons, hchunk]
      rfl
  have hcount : (n + candidateRows - 1) / candidateRows * candidateRows < n + candidateRows := by
    have := Nat.div_mul_le_self (n + candidateRows - 1) candidateRows
    omega
  have hall : min ((n + candidateRows - 1) / candidateRows * candidateRows) n = n := by
    have hdiv := Nat.div_add_mod' (n + candidateRows - 1) candidateRows
    have hmod := Nat.mod_lt (n + candidateRows - 1) hrows
    omega
  unfold queryBatch stepSlices
  rw [hchunks _ hcount, hall]

/-- The list the comparator is for: the first `k` neighbours with their scores. -/
def ranking (n k : ℕ) (score : ℕ → ℕ → α) (own : ℕ) : List (Scored α) :=
  ((neighbours n score own).take k).map fun c => ⟨score own c, c⟩

theorem best_seen (own : ℕ) : best k (seen score own n) = ranking n k score own := by
  have hperm : ((seen score own n).mergeSort (· ≤ ·)).Perm
      ((neighbours n score own).map fun c => (⟨score own c, c⟩ : Scored α)) :=
    (List.mergeSort_perm _ _).trans ((neighbours_perm n score own).map _).symm
  have hsorted : ((neighbours n score own).map fun c =>
      (⟨score own c, c⟩ : Scored α)).Pairwise (· ≤ ·) := by
    rw [List.pairwise_map]
    refine (neighbours_pairwise n score own).imp ?_
    intro a b hab
    exact Scored.le_iff.mpr (of_decide_eq_true hab)
  unfold best ranking
  rw [hperm.eq_of_pairwise' (pairwise_mergeSort_le _) hsorted, List.map_take]

theorem independentTopK_eq (hk : 1 ≤ k) (hkn : k < n) {queryRows candidateRows : ℕ}
    (hqueryRows : 1 ≤ queryRows) (hcandidateRows : 1 ≤ candidateRows) (queries : List ℕ)
    (hqueries : ∀ q ∈ queries, q < n) :
    independentTopK n k queryRows candidateRows score (queries.map fun q : ℕ => (q : ℤ)) =
      .ok (queries.map (ranking n k score)) := by
  have hrange : ((queries.map fun q : ℕ => (q : ℤ)).any fun q => q < 0 ∨ (n : ℤ) ≤ q) = false := by
    rw [List.any_eq_false]
    intro q hq
    obtain ⟨p, hp, rfl⟩ := List.mem_map.mp hq
    have := hqueries p hp
    rw [decide_eq_true_eq]
    omega
  have hpositions : (queries.map fun q : ℕ => (q : ℤ)).map Int.toNat = queries := by
    rw [List.map_map]
    exact List.map_id queries
  have hbatch : ∀ s ∈ stepSlices queries.length queryRows,
      queryBatch n k candidateRows score ((queries.drop s.1).take (s.2 - s.1)) =
        pure ((sliceRows s).map fun i => ranking n k score (queries.getD i 0)) := by
    intro s hs
    obtain ⟨i, _, rfl⟩ := List.mem_map.mp hs
    rw [queryBatch_best hk hcandidateRows, take_drop_slice queries 0 (Nat.min_le_right _ _),
      List.map_map]
    simp only [best_seen]
    rfl
  have hall := mapM_stepSlices hqueryRows hbatch
  have hqueries' : ((List.range queries.length).map fun i => ranking n k score (queries.getD i 0)) =
      queries.map (ranking n k score) := by
    apply List.ext_getElem
    · rw [List.length_map, List.length_map, List.length_range]
    · intro i hi _
      rw [List.length_map, List.length_range] at hi
      rw [List.getElem_map, List.getElem_map, List.getElem_range, List.getD_eq_getElem queries 0 hi]
  rw [hqueries'] at hall
  obtain ⟨batches, hbatches, hflatten⟩ := Option.map_eq_some_iff.mp hall
  unfold independentTopK
  rw [if_neg (by omega), hrange, if_neg Bool.false_ne_true]
  dsimp only
  rw [hpositions, List.length_map, hbatches]
  dsimp only
  rw [hflatten]

end

/-! ### Against the kernel -/

section
variable {cfg : Config α}

/-- A comparator's entry as the kernel stores it. -/
def stored (e : Scored α) : Entry α := ⟨real e.score, toInt32 e.position⟩

theorem exactList_ranking {n k : ℕ} (hkn : k < n) (score : ℕ → ℕ → α) {q : ℕ} (hq : q < n) :
    exactList n k score q = (ranking n k score q).map stored := by
  have hfull : k - (neighbours n score q).length = 0 := by
    rw [length_neighbours score hq]
    omega
  unfold exactList ranking
  rw [hfull, List.replicate_zero, List.append_nil, List.map_map]
  rfl

/-- The list a run of the kernel hands over for a row. -/
def Publishes (calls : List (BlockCall α)) (q : ℕ) (list : List (Entry α)) : Prop :=
  ∃ call ∈ calls, call.rowStart ≤ q ∧ call.lists[q - call.rowStart]? = some list

theorem publishes_iff (hv : cfg.Valid) {part : Partition (Entry α)} {schedule : ℕ → List Event}
    {start : ℕ} {state : TopKState α} {calls : List (BlockCall α)} (hstart : Start cfg start state)
    (hrun : exactTopK part cfg schedule start state = .ok (some calls)) {q : ℕ}
    (hq : start * cfg.blockRows ≤ q) (hqn : q < cfg.n) (list : List (Entry α)) :
    Publishes calls q list ↔ list = exactList cfg.n cfg.k cfg.score q := by
  have hB := hv.rows_pos
  rw [exactTopK_ok hv, Except.ok.injEq] at hrun
  have hcalls := (runBlocks_exact hv part schedule _ (start_boundary hv hstart) hrun).1
  have hcall : ∀ call, call ∈ calls → ∃ i, call.rowStart = i * cfg.blockRows ∧
      call.lists = (List.range (cfg.validRows i)).map fun r =>
        exactList cfg.n cfg.k cfg.score (i * cfg.blockRows + r) := by
    intro call hmem
    have hpair := List.mem_map_of_mem (f := fun call => (call.rowStart, call.lists)) hmem
    rw [hcalls] at hpair
    obtain ⟨i, _, hi⟩ := List.mem_map.mp hpair
    exact ⟨i, (congrArg Prod.fst hi).symm, (congrArg Prod.snd hi).symm⟩
  constructor
  · rintro ⟨call, hmem, hle, hlist⟩
    obtain ⟨i, hstart', hlists⟩ := hcall call hmem
    rw [hlists, List.getElem?_map, Option.map_eq_some_iff] at hlist
    obtain ⟨r, hr, rfl⟩ := hlist
    obtain ⟨_, rfl⟩ := List.getElem?_eq_some_iff.mp hr
    rw [List.getElem_range]
    congr 1
    omega
  · rintro rfl
    have hdiv := Nat.div_add_mod' q cfg.blockRows
    have hmod := Nat.mod_lt q hB
    have hblock : q / cfg.blockRows ∈ List.range' start (cfg.nBlocks - start) := by
      rw [List.mem_range'_1]
      have hlow : start ≤ q / cfg.blockRows := (Nat.le_div_iff_mul_le hB).mpr hq
      have hhigh : q / cfg.blockRows < cfg.nBlocks := by
        unfold Config.nBlocks
        rw [Nat.div_lt_iff_lt_mul hB]
        have hceil := Nat.div_add_mod' (cfg.n + cfg.blockRows - 1) cfg.blockRows
        have hrest := Nat.mod_lt (cfg.n + cfg.blockRows - 1) hB
        omega
      omega
    have hpair := List.mem_map_of_mem (f := fun i => (i * cfg.blockRows,
      (List.range (cfg.validRows i)).map fun r =>
        exactList cfg.n cfg.k cfg.score (i * cfg.blockRows + r))) hblock
    rw [← hcalls] at hpair
    obtain ⟨call, hmem, hpair⟩ := List.mem_map.mp hpair
    have hrowStart := congrArg Prod.fst hpair
    have hlists := congrArg Prod.snd hpair
    dsimp only at hrowStart hlists
    have hrow : q - q / cfg.blockRows * cfg.blockRows < cfg.validRows (q / cfg.blockRows) := by
      unfold Config.validRows
      omega
    refine ⟨call, hmem, by omega, ?_⟩
    rw [hlists, hrowStart, List.getElem?_map, List.getElem?_range hrow, Option.map_some]
    congr 2
    omega

end

/-- The comparator's rankings are exact, whatever its chunk sizes, and are the kernel's lists. -/
theorem independentTopK_exact {n k queryRows candidateRows : ℕ} (score : ℕ → ℕ → α) (hk : 1 ≤ k)
    (hkn : k < n) (hqueryRows : 1 ≤ queryRows) (hcandidateRows : 1 ≤ candidateRows)
    (queries : List ℕ) (hqueries : ∀ q ∈ queries, q < n) :
    independentTopK n k queryRows candidateRows score (queries.map fun q : ℕ => (q : ℤ)) =
      .ok (queries.map fun q => ((neighbours n score q).take k).map fun c => ⟨score q c, c⟩) ∧
    ∀ cfg : Config α, cfg.Valid → cfg.n = n → cfg.k = k → cfg.score = score →
      ∀ part schedule start state calls, Start cfg start state →
        exactTopK part cfg schedule start state = .ok (some calls) →
        ∀ q ∈ queries, start * cfg.blockRows ≤ q → ∀ list, Publishes calls q list ↔
          list = (((neighbours n score q).take k).map fun c => ⟨score q c, c⟩).map stored := by
  refine ⟨independentTopK_eq hk hkn hqueryRows hcandidateRows queries hqueries, ?_⟩
  intro cfg hv hn hk' hscore part schedule start state calls hstart hrun q hq hle list
  have hqn := hqueries q hq
  rw [publishes_iff hv hstart hrun hle (by omega) list, hn, hk', hscore,
    exactList_ranking hkn score hqn]
  rfl

/-- The neighbours are the one order of the other rows in which none outranks an earlier one. -/
theorem neighbours_unique {n : ℕ} {score : ℕ → ℕ → α} {r : ℕ} {l : List ℕ}
    (hperm : l.Perm ((List.range n).filter fun c => c ≠ r))
    (hsorted : l.Pairwise fun a b => ranksBefore score r a b) : neighbours n score r = l := by
  refine ((neighbours_perm n score r).trans hperm.symm).eq_of_pairwise ?_
    (neighbours_pairwise n score r) hsorted
  intro a b _ _ hab hba
  unfold ranksBefore at hab hba
  rcases of_decide_eq_true hab with h | ⟨heq, hle⟩
  · rcases of_decide_eq_true hba with h' | ⟨heq', _⟩
    · exact absurd h h'.not_gt
    · exact absurd heq' h.ne
  · rcases of_decide_eq_true hba with h' | ⟨_, hle'⟩
    · exact absurd heq h'.ne
    · exact hle.antisymm hle'

theorem independentTopK_exact_threeRows :
    independentTopK 3 2 2 1 threeRows.score [2, 0, 2] =
      .ok [[⟨2, 1⟩, ⟨0, 0⟩], [⟨0, 1⟩, ⟨0, 2⟩], [⟨2, 1⟩, ⟨0, 0⟩]] ∧
    ∃ calls, exactTopK (sortPartition (Entry ℕ)) threeRows threeRowsSchedule 0
      (TopKState.empty 2) = .ok (some calls) ∧
      Publishes calls 2 [⟨real 2, 1#32⟩, ⟨real 0, 0#32⟩] := by
  have hqueries : ∀ q ∈ [2, 0, 2], q < 3 := by decide
  have hrow0 : neighbours 3 threeRows.score 0 = [1, 2] :=
    neighbours_unique (List.Perm.refl _) (by decide)
  have hrow2 : neighbours 3 threeRows.score 2 = [1, 0] :=
    neighbours_unique (List.Perm.swap 0 1 []) (by decide)
  obtain ⟨hexact, hkernel⟩ := independentTopK_exact threeRows.score one_le_two
    (Nat.lt_succ_self 2) one_le_two le_rfl [2, 0, 2] hqueries
  constructor
  · simp only [List.map_cons, List.map_nil, hrow0, hrow2] at hexact
    exact hexact
  · obtain ⟨calls, hrun⟩ : ∃ calls, exactTopK (sortPartition (Entry ℕ)) threeRows threeRowsSchedule 0
        (TopKState.empty 2) = .ok (some calls) := ⟨_, rfl⟩
    refine ⟨calls, hrun, ?_⟩
    refine (hkernel threeRows threeRows_valid rfl rfl rfl _ _ 0 _ calls Start.empty hrun 2
      List.mem_cons_self ?_ _).mpr ?_
    · rw [Nat.zero_mul]
      exact Nat.zero_le 2
    rw [hrow2]
    rfl

/-- At `2^31` rows the comparator ranks the last row first and some run of the kernel does not. -/
theorem independentTopK_pad_collision :
    (∀ r c, longCatalog.score r c = longCatalog.score c r) ∧ 1 ≤ longCatalog.k ∧
    longCatalog.k < longCatalog.n ∧ longCatalog.blockRows % segmentRows = 0 ∧
    independentTopK longCatalog.n longCatalog.k 32 65536 longCatalog.score [0] =
      .ok [[⟨1, 2 ^ 31 - 1⟩]] ∧
    ∃ schedule calls list, exactTopK (sortPartition (Entry ℕ)) longCatalog schedule 0
        (TopKState.empty longCatalog.k) = .ok (some calls) ∧
      Publishes calls 0 list ∧ list ≠ [⟨1, 2 ^ 31 - 1⟩].map stored := by
  have hk : 1 ≤ longCatalog.k := le_rfl
  have hkn : longCatalog.k < longCatalog.n := by
    change 1 < 2 ^ 31
    omega
  refine ⟨longCatalog_symm, hk, hkn, by decide, ?_, ?_⟩
  · have hqueries : ∀ q ∈ [0], q < longCatalog.n := by
      intro q hq
      rw [List.mem_singleton.mp hq]
      exact Nat.zero_lt_of_lt hkn
    have hlist : ranking longCatalog.n longCatalog.k longCatalog.score 0 = [⟨1, 2 ^ 31 - 1⟩] := by
      have hscore := longCatalog_score (2 ^ 31 - 1)
      rw [if_pos rfl] at hscore
      obtain ⟨c, hc⟩ : ∃ c, (neighbours longCatalog.n longCatalog.score 0).take 1 = [c] := by
        apply List.length_eq_one_iff.mp
        have hpos := List.length_pos_of_mem longCatalog_best
        have hle := List.length_take_le 1 (neighbours longCatalog.n longCatalog.score 0)
        omega
      have hbest := longCatalog_best
      rw [hc, List.mem_singleton] at hbest
      unfold ranking
      change List.map _ (List.take 1 _) = _
      rw [hc, ← hbest, List.map_singleton, hscore]
    have hqueryRows : 1 ≤ 32 := by decide
    have hcandidateRows : 1 ≤ 65536 := by decide
    have hexact : independentTopK longCatalog.n longCatalog.k 32 65536 longCatalog.score [0] =
        .ok ([0].map (ranking longCatalog.n longCatalog.k longCatalog.score)) :=
      independentTopK_eq hk hkn hqueryRows hcandidateRows [0] hqueries
    rw [List.map_singleton, hlist] at hexact
    exact hexact
  · obtain ⟨schedule, call, rest, list, hrun, hrow, hlist, hpad⟩ := longCatalog_run
    refine ⟨schedule, call :: rest, list, hrun, ?_, ?_⟩
    · refine ⟨call, List.mem_cons_self, ?_, ?_⟩
      · rw [hrow]
      · rw [hrow]
        exact hlist
    · rintro rfl
      exact hpad _ List.mem_cons_self rfl

end AnalyticsEngine.ExactTopK
