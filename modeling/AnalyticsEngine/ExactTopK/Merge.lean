import AnalyticsEngine.ExactTopK.Candidates
import Mathlib.Tactic.Abel

/-!
# What a merge leaves in a row

`rowList k E` is the content of a running list that has seen the entries `E`: the `k` best of
them, completed by empty slots. `applyCandidates_row` says that an update whose candidates miss
no entry of the `k` best takes `rowList k E` to `rowList k (E ∪ C)`, and
`applyCandidates_frame` that it leaves the rows without candidates alone.
-/

namespace AnalyticsEngine.ExactTopK
open Library

variable {α : Type*} [LinearOrder α]

/-- A slot that holds a neighbour: a real score at a position below `_PAD_POSITION`. -/
def IsReal (e : Entry α) : Prop := floor < e.score ∧ e.position.toNat < 2 ^ 31 - 1

/-- The slots of a row that has seen the entries `E`, in no particular order. -/
def rowList (k : ℕ) (E : Finset (Entry α)) : Multiset (Entry α) :=
  (kBest k E).val + Multiset.replicate (k - E.card) emptyEntry

theorem entry_lt_iff (a b : Entry α) : a < b ↔ rankKey a < rankKey b := Iff.rfl

theorem lt_of_score_lt {a b : Entry α} (h : b.score < a.score) : a < b := by
  rw [entry_lt_iff, rankKey, rankKey, Prod.Lex.toLex_lt_toLex]
  exact Or.inl h

theorem isReal_lt {a b : Entry α} (ha : IsReal a) (hb : b.score = negInf) : a < b :=
  lt_of_score_lt (by rw [hb]; exact negInf_lt_floor.trans ha.1)

theorem unpad_isReal {e : Entry α} (h : IsReal e) : unpad e = e := by
  rw [unpad, if_neg]
  intro hpos
  have h31 : e.position.toNat = 2 ^ 31 - 1 := by rw [hpos]; rfl
  have := h.2
  omega

omit [LinearOrder α] in
theorem unpad_emptyEntry : unpad (emptyEntry : Entry α) = emptyEntry := by
  rw [unpad, if_neg (by simp only [emptyEntry]; decide)]

omit [LinearOrder α] in
theorem unpad_padEntry : unpad (padEntry : Entry α) = emptyEntry := by
  simp only [unpad, padEntry, if_true, emptyEntry]

theorem card_rowList (k : ℕ) (E : Finset (Entry α)) : Multiset.card (rowList k E) = k := by
  rw [rowList, Multiset.card_add, Finset.card_val, card_kBest, Multiset.card_replicate]
  omega

theorem rowList_congr {k : ℕ} {E E' : Finset (Entry α)} (h : kBest k E = kBest k E') :
    rowList k E = rowList k E' := by
  have hcard := congrArg Finset.card h
  rw [card_kBest, card_kBest] at hcard
  rw [rowList, rowList, h, show k - E.card = k - E'.card by omega]

/-! ### The padded row -/

omit [LinearOrder α] in
theorem paddedRow_eq (k width : ℕ) (old : List (Entry α)) (cands : List (ℕ × Entry α)) (row : ℕ)
    (hold : old.length = k) (hsorted : (cands.map Prod.fst).Pairwise (· ≤ ·))
    (hwidth : (valuesOf row cands).length ≤ width) :
    paddedRow k width old cands row =
      old ++ valuesOf row cands ++ List.replicate (width - (valuesOf row cands).length) padEntry := by
  have hinj : AddrInj (fun r slot => (r, k + slot)) cands := by
    intro r t r' t' _ _ h
    simp only [Prod.mk.injEq] at h
    omega
  have hstarts : (fun r => ((List.range r).map fun q => (cands.map Prod.fst).count q).sum) =
      runStart (cands.map Prod.fst) := funext fun r => sum_counts_eq_runStart _ r
  simp only [paddedRow, hstarts]
  apply List.ext_getElem (by simp; omega)
  intro c hc hc'
  simp only [List.length_map, List.length_range] at hc
  rw [List.getElem_map, List.getElem_range]
  by_cases hck : c < k
  · rw [scatter_frame _ _ _ hsorted _ (by intro r t _ h; simp only [Prod.mk.injEq] at h; omega),
      if_pos hck, List.getElem?_eq_getElem (by omega), Option.getD_some,
      List.getElem_append_left (by simp; omega), List.getElem_append_left (by omega)]
  · by_cases hcv : c - k < (valuesOf row cands).length
    · have hread := scatter_read (fun r slot => (r, k + slot)) cands
        (fun cell => if cell.2 < k then old[cell.2]?.getD padEntry else padEntry) hsorted hinj row
        (c - k) _ (List.getElem?_eq_getElem hcv)
      rw [show k + (c - k) = c by omega] at hread
      rw [hread, List.getElem_append_left (by simp; omega),
        List.getElem_append_right (by omega)]
      simp only [hold]
    · rw [scatter_frame _ _ _ hsorted _ (by
          intro r t ht h
          simp only [Prod.mk.injEq] at h
          obtain ⟨rfl, h⟩ := h
          omega), if_neg hck,
        List.getElem_append_right (by simp; omega), List.getElem_replicate]

theorem merge_row (part : Partition (Entry α)) (k : ℕ) (state : TopKState α) (rows : List ℕ)
    (cands : List (ℕ × Entry α)) (hsorted : (cands.map Prod.fst).Pairwise (· ≤ ·)) (r : ℕ)
    (hr : r ∈ rows) (hold : (state.lists r).length = k) :
    ∃ pads, (merge part k state rows cands).lists r =
        (part.run k (state.lists r ++ valuesOf (rows.idxOf r) cands ++
          List.replicate pads padEntry)).map unpad ∧
      (merge part k state rows cands).thresholds r =
        listThreshold ((merge part k state rows cands).lists r) := by
  have hidx : rows.idxOf r < rows.length := List.idxOf_lt_length_iff.mpr hr
  have hwidth : (valuesOf (rows.idxOf r) cands).length ≤
      ((List.range rows.length).map fun q => (cands.map Prod.fst).count q).foldr max 0 := by
    rw [length_valuesOf]
    exact List.le_max_of_le' 0
      (List.mem_map.mpr ⟨rows.idxOf r, List.mem_range.mpr hidx, rfl⟩) le_rfl
  refine ⟨((List.range rows.length).map fun q => (cands.map Prod.fst).count q).foldr max 0 -
    (valuesOf (rows.idxOf r) cands).length, ?_, ?_⟩
  · simp only [merge, if_pos hr]
    rw [paddedRow_eq k _ _ _ _ hold hsorted hwidth]
  · simp only [merge, if_pos hr]

/-- A selection from a running list, new real entries and padding is the running list of the
union. -/
theorem selection_rowList (part : Partition (Entry α)) (k pads : ℕ) (old new : List (Entry α))
    (E K : Finset (Entry α)) (hE : ∀ e ∈ E, IsReal e) (hK : ∀ e ∈ K, IsReal e)
    (hdisj : Disjoint E K) (hold : (old : Multiset (Entry α)) = rowList k E)
    (hnew : (new : Multiset (Entry α)) = K.val) :
    (((part.run k (old ++ new ++ List.replicate pads padEntry)).map unpad : List (Entry α)) :
      Multiset (Entry α)) = rowList k (E ∪ K) := by
  have hdisj' : Disjoint (kBest k E) K := Finset.disjoint_of_subset_left (kBest_subset k E) hdisj
  have hR : ∀ e ∈ kBest k E ∪ K, IsReal e := by
    intro e he
    rcases Finset.mem_union.mp he with he | he
    · exact hE e (kBest_subset k E he)
    · exact hK e he
  -- what the selection fills up with: the unfilled slots of the old list, and the padding
  let fill : List (Entry α) :=
    List.replicate (k - E.card) emptyEntry ++ List.replicate pads padEntry
  have hfill : ∀ f ∈ fill, unpad f = emptyEntry ∧ f.score = negInf := by
    intro f hf
    rcases List.mem_append.mp hf with hf | hf <;> obtain rfl := List.eq_of_mem_replicate hf
    · exact ⟨unpad_emptyEntry, rfl⟩
    · exact ⟨unpad_padEntry, rfl⟩
  have hl : ((old ++ new ++ List.replicate pads padEntry : List (Entry α)) : Multiset (Entry α)) =
      (kBest k E ∪ K).val + (fill : Multiset (Entry α)) := by
    rw [← Multiset.coe_add, ← Multiset.coe_add, hold, hnew, rowList,
      ← Finset.disjUnion_eq_union _ _ hdisj', Finset.disjUnion_val, ← Multiset.coe_add]
    simp only [Multiset.coe_replicate]
    abel
  have hsel := selection_fill (part.selects k _) hl fun r hr f hf =>
    isReal_lt (hR r hr) (hfill f hf).2
  have hcardR : (kBest k E ∪ K).card = min k E.card + K.card := by
    rw [Finset.card_union_of_disjoint hdisj', card_kBest]
  have hcardEK : (E ∪ K).card = E.card + K.card := Finset.card_union_of_disjoint hdisj
  have htake : (((fill.mergeSort (· ≤ ·)).take (k - (kBest k E ∪ K).card)).map unpad :
      List (Entry α)) = List.replicate (k - (E ∪ K).card) emptyEntry := by
    refine List.eq_replicate_iff.mpr ⟨?_, ?_⟩
    · rw [List.length_map, List.length_take, List.length_mergeSort, List.length_append,
        List.length_replicate, List.length_replicate]
      omega
    · intro e he
      obtain ⟨f, hf, rfl⟩ := List.mem_map.mp he
      exact (hfill f (List.mem_mergeSort.mp (List.mem_of_mem_take hf))).1
  rw [← Multiset.map_coe, hsel, Multiset.map_add, Multiset.map_coe, htake, kBest_kBest_union,
    rowList, Multiset.coe_replicate]
  congr 1
  refine (Multiset.map_congr rfl fun e he => ?_).trans (Multiset.map_id _)
  have hmem : e ∈ E ∪ K := kBest_subset k _ he
  rcases Finset.mem_union.mp hmem with he | he
  · exact unpad_isReal (hE e he)
  · exact unpad_isReal (hK e he)

/-! ### Thresholds -/

/-- A threshold above the floor is reached by `k` entries of the row. -/
theorem listThreshold_covers {k : ℕ} {l : List (Entry α)} {E : Finset (Entry α)}
    (hl : (l : Multiset (Entry α)) = rowList k E) (h : listThreshold l ≠ floor) :
    k ≤ (E.filter fun e => listThreshold l ≤ e.score).card := by
  have hmin : listThreshold l = (l.map Entry.score).foldr min posInf := by
    rw [listThreshold] at h ⊢
    rcases max_choice ((l.map Entry.score).foldr min posInf) floor with hm | hm
    · exact hm
    · exact absurd hm h
  have hfloor : floor < listThreshold l := lt_of_le_of_ne (le_max_right _ _) h.symm
  have hmem : ∀ e : Entry α, e ∈ rowList k E → listThreshold l ≤ e.score := by
    intro e he
    rw [← hl, Multiset.mem_coe] at he
    rw [hmin]
    exact List.min_le_of_le' posInf (List.mem_map_of_mem he) le_rfl
  have hfull : k - E.card = 0 := by
    by_contra hne
    have he : (emptyEntry : Entry α) ∈ rowList k E :=
      Multiset.mem_add.mpr (Or.inr (Multiset.mem_replicate.mpr ⟨hne, rfl⟩))
    exact absurd (hfloor.trans_le (hmem _ he)) (not_lt_of_gt negInf_lt_floor)
  have hsub : kBest k E ⊆ E.filter fun e => listThreshold l ≤ e.score := by
    intro e he
    exact Finset.mem_filter.mpr ⟨kBest_subset k E he, hmem e (Multiset.mem_add.mpr (Or.inl he))⟩
  have hcard := Finset.card_le_card hsub
  rw [card_kBest] at hcard
  omega

end AnalyticsEngine.ExactTopK
