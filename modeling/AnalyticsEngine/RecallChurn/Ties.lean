import AnalyticsEngine.RecallChurn.Sweep
import Mathlib.Tactic.Linarith

/-!
# Recall up to ties (scripts/measure_recall_churn.py)

Which of several equal scores the exact computation takes is up to NumPy, and so the strict recall
is too. The recall up to ties is not (`measureRecall_ties`).
-/

namespace AnalyticsEngine.RecallChurn
open Library

variable {β V ι : Type*} [DecidableEq ι]

/-! ### One query -/

section
variable {score : V → V → ℚ} {row : ℕ → V} {position : ι → Option ℕ} {k query : ℕ}
  {ann exact : List ι} {kth : WithBot ℚ}

theorem overlap_nonneg : 0 ≤ overlap k ann exact := by
  unfold overlap
  positivity

theorem overlap_le_tieOverlap :
    overlap k ann exact ≤ tieOverlap score row position k ann exact kth query := by
  have hsub : (ann.take k).toFinset ∩ (exact.take k).toFinset ⊆
      ((ann.take k).filter fun id => id ∈ exact.take k).toFinset := by
    intro id hid
    rw [Finset.mem_inter, List.mem_toFinset, List.mem_toFinset] at hid
    rw [List.mem_toFinset, List.mem_filter]
    exact ⟨hid.1, decide_eq_true hid.2⟩
  have hcount : ((ann.take k).toFinset ∩ (exact.take k).toFinset).card ≤
      (ann.take k).countP (closeEnough score row position (exact.take k) kth query) := by
    calc ((ann.take k).toFinset ∩ (exact.take k).toFinset).card
        ≤ ((ann.take k).filter fun id => id ∈ exact.take k).length :=
          (Finset.card_le_card hsub).trans (List.toFinset_card_le _)
      _ = (ann.take k).countP fun id => id ∈ exact.take k := List.countP_eq_length_filter.symm
      _ ≤ _ := by
          apply List.countP_mono_left
          intro id _ hid
          unfold closeEnough
          rw [hid]
          rfl
  unfold overlap tieOverlap
  exact div_le_div_of_nonneg_right (Nat.cast_le.mpr hcount) (Nat.cast_nonneg _)

theorem tieOverlap_le_one (hexact : exact.length = k) :
    tieOverlap score row position k ann exact kth query ≤ 1 := by
  have hcount : (ann.take k).countP (closeEnough score row position (exact.take k) kth query) ≤ k :=
    List.countP_le_length.trans (List.length_take_le k ann)
  unfold tieOverlap
  rw [hexact, min_self]
  exact div_le_one_of_le₀ (Nat.cast_le.mpr hcount) (Nat.cast_nonneg _)

end

/-! ### Enough artists -/

/-- The index answers with the nearest rows, its own among them, in any order of equal ones. -/
def Index.Exact (index : Index ι V) (s : ℕ → ℕ → ℚ) (vector : ℕ → V) (ids : List ι)
    (n efSearch q : ℕ) : Prop :=
  ∃ rows : List ℕ, TopBy (fun c => s c q) 11 (List.range n) rows ∧
    rows.Pairwise (fun a b => s b q ≤ s a q) ∧
    index efSearch (vector q) 11 = rows.filterMap fun c => ids[c]?

theorem tolerance_le (kth : WithBot ℚ) : kth.map (· - TIE_TOLERANCE) ≤ kth := by
  cases kth with
  | bot => exact le_refl _
  | coe x =>
    have hle : x - TIE_TOLERANCE ≤ x := sub_le_self x (by unfold TIE_TOLERANCE; positivity)
    exact WithBot.coe_le_coe.mpr hle

section
variable {score : V → V → ℚ} {vector : ℕ → V} {ids : List ι} {n q : ℕ} {d : ι}
  {top top' : List (Entry ℚ)}

omit [DecidableEq ι] in
theorem idAt_natCast (ids : List ι) (d : ι) (c : ℕ) : idAt ids d (c : ℤ) = ids.getD c d := by
  unfold idAt
  rw [if_neg (by omega), Int.toNat_natCast]

theorem idToPosition_name (hnodup : ids.Nodup) (hids : ids.length = n) {c : ℕ} (hc : c < n) :
    idToPosition ids (ids.getD c d) = some c := by
  apply idToPosition_of_get hnodup
  rw [List.getElem?_eq_getElem (by omega), List.getD_eq_getElem]

/-- With the exact neighbours known, a candidate counts exactly if its score is near the last. -/
theorem closeEnough_iff (hnodup : ids.Nodup) (hids : ids.length = n)
    (htop : top ⊆ others (fun c q => score (vector c) (vector q)) n q)
    (hsorted : top.Pairwise fun a b => b.score ≤ a.score) (candidate : ι) :
    closeEnough score vector (idToPosition ids) (((top.map Entry.position).map (idAt ids d)).take 10)
        (kthScore top) q candidate =
      (idToPosition ids candidate).any fun p =>
        decide ((kthScore top).map (· - TIE_TOLERANCE) ≤ score (vector p) (vector q)) := by
  unfold closeEnough
  by_cases hmem : candidate ∈ ((top.map Entry.position).map (idAt ids d)).take 10
  · obtain ⟨p, hp, rfl⟩ := List.mem_map.mp (List.mem_of_mem_take hmem)
    obtain ⟨e, he, rfl⟩ := List.mem_map.mp hp
    have hle := (tolerance_le (kthScore top)).trans (kthScore_le hsorted he)
    obtain ⟨c, hc, _, rfl⟩ := mem_others.mp (htop he)
    dsimp only at hmem hle ⊢
    rw [idAt_natCast] at hmem ⊢
    rw [idToPosition_name hnodup hids hc, Option.any_some, decide_eq_true hle, Bool.or_true]
  · rw [decide_eq_false hmem, Bool.false_or]

theorem tieOverlap_choice (hnodup : ids.Nodup) (hids : ids.length = n)
    (htop : TopBy Entry.score 10 (others (fun c q => score (vector c) (vector q)) n q) top)
    (htop' : TopBy Entry.score 10 (others (fun c q => score (vector c) (vector q)) n q) top')
    (hsorted : top.Pairwise fun a b => b.score ≤ a.score)
    (hsorted' : top'.Pairwise fun a b => b.score ≤ a.score) (ann : List ι) (d d' : ι) :
    tieOverlap score vector (idToPosition ids) 10 ann ((top.map Entry.position).map (idAt ids d))
        (kthScore top) q =
      tieOverlap score vector (idToPosition ids) 10 ann ((top'.map Entry.position).map (idAt ids d'))
        (kthScore top') q := by
  have hkth := (nearest_agree htop htop' hsorted hsorted').1
  have hlength : top.length = top'.length := by rw [htop.length, htop'.length]
  have hcount : (ann.take 10).countP (closeEnough score vector (idToPosition ids)
        (((top.map Entry.position).map (idAt ids d)).take 10) (kthScore top) q) =
      (ann.take 10).countP (closeEnough score vector (idToPosition ids)
        (((top'.map Entry.position).map (idAt ids d')).take 10) (kthScore top') q) := by
    apply List.countP_congr
    intro candidate _
    rw [closeEnough_iff hnodup hids htop.subset hsorted,
      closeEnough_iff hnodup hids htop'.subset hsorted', hkth]
  unfold tieOverlap
  rw [hcount, List.length_map, List.length_map, List.length_map, List.length_map, hlength]

/-- Of `k` entries chosen by score none scores less than the last of another such choice. -/
theorem kthScore_le_choice {s : ℕ → ℕ → ℚ} {k : ℕ} (hk : k < n) (hq : q < n)
    (htop : TopBy Entry.score k (others s n q) top)
    (hsorted : top.Pairwise fun a b => b.score ≤ a.score) {chosen : List ℕ}
    (hchosen : TopBy (fun c => s c q) k ((List.range n).filter (· ≠ q)) chosen) {c : ℕ}
    (hc : c ∈ chosen) : kthScore top ≤ s c q := by
  by_contra hlt
  have hpositions : (top.map fun e => e.position.toNat) ⊆ (List.range n).filter (· ≠ q) := by
    intro p hp
    obtain ⟨e, he, rfl⟩ := List.mem_map.mp hp
    obtain ⟨c, hc, hcq, rfl⟩ := mem_others.mp (htop.subset he)
    rw [List.mem_filter, List.mem_range]
    exact ⟨hc, decide_eq_true hcq⟩
  have hnodup : (top.map fun e => e.position.toNat).Nodup := by
    have hentries := htop.nodup others_nodup.of_map
    refine hentries.map_on ?_
    intro a ha b hb hab
    obtain ⟨i, _, _, rfl⟩ := mem_others.mp (htop.subset ha)
    obtain ⟨j, _, _, rfl⟩ := mem_others.mp (htop.subset hb)
    have hij : i = j := hab
    rw [hij]
  have hcrowd := hchosen.not_crowded hc (hnodup.subperm hpositions) (by
    intro p hp
    obtain ⟨e, he, rfl⟩ := List.mem_map.mp hp
    have hscore := kthScore_le hsorted he
    rw [entry_others (htop.subset he)] at hscore
    exact WithBot.coe_lt_coe.mp ((not_le.mp hlt).trans_le hscore))
  rw [List.length_map, htop.length, others_length hq] at hcrowd
  omega

/-- An index that is exact at a value loses nothing up to ties. -/
theorem tieOverlap_exact {index : Index ι V} {ef : ℕ} (hnodup : ids.Nodup) (hids : ids.length = n)
    (hmany : 10 < n) (hq : q < n)
    (htop : TopBy Entry.score 10 (others (fun c q => score (vector c) (vector q)) n q) top)
    (hsorted : top.Pairwise fun a b => b.score ≤ a.score)
    (hexact : index.Exact (fun c q => score (vector c) (vector q)) vector ids n ef q) :
    tieOverlap score vector (idToPosition ids) 10 (annIds index vector ids ef 10 q)
      ((top.map Entry.position).map (idAt ids d)) (kthScore top) q = 1 := by
  obtain ⟨rows, hrows, hrowsSorted, hanswer⟩ := hexact
  have hchosen := hrows.without List.nodup_range hrowsSorted (List.mem_range.mpr hq)
  generalize hchoice : (rows.filter (· ≠ q)).take 10 = chosen at hchosen
  have hlt : ∀ c ∈ rows, c < ids.length := by
    intro c hc
    rw [hids]
    exact List.mem_range.mp (hrows.subset hc)
  have hname : ∀ c ∈ rows, ids[c]? = some (ids.getD c d) := by
    intro c hc
    rw [List.getElem?_eq_getElem (hlt c hc), List.getD_eq_getElem _ _ (hlt c hc)]
  have hann : annIds index vector ids ef 10 q = chosen.map fun c => ids.getD c d := by
    unfold annIds
    rw [hanswer, List.filterMap_congr hname, ← hchoice, List.map_take]
    have hmap : rows.filterMap (fun c => some (ids.getD c d)) = rows.map fun c => ids.getD c d := by
      simp
    rw [hmap, List.filter_map]
    congr 2
    apply List.filter_congr
    intro c hc
    have hqlt : q < ids.length := by omega
    rw [Function.comp_apply, ← hname c hc, List.getElem?_eq_getElem (hlt c hc),
      List.getElem?_eq_getElem hqlt]
    simp only [ne_eq, Option.some.injEq, hnodup.getElem_inj_iff]
  have hcount : chosen.length = 10 := by
    have hothers := others_length (s := fun c q => score (vector c) (vector q)) hq
    rw [others, List.length_map] at hothers
    rw [hchosen.length, hothers]
    omega
  have hlength : top.length = 10 := by
    rw [htop.length, others_length hq]
    omega
  have hall : ∀ id ∈ chosen.map (fun c => ids.getD c d),
      closeEnough score vector (idToPosition ids)
        (((top.map Entry.position).map (idAt ids d)).take 10) (kthScore top) q id = true := by
    intro id hid
    obtain ⟨c, hc, rfl⟩ := List.mem_map.mp hid
    have hcn : c < n := List.mem_range.mp (List.mem_of_mem_filter (hchosen.subset hc))
    have hscore := kthScore_le_choice hmany hq htop hsorted hchosen hc
    rw [closeEnough_iff hnodup hids htop.subset hsorted, idToPosition_name hnodup hids hcn,
      Option.any_some]
    exact decide_eq_true ((tolerance_le _).trans hscore)
  have htake : (chosen.map fun c => ids.getD c d).take 10 = chosen.map fun c => ids.getD c d :=
    List.take_of_length_le (by rw [List.length_map, hcount])
  unfold tieOverlap
  rw [hann, htake, List.countP_eq_length.mpr hall]
  simp only [List.length_map, hcount, hlength, min_self]
  exact div_self (by positivity)

end

/-! ### Whole runs -/

section
variable {month : Month ι β} {n nCols : ℕ} {queries : List ℕ}

/-- What a sweep reports up to ties. -/
def Sweep.upToTies (sweep : Sweep) : List (ℕ × ℚ × Option (List (String × ℕ × ℚ))) :=
  sweep.points.map fun point => (point.efSearch, point.recallTieTolerant,
    point.byDegreeBucket.map fun buckets =>
      buckets.map fun bucket => (bucket.label, bucket.n, bucket.recallTieTolerant))

theorem upToTies_congr {score : V → V → ℚ} {vector : ℕ → V} {exact exact' : ℕ → List ι}
    {kth kth' : ℕ → WithBot ℚ}
    (h : ∀ q ∈ queries, ∀ ann,
      tieOverlap score vector (idToPosition month.artistIds) 10 ann (exact q) (kth q) q =
      tieOverlap score vector (idToPosition month.artistIds) 10 ann (exact' q) (kth' q) q)
    (index : Index ι V) :
    (sweepOf score vector month queries exact kth index).upToTies =
      (sweepOf score vector month queries exact' kth' index).upToTies := by
  unfold Sweep.upToTies sweepOf
  dsimp only
  rw [List.map_map, List.map_map]
  apply List.map_congr_left
  intro ef _
  have hmean : ∀ l ⊆ queries,
      mean (l.map fun q => tieOverlap score vector (idToPosition month.artistIds) 10
        (annIds index vector month.artistIds ef 10 q) (exact q) (kth q) q) =
      mean (l.map fun q => tieOverlap score vector (idToPosition month.artistIds) 10
        (annIds index vector month.artistIds ef 10 q) (exact' q) (kth' q) q) := by
    intro l hl
    congr 1
    apply List.map_congr_left
    intro q hq
    exact h q (hl hq) _
  unfold pointOf
  dsimp only [Function.comp_apply]
  rw [hmean queries (List.Subset.refl _), Option.map_map, Option.map_map]
  congr 3
  funext degrees
  dsimp only [Function.comp_apply]
  rw [List.map_map, List.map_map]
  apply List.map_congr_left
  intro label _
  unfold bucketReport
  dsimp only [Function.comp_apply]
  rw [hmean (bucketQueries _ queries label) fun q hq => List.mem_of_mem_filter hq]

/-- The recall up to ties is the same however equal scores are chosen from; it is never below the
strict one nor above 1, and an index that is exact at a value scores 1 there. -/
theorem measureRecall_ties (normalize : List β → V) (score : V → V → ℚ)
    (hmonth : month.Loaded n nCols) (hmany : 10 < n) (hne : queries ≠ [])
    (hrange : ∀ q ∈ queries, q < n) (numpy numpy' : Numpy ℚ) (variants : List (Index ι V)) :
    ∃ (sweeps sweeps' : List Sweep) (last last' : ExactGroundTruth ι V),
      measureRecall numpy normalize score month queries variants = .ok (sweeps, last) ∧
      measureRecall numpy' normalize score month queries variants = .ok (sweeps', last') ∧
      sweeps.map Sweep.upToTies = sweeps'.map Sweep.upToTies ∧
      List.Forall₂ (fun index sweep => ∀ point ∈ sweep.points,
        0 ≤ point.recallStrict ∧ point.recallStrict ≤ point.recallTieTolerant ∧
        point.recallTieTolerant ≤ 1 ∧
        ((∀ q ∈ queries, index.Exact (month.scores normalize score nCols)
            (month.vector normalize nCols) month.artistIds n point.efSearch q) →
          point.recallTieTolerant = 1)) variants sweeps := by
  obtain ⟨top, d, _, last, _, _, hmeasure, _, _, _, htop⟩ :=
    measureRecall_ok normalize score hmonth hne hrange numpy variants
  obtain ⟨top', d', _, last', _, _, hmeasure', _, _, _, htop'⟩ :=
    measureRecall_ok normalize score hmonth hne hrange numpy' variants
  have hroom : ∀ q ∈ queries, 10 ≤ (others (month.scores normalize score nCols) n q).length := by
    intro q hq
    rw [others_length (hrange q hq)]
    omega
  have hchoice : ∀ q (hq : q ∈ queries), TopBy Entry.score 10
      (others (month.scores normalize score nCols) n q) (top q) :=
    fun q hq => (htop q hq).1.of_append (hroom q hq) behind_others
  have hchoice' : ∀ q (hq : q ∈ queries), TopBy Entry.score 10
      (others (month.scores normalize score nCols) n q) (top' q) :=
    fun q hq => (htop' q hq).1.of_append (hroom q hq) behind_others
  have hlength : ∀ q ∈ queries,
      (((top q).map Entry.position).map (idAt month.artistIds d)).length = 10 := by
    intro q hq
    rw [List.length_map, List.length_map, (hchoice q hq).length, min_eq_left (hroom q hq)]
  refine ⟨_, _, last, last', hmeasure, hmeasure', ?_, ?_⟩
  · rw [List.map_map, List.map_map]
    apply List.map_congr_left
    intro index _
    apply upToTies_congr
    intro q hq ann
    exact tieOverlap_choice hmonth.nodup hmonth.ids (hchoice q hq) (hchoice' q hq) (htop q hq).2
      (htop' q hq).2 ann d d'
  · rw [List.forall₂_map_right_iff, List.forall₂_same]
    intro index _ point hpoint
    obtain ⟨ef, _, rfl⟩ := List.mem_map.mp hpoint
    unfold pointOf
    dsimp only
    refine ⟨?_, ?_, ?_, ?_⟩
    · rw [← mean_const hne 0]
      exact mean_le_mean fun q _ => overlap_nonneg
    · exact mean_le_mean fun q _ => overlap_le_tieOverlap
    · rw [← mean_const hne 1]
      exact mean_le_mean fun q hq => tieOverlap_le_one (hlength q hq)
    · intro hexact
      rw [← mean_const hne 1]
      congr 1
      apply List.map_congr_left
      intro q hq
      exact tieOverlap_exact hmonth.nodup hmonth.ids hmany (hrange q hq) (hchoice q hq) (htop q hq).2
        (hexact q hq)

omit [DecidableEq ι] in
theorem idAt_mem {ids : List ι} {d : ι} (hd : d ∈ ids) (p : ℤ) : idAt ids d p ∈ ids := by
  unfold idAt
  rw [List.getD_eq_getElem?_getD]
  cases hget : ids[(if p < 0 then ids.length + p else p).toNat]? with
  | none => exact hd
  | some id => exact List.mem_of_getElem? hget

/-- With at most ten artists some of the ten expected neighbours are fillers, so that no index is
ever found good enough. -/
theorem measureRecall_few (normalize : List β → V) (score : V → V → ℚ)
    (hmonth : month.Loaded n nCols) (hfew : n ≤ 10) (hne : queries ≠ [])
    (hrange : ∀ q ∈ queries, q < n) (numpy : Numpy ℚ) (variants : List (Index ι V)) :
    ∃ (sweeps : List Sweep) (last : ExactGroundTruth ι V),
      measureRecall numpy normalize score month queries variants = .ok (sweeps, last) ∧
      ∀ sweep ∈ sweeps, sweep.productionEfSearch = none ∧
        ∀ point ∈ sweep.points, point.recallStrict ≤ (n - 1 : ℕ) / 10 := by
  obtain ⟨top, d, _, last, hd, _, hmeasure, _, _, _, htop⟩ :=
    measureRecall_ok normalize score hmonth hne hrange numpy variants
  refine ⟨_, last, hmeasure, ?_⟩
  intro sweep hsweep
  obtain ⟨index, _, rfl⟩ := List.mem_map.mp hsweep
  have hone : ∀ ef, ∀ q ∈ queries, overlap 10
      (annIds index (month.vector normalize nCols) month.artistIds ef 10 q)
      (((top q).map Entry.position).map (idAt month.artistIds d)) ≤ (n - 1 : ℕ) / 10 := by
    intro ef q hq
    have hlt : q < month.artistIds.length := by
      rw [hmonth.ids]
      exact hrange q hq
    have hlength : (((top q).map Entry.position).map (idAt month.artistIds d)).length = 10 := by
      rw [List.length_map, List.length_map, (htop q hq).1.length]
      simp only [List.length_append, List.length_cons, List.length_replicate]
      omega
    have hsub : ((annIds index (month.vector normalize nCols) month.artistIds ef 10 q).take 10).toFinset ∩
        ((((top q).map Entry.position).map (idAt month.artistIds d)).take 10).toFinset ⊆
          month.artistIds.toFinset.erase month.artistIds[q] := by
      intro id hid
      rw [Finset.mem_inter, List.mem_toFinset, List.mem_toFinset, annIds_take] at hid
      obtain ⟨hann, hexact⟩ := hid
      obtain ⟨p, _, rfl⟩ := List.mem_map.mp (List.mem_of_mem_take hexact)
      have hown := of_decide_eq_true (List.mem_filter.mp (List.mem_of_mem_take hann)).2
      rw [List.getElem?_eq_getElem hlt] at hown
      rw [Finset.mem_erase, List.mem_toFinset]
      exact ⟨fun h => hown (congrArg some h), idAt_mem hd p⟩
    have hcard := Finset.card_le_card hsub
    rw [Finset.card_erase_of_mem (List.mem_toFinset.mpr (List.getElem_mem hlt)),
      List.toFinset_card_of_nodup hmonth.nodup, hmonth.ids] at hcard
    unfold overlap
    rw [hlength, min_self]
    exact div_le_div_of_nonneg_right (Nat.cast_le.mpr hcard) (Nat.cast_nonneg _)
  have hrecall : ∀ ef, (pointOf score index (month.vector normalize nCols) month queries
      (fun q => ((top q).map Entry.position).map (idAt month.artistIds d))
      (fun q => kthScore (top q)) ef).recallStrict ≤ (n - 1 : ℕ) / 10 := by
    intro ef
    unfold pointOf
    rw [← mean_const hne (((n - 1 : ℕ) : ℚ) / 10)]
    exact mean_le_mean (hone ef)
  have hbelow : ((n - 1 : ℕ) : ℚ) / 10 < RECALL_TARGET := by
    have hnine : ((n - 1 : ℕ) : ℚ) ≤ 9 := by exact_mod_cast (by omega : n - 1 ≤ 9)
    unfold RECALL_TARGET
    linarith
  constructor
  · unfold sweepOf
    dsimp only
    rw [List.find?_eq_none]
    intro ef _ htarget
    exact absurd (of_decide_eq_true htarget) (not_le.mpr ((hrecall ef).trans_lt hbelow))
  · intro point hpoint
    obtain ⟨ef, _, rfl⟩ := List.mem_map.mp hpoint
    exact hrecall ef

end

theorem measureRecall_few_threeArtists : ∃ sweeps last,
    measureRecall .stable id ratDot threeArtists [0, 2] [listed [8, 9]] = .ok (sweeps, last) ∧
      ∀ sweep ∈ sweeps, sweep.productionEfSearch = none := by
  obtain ⟨sweeps, last, hmeasure, hfew⟩ := measureRecall_few id ratDot threeArtists_loaded (by decide)
    (List.cons_ne_nil 0 [2]) (by decide) .stable [listed [8, 9]]
  exact ⟨sweeps, last, hmeasure, fun sweep hsweep => (hfew sweep hsweep).1⟩

/- One column, one byte for each value, the larger ones nearer to each other. -/
def elevenRows : Member ℤ := ⟨1, false, [11, 1], 1, [1, 2, 3, 4, 5, 6, 7, 8, 9, 10, 11]⟩

def elevenArtists : Month ℕ ℤ := ⟨elevenRows, List.range 11, none⟩

theorem elevenArtists_loaded : elevenArtists.Loaded 11 1 :=
  ⟨⟨Or.inl rfl, rfl, rfl, by decide⟩, Nat.le_refl 11, rfl, List.nodup_range, fun _ hd => by cases hd⟩

/- The artists from the last one on, which is the order of the scores for every query. -/
def fromTheLast : List ℕ := (List.range 11).reverse

theorem fromTheLast_exact (efSearch : ℕ) {q : ℕ} (hq : q ∈ [10, 4]) :
    (listed fromTheLast).Exact (elevenArtists.scores id ratDot 1) (elevenArtists.vector id 1)
      elevenArtists.artistIds 11 efSearch q := by
  refine ⟨fromTheLast, ⟨[], by decide, by decide, nofun⟩, ?_, rfl⟩
  rcases List.mem_pair.mp hq with rfl | rfl <;> decide +kernel

theorem measureRecall_ties_elevenArtists : ∃ sweeps last,
    measureRecall .stable id ratDot elevenArtists [10, 4] [listed fromTheLast] = .ok (sweeps, last) ∧
      ∀ sweep ∈ sweeps, ∀ point ∈ sweep.points,
        point.recallStrict ≤ 1 ∧ point.recallTieTolerant = 1 := by
  obtain ⟨sweeps, _, last, _, hmeasure, _, _, hforall⟩ := measureRecall_ties id ratDot
    elevenArtists_loaded (by decide) (List.cons_ne_nil 10 [4]) (by decide) .stable .stable
    [listed fromTheLast]
  refine ⟨sweeps, last, hmeasure, ?_⟩
  obtain ⟨sweep, rest, hsweep, hrest, rfl⟩ := List.forall₂_cons_left_iff.mp hforall
  rw [List.forall₂_nil_left_iff.mp hrest]
  intro sweep' hsweep' point hpoint
  rw [List.mem_singleton.mp hsweep'] at hpoint
  obtain ⟨_, hle, hone, hexact⟩ := hsweep point hpoint
  exact ⟨hle.trans hone, hexact fun q hq => fromTheLast_exact point.efSearch hq⟩

end AnalyticsEngine.RecallChurn
