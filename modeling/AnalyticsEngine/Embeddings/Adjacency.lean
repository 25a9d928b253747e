import AnalyticsEngine.Embeddings.Edges
import AnalyticsEngine.Embeddings.Exact

/-!
# insights/embeddings/graph.py: what `build` returns

`writtenSlots` lists the places of the index array that the calls of `_scatter` write, in order. The
cursor of a row never leaves the row, so no place comes up twice, and there are as many places as
entries.
-/

namespace AnalyticsEngine.Embeddings
open Library

variable {F D O : Type*}

/- The writes of one call of `_scatter` to `indices`. -/
def scatterWrites (slots : Slots) (entries : List (ℕ × ℕ)) : List (ℕ × ℕ) :=
  let ordered := entries.insertionSort fun e f => e.1 ≤ f.1
  (slotted (runStart (ordered.map Prod.fst)) 0 ordered).map fun w =>
    (slots.cursor w.1.1 + w.1.2, w.2)

def writtenSlots : Slots → List (List (ℕ × ℕ)) → List ℕ
  | _, [] => []
  | slots, entries :: later =>
    (scatterWrites slots entries).map Prod.fst ++ writtenSlots (scatterEntries slots entries) later

theorem scatterEntries_cursor (slots : Slots) (entries : List (ℕ × ℕ)) (r : ℕ) :
    (scatterEntries slots entries).cursor r = slots.cursor r + (valuesOf r entries).length := by
  obtain ⟨hperm, _⟩ := sortedEntries_spec entries
  rw [← (valuesOf_perm hperm r).length_eq, length_valuesOf]
  rfl

theorem mem_scatterWrites {slots : Slots} {entries : List (ℕ × ℕ)} {a : ℕ}
    (h : a ∈ (scatterWrites slots entries).map Prod.fst) :
    ∃ r t, t < (valuesOf r entries).length ∧ a = slots.cursor r + t := by
  obtain ⟨hperm, hsorted⟩ := sortedEntries_spec entries
  unfold scatterWrites at h
  simp only at h
  rw [slotted_zero _ hsorted, List.map_map, List.mem_map] at h
  obtain ⟨⟨⟨r, t⟩, v⟩, hw, rfl⟩ := h
  have hlt := (List.getElem?_eq_some_iff.mp ((mem_ranked_zero _ r t v).mp hw)).1
  exact ⟨r, t, (valuesOf_perm hperm r).length_eq ▸ hlt, rfl⟩

theorem length_slotted {α : Type*} (starts : ℕ → ℕ) (i : ℕ) (l : List (ℕ × α)) :
    (slotted starts i l).length = l.length := by
  induction l generalizing i with
  | nil => rfl
  | cons e l ih => rw [slotted, List.length_cons, ih, List.length_cons]

theorem length_writtenSlots (slots : Slots) (batches : List (List (ℕ × ℕ))) :
    (writtenSlots slots batches).length = batches.flatten.length := by
  induction batches generalizing slots with
  | nil => rfl
  | cons entries later ih =>
    have hlength : (scatterWrites slots entries).length = entries.length := by
      unfold scatterWrites
      rw [List.length_map, length_slotted]
      exact (List.perm_insertionSort _ _).length_eq
    rw [writtenSlots, List.length_append, List.length_map, hlength, ih, List.flatten_cons,
      List.length_append]

/-- No slot is written twice, and each lies in the part of a row that the cursor has yet to pass. -/
theorem writtenSlots_spec {starts : ℕ → ℕ} (slots : Slots) {batches : List (List (ℕ × ℕ))}
    (hcursor : ∀ r, starts r ≤ slots.cursor r)
    (hroom : ∀ r, slots.cursor r + (valuesOf r batches.flatten).length ≤ starts (r + 1)) :
    (writtenSlots slots batches).Nodup ∧ ∀ a ∈ writtenSlots slots batches,
      ∃ r t, t < (valuesOf r batches.flatten).length ∧ a = slots.cursor r + t := by
  have hmono : ∀ r, starts r ≤ starts (r + 1) := fun r =>
    (hcursor r).trans ((Nat.le_add_right _ _).trans (hroom r))
  induction batches generalizing slots with
  | nil => exact ⟨List.nodup_nil, fun a ha => by cases ha⟩
  | cons entries later ih =>
    have hsplit : ∀ r, (valuesOf r (entries :: later).flatten).length =
        (valuesOf r entries).length + (valuesOf r later.flatten).length := by
      intro r
      rw [List.flatten_cons, valuesOf_append, List.length_append]
    have hnext := scatterEntries_cursor slots entries
    have hcursor' : ∀ r, starts r ≤ (scatterEntries slots entries).cursor r := by
      intro r
      rw [hnext]
      exact (hcursor r).trans (Nat.le_add_right _ _)
    have hroom' : ∀ r, (scatterEntries slots entries).cursor r +
        (valuesOf r later.flatten).length ≤ starts (r + 1) := by
      intro r
      have hr := hroom r
      rw [hsplit] at hr
      rw [hnext]
      omega
    obtain ⟨hnodup, hlater⟩ := ih _ hcursor' hroom'
    have hfirst : ((scatterWrites slots entries).map Prod.fst).Nodup := by
      obtain ⟨hperm, hsorted⟩ := sortedEntries_spec entries
      unfold scatterWrites
      simp only
      rw [slotted_zero _ hsorted]
      apply nodup_addresses (fun r t => slots.cursor r + t)
      apply addrInj_of_room hcursor
      intro r
      have hr := hroom r
      rw [hsplit] at hr
      rw [(valuesOf_perm hperm r).length_eq]
      omega
    constructor
    · rw [writtenSlots]
      apply List.Nodup.append hfirst hnodup
      intro a hnow hafter
      obtain ⟨r, t, ht, rfl⟩ := mem_scatterWrites hnow
      obtain ⟨r', t', ht', heq⟩ := hlater _ hafter
      have hr := hroom r
      have hr' := hroom' r'
      have hq := hcursor r
      have hq' := hcursor' r'
      rw [hsplit] at hr
      obtain rfl : r = r' := row_of_slot hmono (x := slots.cursor r + t) (by omega) (by omega)
        (by omega) (by omega)
      rw [hnext] at heq
      omega
    · intro a ha
      rw [writtenSlots] at ha
      rcases List.mem_append.mp ha with hnow | hafter
      · obtain ⟨r, t, ht, rfl⟩ := mem_scatterWrites hnow
        exact ⟨r, t, by rw [hsplit]; omega, rfl⟩
      · obtain ⟨r, t, ht, rfl⟩ := hlater a hafter
        refine ⟨r, (valuesOf r entries).length + t, by rw [hsplit]; omega, ?_⟩
        rw [hnext, Nat.add_assoc]

/-! ### Every slot once -/

theorem rowStarts_succ (blocks : List (List ℕ × List ℕ)) (r : ℕ) :
    rowStarts blocks (r + 1) = rowStarts blocks r + rowCounts blocks r := by
  unfold rowStarts
  rw [List.range_succ, List.map_append, List.sum_append]
  simp

theorem EdgeBlocks.row_lt {n : ℕ} {blocks : List (List ℕ × List ℕ)} (h : EdgeBlocks n blocks)
    {e : ℕ × ℕ} (he : e ∈ (directed blocks).flatten) : e.1 < n := by
  obtain ⟨l, hl, hmem⟩ := List.mem_flatten.mp he
  obtain ⟨b, hb, hlb⟩ := List.mem_flatMap.mp hl
  have hedges := (h b (List.mem_reverse.mp hb)).2
  rcases List.mem_pair.mp hlb with rfl | rfl
  · exact (hedges e hmem).1
  · exact (hedges (e.2, e.1) (mem_zip_swap.mp hmem)).2.1

theorem rowStarts_total {n : ℕ} {blocks : List (List ℕ × List ℕ)} (h : EdgeBlocks n blocks) :
    rowStarts blocks n = (directed blocks).flatten.length := by
  have hlength : ∀ b ∈ blocks, b.1.length = b.2.length := fun b hb => (h b hb).1
  have hcounts : rowStarts blocks n = runStart ((directed blocks).flatten.map Prod.fst) n := by
    rw [← sum_counts_eq_runStart]
    unfold rowStarts
    congr 1
    apply List.map_congr_left
    intro r _
    rw [← rowCounts_eq hlength, length_valuesOf]
  rw [hcounts, runStart, List.countP_eq_length.mpr, List.length_map]
  intro r hr
  obtain ⟨e, he, rfl⟩ := List.mem_map.mp hr
  exact decide_eq_true (h.row_lt he)

/-- The loop over the blocks writes every slot of the index array once. -/
theorem writtenSlots_perm {n : ℕ} {blocks : List (List ℕ × List ℕ)} (h : EdgeBlocks n blocks)
    (junk : ℕ → ℕ) : (writtenSlots ⟨rowStarts blocks, junk⟩ (directed blocks)).Perm
      (List.range (rowStarts blocks n)) := by
  have hcount := rowCounts_eq fun b hb => (h b hb).1
  have hmono : ∀ r, rowStarts blocks r ≤ rowStarts blocks (r + 1) := by
    intro r
    rw [rowStarts_succ]
    exact Nat.le_add_right _ _
  have hroom : ∀ r, rowStarts blocks r + (valuesOf r (directed blocks).flatten).length ≤
      rowStarts blocks (r + 1) := by
    intro r
    rw [hcount, rowStarts_succ]
  obtain ⟨hnodup, hplace⟩ := writtenSlots_spec ⟨rowStarts blocks, junk⟩
    (fun r => Nat.le_refl (rowStarts blocks r)) hroom
  have hbound : ∀ a ∈ writtenSlots ⟨rowStarts blocks, junk⟩ (directed blocks),
      a ∈ List.range (rowStarts blocks n) := by
    intro a ha
    obtain ⟨r, t, ht, rfl⟩ := hplace a ha
    have hrow : r < n := by
      obtain ⟨c, hc⟩ := List.exists_mem_of_length_pos (Nat.zero_lt_of_lt ht)
      exact h.row_lt (mem_valuesOf.mp hc)
    have hnext := monotone_nat_of_le_succ hmono (show r + 1 ≤ n from hrow)
    have hr := hroom r
    rw [List.mem_range]
    simp only
    omega
  apply List.Subperm.perm_of_length_le (List.subperm_of_subset hnodup hbound)
  rw [length_writtenSlots, List.length_range, rowStarts_total h]

/-! ### Blocks of positions -/

/-- The pair `u`, `v` comes up in a block, in either direction. -/
def Occurs (blocks : List (List ℤ × List ℤ)) (u v : ℕ) : Prop :=
  ∃ b ∈ blocks, ((u : ℤ), (v : ℤ)) ∈ b.1.zip b.2 ∨ ((v : ℤ), (u : ℤ)) ∈ b.1.zip b.2

/-- Blocks that `add_edge_positions` accepts. -/
def InRange (n : ℕ) (blocks : List (List ℤ × List ℤ)) : Prop :=
  ∀ b ∈ blocks, b.1.length = b.2.length ∧ ∀ p ∈ b.1 ++ b.2, 0 ≤ p ∧ p < n

def positionBlocks (blocks : List (List ℤ × List ℤ)) : List EdgeBlock :=
  blocks.map fun b => .positions b.1 b.2

theorem addPositions_ok {blocks : List (List ℤ × List ℤ)} {builder : AdjacencyBuilder}
    (hopen : builder.built = false) (h : InRange builder.nodes.keys.length blocks) :
    ∃ builder', builder.addAll (positionBlocks blocks) = .ok builder' ∧ builder'.built = false ∧
      builder'.nodes = builder.nodes ∧
      builder'.blocks = builder.blocks ++ blocks.map fun b => keptBlock b.1 b.2 := by
  induction blocks generalizing builder with
  | nil => exact ⟨builder, rfl, hopen, rfl, (List.append_nil _).symm⟩
  | cons block later ih =>
    obtain ⟨hshape, hrange⟩ := h block List.mem_cons_self
    have hin : ¬∃ p ∈ block.1 ++ block.2, p < 0 ∨ (builder.nodes.keys.length : ℤ) ≤ p := by
      intro hout
      obtain ⟨p, hp, hbad⟩ := hout
      have := hrange p hp
      omega
    have hadd : ∃ next, builder.add (.positions block.1 block.2) = .ok next ∧
        next.built = false ∧ next.nodes = builder.nodes ∧
        next.blocks = builder.blocks ++ [keptBlock block.1 block.2] := by
      unfold AdjacencyBuilder.add AdjacencyBuilder.addEdgePositions
      simp only
      rw [if_neg (by rw [hopen]; exact Bool.false_ne_true), if_neg (not_not.mpr hshape), dif_neg hin]
      exact ⟨_, rfl, hopen, rfl, rfl⟩
    obtain ⟨next, hnext, hopen', hnodes, hblocks⟩ := hadd
    have hlater : InRange next.nodes.keys.length later := by
      rw [hnodes]
      exact fun b hb => h b (List.mem_cons_of_mem _ hb)
    obtain ⟨builder', hbuilder', hopen'', hnodes', hblocks'⟩ := ih hopen' hlater
    refine ⟨builder', ?_, hopen'', hnodes'.trans hnodes, ?_⟩
    · have hcons : positionBlocks (block :: later) =
          .positions block.1 block.2 :: positionBlocks later := rfl
      rw [hcons, AdjacencyBuilder.addAll, hnext]
      exact hbuilder'
    · rw [hblocks', hblocks, List.append_assoc]
      rfl

theorem mem_columns {n : ℕ} {blocks : List (List ℤ × List ℤ)} (h : InRange n blocks)
    {junk : ℕ → ℕ} {v u : ℕ} :
    u ∈ buildColumns junk (blocks.map fun b => keptBlock b.1 b.2) v ↔
      u ≠ v ∧ Occurs blocks u v := by
  have hlength : ∀ b ∈ blocks.map fun b => keptBlock b.1 b.2, b.1.length = b.2.length := by
    intro b hb
    obtain ⟨b, _, rfl⟩ := List.mem_map.mp hb
    simp [keptBlock]
  -- a kept pair is a pair of the block
  have hkept : ∀ b ∈ blocks, ∀ x y : ℕ, (x, y) ∈ (keptBlock b.1 b.2).1.zip (keptBlock b.1 b.2).2 ↔
      x ≠ y ∧ ((x : ℤ), (y : ℤ)) ∈ b.1.zip b.2 := by
    intro b hb x y
    rw [keptBlock_zip, List.mem_map]
    constructor
    · intro hfound
      obtain ⟨e, he, heq⟩ := hfound
      obtain ⟨hmem, hne⟩ := List.mem_filter.mp he
      obtain ⟨hfirst, hsecond⟩ := List.of_mem_zip hmem
      have hpos := ((h b hb).2 _ (List.mem_append_left _ hfirst)).1
      have hpos' := ((h b hb).2 _ (List.mem_append_right _ hsecond)).1
      have hne' : e.1 ≠ e.2 := of_decide_eq_true hne
      cases heq
      rw [Int.toNat_of_nonneg hpos, Int.toNat_of_nonneg hpos']
      exact ⟨by omega, hmem⟩
    · intro hfound
      obtain ⟨hne, hmem⟩ := hfound
      refine ⟨_, List.mem_filter.mpr ⟨hmem, decide_eq_true ?_⟩, rfl⟩
      simp only
      omega
  rw [mem_buildColumns hlength]
  unfold Occurs
  constructor
  · intro hfound
    obtain ⟨b, hb, hpair⟩ := hfound
    obtain ⟨block, hblock, rfl⟩ := List.mem_map.mp hb
    rcases hpair with hpair | hpair
    · obtain ⟨hne, hmem⟩ := (hkept block hblock v u).mp hpair
      exact ⟨hne.symm, block, hblock, Or.inr hmem⟩
    · obtain ⟨hne, hmem⟩ := (hkept block hblock u v).mp hpair
      exact ⟨hne, block, hblock, Or.inl hmem⟩
  · intro hfound
    obtain ⟨hne, b, hb, hpair⟩ := hfound
    refine ⟨_, List.mem_map_of_mem hb, ?_⟩
    rcases hpair with hmem | hmem
    · exact Or.inr ((hkept b hb u v).mpr ⟨hne, hmem⟩)
    · exact Or.inl ((hkept b hb v u).mpr ⟨hne.symm, hmem⟩)

theorem buildColumns_congr {n : ℕ} {blocks blocks' : List (List ℤ × List ℤ)} (h : InRange n blocks)
    (h' : InRange n blocks') (hsame : ∀ u v, u ≠ v → (Occurs blocks u v ↔ Occurs blocks' u v))
    (junk junk' : ℕ → ℕ) : buildColumns junk (blocks.map fun b => keptBlock b.1 b.2) =
      buildColumns junk' (blocks'.map fun b => keptBlock b.1 b.2) := by
  funext v
  apply List.Pairwise.eq_of_mem_iff (r := (· < ·))
  · exact Finset.sortedLT_sort _ |>.pairwise
  · exact Finset.sortedLT_sort _ |>.pairwise
  intro u
  rw [mem_columns h, mem_columns h']
  exact and_congr_right fun hne => hsame u v hne

theorem build_congr {ar : Arithmetic F D O} {junk junk' : ℕ → ℕ} {builder builder' : AdjacencyBuilder}
    {adjacency : Adjacency F} (h : builder.build ar junk = .ok adjacency)
    (hopen : builder'.built = false) (hnodes : builder'.nodes = builder.nodes)
    (hcolumns : buildColumns junk' builder'.blocks = buildColumns junk builder.blocks) :
    builder'.build ar junk' = .ok adjacency := by
  unfold AdjacencyBuilder.build at h
  split_ifs at h
  rw [← h]
  unfold AdjacencyBuilder.build
  simp only [hopen, Bool.false_eq_true, if_false, buildRows, hnodes, hcolumns]

theorem build_entries {ar : Arithmetic F D O} {junk : ℕ → ℕ} {builder : AdjacencyBuilder}
    {adjacency : Adjacency F} (h : builder.build ar junk = .ok adjacency) {v : ℕ}
    (hv : v < builder.nodes.keys.length) :
    (adjacency.transition.entries v).map Prod.fst = buildColumns junk builder.blocks v ∧
      adjacency.degree v = (adjacency.transition.entries v).length ∧
      ∀ e ∈ adjacency.transition.entries v,
        e.2 = ar.narrow (ar.div64 ar.one64 (ar.ofNat64 (adjacency.degree v))) := by
  unfold AdjacencyBuilder.build at h
  split_ifs at h
  cases h
  have hrow : v < (buildRows ar junk builder).length := by
    unfold buildRows
    rw [List.length_map, List.length_range]
    exact hv
  have hentries : (Csr.ofRows (buildRows ar junk builder)).entries v =
      (buildColumns junk builder.blocks v).map fun c =>
        (c, inverseDegree ar (buildColumns junk builder.blocks v).length) := by
    rw [Csr.entries_ofRows hrow]
    simp only [buildRows, List.getElem_map, List.getElem_range]
  simp only [hentries]
  refine ⟨?_, ?_, ?_⟩
  · rw [List.map_map]
    exact List.map_id _
  · rw [List.length_map]
  · intro e he
    obtain ⟨c, hc, rfl⟩ := List.mem_map.mp he
    have hpos := List.length_pos_of_mem hc
    simp only [inverseDegree]
    rw [Nat.max_eq_left hpos]

/-- `build` after blocks of positions: the slots are written once each, the rows hold the
neighbours, and other blocks with the same pairs build the same adjacency. -/
theorem build_positions (ar : Arithmetic F D O) (junk : ℕ → ℕ) (nodes : NodeIndex)
    (blocks : List (List ℤ × List ℤ)) (h : InRange nodes.keys.length blocks) :
    ∃ builder adjacency, (AdjacencyBuilder.new nodes).addAll (positionBlocks blocks) = .ok builder ∧
      builder.build ar junk = .ok adjacency ∧ adjacency.nodes = nodes ∧
      (writtenSlots ⟨rowStarts builder.blocks, junk⟩ (directed builder.blocks)).Perm
        (List.range (rowStarts builder.blocks nodes.keys.length)) ∧
      (∀ v < nodes.keys.length,
        ((adjacency.transition.entries v).map Prod.fst).Pairwise (· < ·) ∧
        (∀ u, u ∈ (adjacency.transition.entries v).map Prod.fst ↔ u ≠ v ∧ Occurs blocks u v) ∧
        adjacency.degree v = (adjacency.transition.entries v).length ∧
        ∀ e ∈ adjacency.transition.entries v,
          e.2 = ar.narrow (ar.div64 ar.one64 (ar.ofNat64 (adjacency.degree v)))) ∧
      (∀ v < nodes.keys.length, ∀ u < nodes.keys.length,
        (u ∈ (adjacency.transition.entries v).map Prod.fst ↔
          v ∈ (adjacency.transition.entries u).map Prod.fst)) ∧
      ∀ blocks', InRange nodes.keys.length blocks' →
        (∀ u v, u ≠ v → (Occurs blocks u v ↔ Occurs blocks' u v)) → ∀ junk',
          ∃ builder', (AdjacencyBuilder.new nodes).addAll (positionBlocks blocks') = .ok builder' ∧
            builder'.build ar junk' = .ok adjacency := by
  obtain ⟨builder, hadd, hopen, hnodes, hblocks⟩ :=
    addPositions_ok (show (AdjacencyBuilder.new nodes).built = false from rfl) h
  obtain ⟨adjacency, hbuild⟩ : ∃ adjacency, builder.build ar junk = .ok adjacency := by
    unfold AdjacencyBuilder.build
    rw [if_neg (by rw [hopen]; exact Bool.false_ne_true)]
    exact ⟨_, rfl⟩
  have hkept : builder.blocks = blocks.map fun b => keptBlock b.1 b.2 := hblocks
  have hkeys : builder.nodes.keys = nodes.keys := congrArg NodeIndex.keys hnodes
  have hentries := fun v (hv : v < nodes.keys.length) =>
    build_entries hbuild (v := v) (by rw [hkeys]; exact hv)
  have hmem : ∀ v < nodes.keys.length, ∀ u,
      u ∈ (adjacency.transition.entries v).map Prod.fst ↔ u ≠ v ∧ Occurs blocks u v := by
    intro v hv u
    rw [(hentries v hv).1, hkept, mem_columns h]
  refine ⟨builder, adjacency, hadd, hbuild, ?_, ?_, ?_, ?_, ?_⟩
  · unfold AdjacencyBuilder.build at hbuild
    split_ifs at hbuild
    rw [← Except.ok.inj hbuild]
    exact hnodes
  · exact writtenSlots_perm (hkeys ▸ builder.edges) junk
  · intro v hv
    obtain ⟨hcolumns, hdegree, hvalues⟩ := hentries v hv
    refine ⟨?_, hmem v hv, hdegree, hvalues⟩
    rw [hcolumns]
    exact (Finset.sortedLT_sort _).pairwise
  · intro v hv u hu
    rw [hmem v hv, hmem u hu]
    exact and_congr ne_comm (exists_congr fun b => and_congr_right fun _ => or_comm)
  · intro blocks' h' hsame junk'
    obtain ⟨builder', hadd', hopen', hnodes', hblocks'⟩ :=
      addPositions_ok (show (AdjacencyBuilder.new nodes).built = false from rfl) h'
    have hkept' : builder'.blocks = blocks'.map fun b => keptBlock b.1 b.2 := hblocks'
    refine ⟨builder', hadd', build_congr hbuild hopen' (hnodes'.trans hnodes.symm) ?_⟩
    rw [hkept', hkept]
    exact (buildColumns_congr h h' hsame junk junk').symm

/- A self-loop, both directions of an edge and an empty block. -/
def mixedBlocks : List (List ℤ × List ℤ) := [([0, 1, 2], [1, 1, 0]), ([], []), ([1], [0])]

def threeNodes : NodeIndex := ⟨[3, 5, 9], by decide, by decide⟩

theorem build_positions_mixed :
    ∃ builder adjacency,
      (AdjacencyBuilder.new threeNodes).addAll (positionBlocks mixedBlocks) = .ok builder ∧
      builder.build integerArithmetic (fun _ => 7) = .ok adjacency ∧ adjacency.nodes = threeNodes ∧
      (writtenSlots ⟨rowStarts builder.blocks, fun _ => 7⟩ (directed builder.blocks)).Perm
        (List.range (rowStarts builder.blocks 3)) ∧
      adjacency.degree 0 = (adjacency.transition.entries 0).length ∧
      1 ∈ (adjacency.transition.entries 0).map Prod.fst ∧
      2 ∉ (adjacency.transition.entries 1).map Prod.fst := by
  obtain ⟨builder, adjacency, hadd, hbuild, hnodes, hslots, hrows, _⟩ :=
    build_positions integerArithmetic (fun _ => 7) threeNodes mixedBlocks 
      (by unfold InRange mixedBlocks; decide)
  have hlength : threeNodes.keys.length = 3 := rfl
  rw [hlength] at hslots hrows
  refine ⟨builder, adjacency, hadd, hbuild, hnodes, hslots, (hrows 0 (by decide)).2.2.1, ?_, ?_⟩
  · rw [(hrows 0 (by decide)).2.1]
    exact ⟨by decide, _, List.mem_cons_self, Or.inr (by decide)⟩
  · rw [(hrows 1 (by decide)).2.1]
    unfold Occurs mixedBlocks
    decide

end AnalyticsEngine.Embeddings
