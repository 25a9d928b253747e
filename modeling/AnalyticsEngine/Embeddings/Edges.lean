import AnalyticsEngine.Embeddings.Graph
import Mathlib.Combinatorics.SimpleGraph.Basic

/-!
# The graph a builder builds

A stream of `add_edges` and `add_edge_positions` calls describes a simple graph on node keys:
directions, repetitions and self-loops do not count. `buildGraph_eq` says that the adjacency is a
function of the node index and that graph alone.
-/

namespace AnalyticsEngine.Embeddings
open Library

variable {F D O : Type*}

/-- A call of `add_edges` or of `add_edge_positions`. -/
inductive EdgeBlock where
  | keys (sources targets : List U64)
  | positions (sources targets : List ℤ)

def AdjacencyBuilder.add (builder : AdjacencyBuilder) : EdgeBlock → Except GraphError AdjacencyBuilder
  | .keys sources targets => builder.addEdges sources targets
  | .positions sources targets => builder.addEdgePositions sources targets

def AdjacencyBuilder.addAll (builder : AdjacencyBuilder) :
    List EdgeBlock → Except GraphError AdjacencyBuilder
  | [] => .ok builder
  | block :: later =>
    match builder.add block with
    | .error e => .error e
    | .ok builder => builder.addAll later

/-- A `NodeIndex` of the keys, a builder on it, every block of the stream, then `build`. -/
def buildGraph (ar : Arithmetic F D O) (junk : ℕ → ℕ) (keys : List U64) (stream : List EdgeBlock) :
    Except GraphError (Adjacency F) :=
  match NodeIndex.new keys with
  | .error e => .error e
  | .ok nodes =>
    match (AdjacencyBuilder.new nodes).addAll stream with
    | .error e => .error e
    | .ok builder => builder.build ar junk

/-! ### The graph of a stream -/

/-- The edges of a block as pairs of keys; a position is the rank of a key. -/
def EdgeBlock.edges (keys : List U64) : EdgeBlock → List (U64 × U64)
  | .keys sources targets => sources.zip targets
  | .positions sources targets => (sources.zip targets).map fun e =>
      (keys.getD e.1.toNat 0, keys.getD e.2.toNat 0)

def simpleGraph (edges : List (U64 × U64)) : SimpleGraph U64 where
  Adj u w := u ≠ w ∧ ((u, w) ∈ edges ∨ (w, u) ∈ edges)
  symm := ⟨fun _ _ h => ⟨h.1.symm, h.2.symm⟩⟩
  loopless := ⟨fun _ h => h.1 rfl⟩

instance (edges : List (U64 × U64)) : DecidableRel (simpleGraph edges).Adj :=
  fun u w => inferInstanceAs (Decidable (u ≠ w ∧ ((u, w) ∈ edges ∨ (w, u) ∈ edges)))

/-- The graph on keys that a stream describes. -/
def streamGraph (keys : List U64) (stream : List EdgeBlock) : SimpleGraph U64 :=
  simpleGraph (stream.flatMap (EdgeBlock.edges (keys.insertionSort (· ≤ ·))))

instance (keys : List U64) (stream : List EdgeBlock) : DecidableRel (streamGraph keys stream).Adj :=
  inferInstanceAs (DecidableRel (simpleGraph _).Adj)

def neighbourColumns (keys : List U64) (g : SimpleGraph U64) [DecidableRel g.Adj] (p : ℕ) : List ℕ :=
  (List.range keys.length).filter fun c => keys[p]?.any fun u => keys[c]?.any fun w => g.Adj u w

theorem mem_neighbourColumns {keys : List U64} {g : SimpleGraph U64} [DecidableRel g.Adj] {p c : ℕ} :
    c ∈ neighbourColumns keys g p ↔
      ∃ u w, keys[p]? = some u ∧ keys[c]? = some w ∧ g.Adj u w := by
  unfold neighbourColumns
  rw [List.mem_filter, List.mem_range]
  simp only [Option.any_eq_true, decide_eq_true_eq]
  constructor
  · intro hfound
    obtain ⟨_, u, hu, w, hw, hadj⟩ := hfound
    exact ⟨u, w, hu, hw, hadj⟩
  · intro hfound
    obtain ⟨u, w, hu, hw, hadj⟩ := hfound
    exact ⟨(List.getElem?_eq_some_iff.mp hw).1, u, hu, w, hw, hadj⟩

def graphRows (ar : Arithmetic F D O) (keys : List U64) (g : SimpleGraph U64) [DecidableRel g.Adj] :
    List (List (ℕ × F)) :=
  (List.range keys.length).map fun p =>
    let columns := neighbourColumns keys g p
    columns.map fun c => (c, inverseDegree ar columns.length)

theorem graphRows_columns (ar : Arithmetic F D O) (keys : List U64) (g : SimpleGraph U64)
    [DecidableRel g.Adj] :
    ∀ row ∈ graphRows ar keys g, ∀ e ∈ row, e.1 < (graphRows ar keys g).length := by
  have hlength : (graphRows ar keys g).length = keys.length := by simp [graphRows]
  intro row hrow e he
  obtain ⟨p, _, rfl⟩ := List.mem_map.mp hrow
  obtain ⟨c, hc, rfl⟩ := List.mem_map.mp he
  rw [hlength]
  exact List.mem_range.mp (List.mem_of_mem_filter hc)

/-- The random-walk transition matrix of a simple graph: `1 / degree` at every neighbour, in
order of position. -/
def adjacencyOf (ar : Arithmetic F D O) (nodes : NodeIndex) (g : SimpleGraph U64)
    [DecidableRel g.Adj] : Adjacency F where
  nodes := nodes
  transition := Csr.ofRows (graphRows ar nodes.keys g)
  degree p := (neighbourColumns nodes.keys g p).length
  valid := Csr.valid_ofRows (graphRows_columns ar nodes.keys g)
  square := by simp [Csr.ofRows, graphRows]

theorem adjacencyOf_congr (ar : Arithmetic F D O) (nodes : NodeIndex) {g g' : SimpleGraph U64}
    [hg : DecidableRel g.Adj] [hg' : DecidableRel g'.Adj] (h : g = g') :
    adjacencyOf ar nodes g = adjacencyOf ar nodes g' := by
  subst h
  rw [Subsingleton.elim hg hg']

/-! ### Node positions -/

theorem NodeIndex.new_ok {keys : List U64} {nodes : NodeIndex} (h : NodeIndex.new keys = .ok nodes) :
    nodes.keys = keys.insertionSort (· ≤ ·) := by
  unfold NodeIndex.new at h
  simp only at h
  split_ifs at h
  cases h
  rfl

theorem NodeIndex.positions_ok {nodes : NodeIndex} {wanted : List U64} {found : List ℕ}
    (h : nodes.positions wanted = .ok found) :
    found = wanted.map (searchPosition nodes.keys) ∧
      ∀ key ∈ wanted, nodes.keys[searchPosition nodes.keys key]? = some key := by
  unfold NodeIndex.positions at h
  cases hmissing : wanted.filter fun key =>
      nodes.keys[searchPosition nodes.keys key]? ≠ some key with
  | nil =>
    simp only at h
    rw [hmissing] at h
    cases h
    refine ⟨rfl, ?_⟩
    intro key hkey
    have hfound := List.filter_eq_nil_iff.mp hmissing key hkey
    simpa using hfound
  | cons first later =>
    simp only at h
    rw [hmissing] at h
    cases h

theorem NodeIndex.position_unique (nodes : NodeIndex) {p q : ℕ} {u : U64}
    (hp : nodes.keys[p]? = some u) (hq : nodes.keys[q]? = some u) : p = q := by
  have hnodup : nodes.keys.Nodup := nodes.ordered.imp fun hlt => ne_of_lt hlt
  exact (List.getElem?_inj (List.getElem?_eq_some_iff.mp hp).1 hnodup).mp (hp.trans hq.symm)

/-! ### What the blocks of a builder hold -/

structure Collected (nodes : NodeIndex) (edges : List (U64 × U64)) (builder : AdjacencyBuilder) :
    Prop where
  nodes_eq : builder.nodes = nodes
  open_ : builder.built = false
  endpoints : ∀ e ∈ edges, e.1 ∈ nodes.keys ∧ e.2 ∈ nodes.keys
  blocks : ∀ p c, (∃ b ∈ builder.blocks, (p, c) ∈ b.1.zip b.2) ↔
    ∃ u w, nodes.keys[p]? = some u ∧ nodes.keys[c]? = some w ∧ u ≠ w ∧ (u, w) ∈ edges

theorem collected_new (nodes : NodeIndex) : Collected nodes [] (AdjacencyBuilder.new nodes) where
  nodes_eq := rfl
  open_ := rfl
  endpoints := fun _ he => by cases he
  blocks p c := by simp [AdjacencyBuilder.new]

/-- The kept pairs of a block whose positions are nodes are its edges, less the self-loops. -/
theorem keptBlock_edges {nodes : NodeIndex} {src dst : List ℤ}
    (hnode : ∀ e ∈ src.zip dst, ∃ u w, nodes.keys[e.1.toNat]? = some u ∧
      nodes.keys[e.2.toNat]? = some w ∧ 0 ≤ e.1 ∧ 0 ≤ e.2) (p c : ℕ) :
    (p, c) ∈ (keptBlock src dst).1.zip (keptBlock src dst).2 ↔
      ∃ u w, nodes.keys[p]? = some u ∧ nodes.keys[c]? = some w ∧ u ≠ w ∧
        (u, w) ∈ (EdgeBlock.positions src dst).edges nodes.keys := by
  unfold EdgeBlock.edges
  simp only
  rw [keptBlock_zip, List.mem_map]
  constructor
  · intro hfound
    obtain ⟨x, hx, heq⟩ := hfound
    obtain ⟨hmem, hne⟩ := List.mem_filter.mp hx
    cases heq
    obtain ⟨u, w, hu, hw, hpos, hpos'⟩ := hnode x hmem
    refine ⟨u, w, hu, hw, ?_, List.mem_map.mpr ⟨x, hmem, ?_⟩⟩
    · intro hsame
      subst hsame
      have := nodes.position_unique hu hw
      have : x.1 ≠ x.2 := of_decide_eq_true hne
      omega
    · simp only [List.getD_eq_getElem?_getD, hu, hw, Option.getD_some]
  · intro hfound
    obtain ⟨u, w, hu, hw, hne, hmem⟩ := hfound
    obtain ⟨x, hx, heq⟩ := List.mem_map.mp hmem
    obtain ⟨u', w', hu', hw', hpos, hpos'⟩ := hnode x hx
    simp only [List.getD_eq_getElem?_getD, hu', hw', Option.getD_some] at heq
    cases heq
    refine ⟨x, List.mem_filter.mpr ⟨hx, decide_eq_true ?_⟩, ?_⟩
    · intro hxx
      rw [hxx] at hu'
      exact hne (Option.some.inj (hu'.symm.trans hw'))
    · rw [nodes.position_unique hu hu', nodes.position_unique hw hw']

theorem addEdgePositions_collected {nodes : NodeIndex} {edges : List (U64 × U64)}
    {builder builder' : AdjacencyBuilder} (h : Collected nodes edges builder) {src dst : List ℤ}
    (hadd : builder.addEdgePositions src dst = .ok builder') :
    Collected nodes (edges ++ (EdgeBlock.positions src dst).edges nodes.keys) builder' := by
  obtain ⟨rfl, hopen, hends, hblocks⟩ := h
  unfold AdjacencyBuilder.addEdgePositions at hadd
  split_ifs at hadd with hbuilt hshape hrange
  cases hadd
  -- both ends of a pair are positions of nodes
  have hnode : ∀ e ∈ src.zip dst, ∃ u w, builder.nodes.keys[e.1.toNat]? = some u ∧
      builder.nodes.keys[e.2.toNat]? = some w ∧ 0 ≤ e.1 ∧ 0 ≤ e.2 := by
    intro e he
    obtain ⟨hx, hy⟩ := List.of_mem_zip he
    have hx' : ¬(e.1 < 0 ∨ (builder.nodes.keys.length : ℤ) ≤ e.1) := fun hout =>
      hrange ⟨e.1, List.mem_append_left _ hx, hout⟩
    have hy' : ¬(e.2 < 0 ∨ (builder.nodes.keys.length : ℤ) ≤ e.2) := fun hout =>
      hrange ⟨e.2, List.mem_append_right _ hy, hout⟩
    exact ⟨_, _, List.getElem?_eq_getElem (by omega), List.getElem?_eq_getElem (by omega),
      by omega, by omega⟩
  refine ⟨rfl, hopen, ?_, ?_⟩
  · intro e he
    rcases List.mem_append.mp he with hold | hnew
    · exact hends e hold
    · unfold EdgeBlock.edges at hnew
      obtain ⟨x, hx, rfl⟩ := List.mem_map.mp hnew
      obtain ⟨u, w, hu, hw, _⟩ := hnode x hx
      simp only [List.getD_eq_getElem?_getD, hu, hw, Option.getD_some]
      exact ⟨List.mem_of_getElem? hu, List.mem_of_getElem? hw⟩
  · intro p c
    simp only [List.mem_append, List.mem_singleton, or_and_right, exists_or, exists_eq_left,
      hblocks p c, keptBlock_edges hnode p c, and_or_left]

theorem add_collected {nodes : NodeIndex} {edges : List (U64 × U64)}
    {builder builder' : AdjacencyBuilder} (h : Collected nodes edges builder) {block : EdgeBlock}
    (hadd : builder.add block = .ok builder') :
    Collected nodes (edges ++ block.edges nodes.keys) builder' := by
  cases block with
  | positions src dst => exact addEdgePositions_collected h hadd
  | keys sources targets =>
    unfold AdjacencyBuilder.add at hadd
    simp only at hadd
    unfold AdjacencyBuilder.addEdges at hadd
    rw [h.nodes_eq] at hadd
    cases hsrc : nodes.positions sources with
    | error e =>
      rw [hsrc] at hadd
      cases hadd
    | ok src =>
      cases hdst : nodes.positions targets with
      | error e =>
        rw [hsrc, hdst] at hadd
        cases hadd
      | ok dst =>
        rw [hsrc, hdst] at hadd
        have hall := addEdgePositions_collected h hadd
        obtain ⟨rfl, hfound⟩ := NodeIndex.positions_ok hsrc
        obtain ⟨rfl, hfound'⟩ := NodeIndex.positions_ok hdst
        -- the positions of keys that were found lead back to the keys
        have hedges : (EdgeBlock.positions
            ((sources.map (searchPosition nodes.keys)).map Int.ofNat)
            ((targets.map (searchPosition nodes.keys)).map Int.ofNat)).edges nodes.keys =
              (EdgeBlock.keys sources targets).edges nodes.keys := by
          unfold EdgeBlock.edges
          simp only
          rw [List.map_map, List.map_map, List.zip_map, List.map_map]
          refine (List.map_congr_left ?_).trans (List.map_id _)
          intro e he
          obtain ⟨hu, hw⟩ := List.of_mem_zip he
          simp [hfound _ hu, hfound' _ hw]
        rw [hedges] at hall
        exact hall

theorem addAll_collected {nodes : NodeIndex} {edges : List (U64 × U64)} {stream : List EdgeBlock}
    {builder builder' : AdjacencyBuilder} (h : Collected nodes edges builder)
    (hadd : builder.addAll stream = .ok builder') :
    Collected nodes (edges ++ stream.flatMap (EdgeBlock.edges nodes.keys)) builder' := by
  induction stream generalizing builder edges with
  | nil =>
    cases hadd
    rw [List.flatMap_nil, List.append_nil]
    exact h
  | cons block later ih =>
    unfold AdjacencyBuilder.addAll at hadd
    cases hblock : builder.add block with
    | error e =>
      rw [hblock] at hadd
      cases hadd
    | ok next =>
      rw [hblock] at hadd
      rw [List.flatMap_cons, ← List.append_assoc]
      exact ih (add_collected h hblock) hadd

/-! ### The adjacency -/

theorem buildColumns_eq {nodes : NodeIndex} {edges : List (U64 × U64)} {builder : AdjacencyBuilder}
    (h : Collected nodes edges builder) (junk : ℕ → ℕ) (p : ℕ) :
    buildColumns junk builder.blocks p = neighbourColumns nodes.keys (simpleGraph edges) p := by
  apply List.Pairwise.eq_of_mem_iff (r := (· < ·))
  · exact Finset.sortedLT_sort _ |>.pairwise
  · exact List.pairwise_lt_range.filter _
  intro c
  rw [mem_buildColumns fun b hb => (builder.edges b hb).1, mem_neighbourColumns]
  simp only [and_or_left, exists_or, h.blocks]
  unfold simpleGraph
  simp only
  constructor
  · intro hcases
    rcases hcases with ⟨u, w, hu, hw, hne, hmem⟩ | ⟨w, u, hw, hu, hne, hmem⟩
    · exact ⟨u, w, hu, hw, hne, Or.inl hmem⟩
    · exact ⟨u, w, hu, hw, hne.symm, Or.inr hmem⟩
  · intro hfound
    rcases hfound with ⟨u, w, hu, hw, hne, hmem | hmem⟩
    · exact Or.inl ⟨u, w, hu, hw, hne, hmem⟩
    · exact Or.inr ⟨w, u, hw, hu, hne.symm, hmem⟩

theorem build_eq {nodes : NodeIndex} {edges : List (U64 × U64)} {builder : AdjacencyBuilder}
    (h : Collected nodes edges builder) (ar : Arithmetic F D O) (junk : ℕ → ℕ) :
    builder.build ar junk = .ok (adjacencyOf ar nodes (simpleGraph edges)) := by
  have hcolumns := funext (buildColumns_eq h junk)
  obtain ⟨rfl, hopen, _⟩ := h
  unfold AdjacencyBuilder.build adjacencyOf
  simp only [hopen, Bool.false_eq_true, if_false, buildRows, graphRows, hcolumns]

/-- The adjacency depends on the node index and the graph of the stream alone. -/
theorem buildGraph_eq {ar : Arithmetic F D O} {junk : ℕ → ℕ} {keys : List U64}
    {stream : List EdgeBlock} {adjacency : Adjacency F}
    (h : buildGraph ar junk keys stream = .ok adjacency) :
    ∃ nodes : NodeIndex, nodes.keys = keys.insertionSort (· ≤ ·) ∧
      adjacency = adjacencyOf ar nodes (streamGraph keys stream) ∧
      ∀ u w, (streamGraph keys stream).Adj u w → w ∈ nodes.keys := by
  unfold buildGraph at h
  cases hnodes : NodeIndex.new keys with
  | error e =>
    rw [hnodes] at h
    cases h
  | ok nodes =>
    rw [hnodes] at h
    simp only at h
    cases hbuilder : (AdjacencyBuilder.new nodes).addAll stream with
    | error e =>
      rw [hbuilder] at h
      cases h
    | ok builder =>
      rw [hbuilder] at h
      have hkeys := NodeIndex.new_ok hnodes
      have hall := addAll_collected (collected_new nodes) hbuilder
      rw [List.nil_append] at hall
      have hbuilt := build_eq hall ar junk
      simp only [hbuilt, Except.ok.injEq] at h
      subst h
      have hends := hall.endpoints
      rw [hkeys] at hends
      refine ⟨nodes, hkeys, ?_, ?_⟩
      · apply adjacencyOf_congr
        unfold streamGraph
        rw [hkeys]
      · intro u w hfound
        rcases hfound with ⟨_, hmem | hmem⟩
        · rw [hkeys]
          exact (hends _ hmem).2
        · rw [hkeys]
          exact (hends _ hmem).1

/-! ### Keys that are nodes raise nothing -/

theorem repeats_eq_nil {ordered : List U64} (h : ordered.Pairwise (· < ·)) : repeats ordered = [] := by
  unfold repeats
  rw [List.map_eq_nil_iff, List.filter_eq_nil_iff]
  induction ordered with
  | nil => exact fun _ hp => by cases hp
  | cons a l ih =>
    obtain ⟨ha, hl⟩ := List.pairwise_cons.mp h
    cases l with
    | nil => exact fun _ hp => by cases hp
    | cons b l =>
      intro p hp heq
      rcases List.mem_cons.mp hp with rfl | hp
      · exact absurd (of_decide_eq_true heq) (ne_of_lt (ha b List.mem_cons_self))
      · exact ih hl p hp heq

theorem NodeIndex.new_ordered {keys : List U64} (h : keys.Pairwise (· < ·)) :
    NodeIndex.new keys = if hsize : maxNodes < keys.length then .error (.tooMany keys.length)
      else .ok ⟨keys, h, not_lt.mp hsize⟩ := by
  have hsorted : keys.insertionSort (· ≤ ·) = keys :=
    List.Pairwise.insertionSort_eq (h.imp fun hlt => le_of_lt hlt)
  unfold NodeIndex.new
  simp only [hsorted, repeats_eq_nil h, dif_pos]

theorem getElem?_searchPosition {keys : List U64} (h : keys.Pairwise (· < ·)) {key : U64}
    (hkey : key ∈ keys) : keys[searchPosition keys key]? = some key := by
  unfold searchPosition
  induction keys with
  | nil => cases hkey
  | cons a l ih =>
    obtain ⟨ha, hl⟩ := List.pairwise_cons.mp h
    rcases List.mem_cons.mp hkey with rfl | hmem
    · rw [List.takeWhile_cons_of_neg (by simp)]
      rfl
    · rw [List.takeWhile_cons_of_pos (by simpa using ha key hmem), List.length_cons,
        List.getElem?_cons_succ]
      exact ih hl hmem

theorem NodeIndex.positions_of_mem (nodes : NodeIndex) {wanted : List U64}
    (h : ∀ key ∈ wanted, key ∈ nodes.keys) :
    nodes.positions wanted = .ok (wanted.map (searchPosition nodes.keys)) := by
  have hmissing : wanted.filter (fun key =>
      nodes.keys[searchPosition nodes.keys key]? ≠ some key) = [] := by
    apply List.filter_eq_nil_iff.mpr
    intro key hkey
    simp [getElem?_searchPosition nodes.ordered (h key hkey)]
  unfold NodeIndex.positions
  simp only
  rw [hmissing]

theorem addEdges_of_mem {builder : AdjacencyBuilder} (hopen : builder.built = false)
    {sources targets : List U64} (hlength : sources.length = targets.length)
    (hsources : ∀ key ∈ sources, key ∈ builder.nodes.keys)
    (htargets : ∀ key ∈ targets, key ∈ builder.nodes.keys) :
    ∃ next, builder.addEdges sources targets = .ok next ∧ next.nodes = builder.nodes ∧
      next.built = false := by
  have hrange : ¬∃ p ∈ (sources.map (searchPosition builder.nodes.keys)).map Int.ofNat ++
      (targets.map (searchPosition builder.nodes.keys)).map Int.ofNat,
        p < 0 ∨ (builder.nodes.keys.length : ℤ) ≤ p := by
    intro hfound
    obtain ⟨p, hp, hout⟩ := hfound
    rw [← List.map_append, ← List.map_append, List.map_map, List.mem_map] at hp
    obtain ⟨key, hkey, rfl⟩ := hp
    have hnode : key ∈ builder.nodes.keys := by
      rcases List.mem_append.mp hkey with hkey | hkey
      · exact hsources key hkey
      · exact htargets key hkey
    have hlt := (List.getElem?_eq_some_iff.mp
      (getElem?_searchPosition builder.nodes.ordered hnode)).1
    simp only [Function.comp_apply, Int.ofNat_eq_natCast] at hout
    omega
  unfold AdjacencyBuilder.addEdges
  rw [builder.nodes.positions_of_mem hsources, builder.nodes.positions_of_mem htargets]
  simp only
  unfold AdjacencyBuilder.addEdgePositions
  rw [if_neg (by simp [hopen]), if_neg (by simp [hlength]), dif_neg hrange]
  exact ⟨_, rfl, rfl, hopen⟩

theorem addAll_of_mem {blocks : List (List U64 × List U64)} {builder : AdjacencyBuilder}
    (hopen : builder.built = false) (hlength : ∀ b ∈ blocks, b.1.length = b.2.length)
    (hnodes : ∀ b ∈ blocks, ∀ key ∈ b.1 ++ b.2, key ∈ builder.nodes.keys) :
    ∃ next, builder.addAll (blocks.map fun b => .keys b.1 b.2) = .ok next := by
  induction blocks generalizing builder with
  | nil => exact ⟨builder, rfl⟩
  | cons b later ih =>
    have hb := hnodes b List.mem_cons_self
    obtain ⟨next, hnext, hsame, hopen'⟩ := addEdges_of_mem hopen (hlength b List.mem_cons_self)
      (fun key hkey => hb key (List.mem_append_left _ hkey))
      (fun key hkey => hb key (List.mem_append_right _ hkey))
    obtain ⟨last, hlast⟩ := ih hopen' (fun c hc => hlength c (List.mem_cons_of_mem _ hc))
      (fun c hc => hsame ▸ hnodes c (List.mem_cons_of_mem _ hc))
    refine ⟨last, ?_⟩
    rw [List.map_cons]
    unfold AdjacencyBuilder.addAll AdjacencyBuilder.add
    simp only
    rw [hnext]
    exact hlast

theorem simpleGraph_congr {edges edges' : List (U64 × U64)} (h : ∀ e, e ∈ edges ↔ e ∈ edges') :
    simpleGraph edges = simpleGraph edges' := by
  ext u w
  unfold simpleGraph
  simp only [h]

end AnalyticsEngine.Embeddings
