import AnalyticsEngine.DumpGraph.Main

/-!
# The output of main (scripts/embeddings_from_dump.py)

For each weight of step 0 `main` writes the ids, the degrees and the vectors of the artists, row by
row. What stands beside an id is a matter of the dumps alone (`main_output`).
-/

namespace AnalyticsEngine.DumpGraph
open Library Library.Xml Embeddings

section
variable {F D O M : Type*}

/-- The `Adjacency` of a graph, built or loaded. -/
structure Graph.IsAdjacency (graph : Graph F M) (adjacency : Adjacency F) : Prop where
  nodes : adjacency.nodes = graph.nodes
  transition : adjacency.transition = graph.transition
  degree : ∀ p, (adjacency.degree p : ℤ) = graph.degree.getD p 0

/- The arrays of an output file that its rows are made of. -/
structure Output (O : Type*) where
  artistIds : List String
  degrees : List ℤ
  vectors : Block O

inductive OutputError where
  | positions (error : GraphError)
  | fastrp (error : FastRPError)

/-- One turn of the loop over the weights, with the positions that are looked up before it. -/
def mainOutput (ar : Arithmetic F D O) (env : Surroundings F) (graph : Graph F M)
    (adjacency : Adjacency F) (config : FastRPConfig ar) (blockColumns threads : ℕ) :
    Except OutputError (Output O) :=
  match graph.nodes.positions (graph.artistKeyToId.items.map Prod.fst) with
  | .error e => .error (.positions e)
  | .ok positions =>
    match fastrp ar env adjacency config (some positions) blockColumns none threads with
    | .error e => .error (.fastrp e)
    | .ok vectors => .ok
        { artistIds := graph.artistKeyToId.items.map Prod.snd
          degrees := positions.map fun p => graph.degree.getD p 0
          vectors := vectors }

end

section
variable {F D O τ : Type*} {s : Setting F D O} {lead lead' : Bytes} {root root' : Element}
  {order : SetOrder} {graph : Graph F (Scalars τ)}

theorem exists_ids {items : List (U64 × String)} {nodeKey : Char → Str → U64} {seen : List Str}
    (h : ∀ entry ∈ items, ∃ aid ∈ seen, entry = artistEntry nodeKey aid) :
    ∃ ids : List Str, items = ids.map (artistEntry nodeKey) ∧ ids ⊆ seen := by
  induction items with
  | nil => exact ⟨[], rfl, List.nil_subset _⟩
  | cons entry items ih =>
    obtain ⟨hentry, hitems⟩ := List.forall_mem_cons.mp h
    obtain ⟨aid, haid, rfl⟩ := hentry
    obtain ⟨ids, rfl, hids⟩ := ih hitems
    exact ⟨aid :: ids, rfl, List.cons_subset.mpr ⟨haid, hids⟩⟩

/-- One id for each node of an artist. -/
structure ArtistIds (s : Setting F D O) (root root' : Element) (order : SetOrder) (ids : List Str) :
    Prop where
  seen : ids ⊆ (releaseRecords s root order).artistIds ++ (masterRecords s root').artistIds
  nodup : (ids.map (s.nodeKey 'a')).Nodup
  every : ∀ aid ∈ (releaseRecords s root order).artistIds ++ (masterRecords s root').artistIds,
    s.nodeKey 'a' aid ∈ ids.map (s.nodeKey 'a')

theorem artistIds_of_exact (h : Exact s root root' order graph) :
    ∃ ids, graph.artistKeyToId.items = ids.map (artistEntry s.nodeKey) ∧
      ArtistIds s root root' order ids := by
  obtain ⟨ids, hitems, hseen⟩ := exists_ids h.artists
  have hkeys : graph.artistKeyToId.items.map Prod.fst = ids.map (s.nodeKey 'a') := by
    rw [hitems, List.map_map]
    rfl
  refine ⟨ids, hitems, hseen, ?_, ?_⟩
  · rw [← hkeys]
    exact graph.artistKeyToId.distinct
  · intro aid haid
    rw [← hkeys]
    exact h.every_artist aid haid

/-- The degree of a key in the graph of the records. -/
def recordDegree (s : Setting F D O) (root root' : Element) (order : SetOrder) (key : U64) : ℤ :=
  let releases := releaseRecords s root order
  let masters := masterRecords s root'
  ((recordKeys releases masters).filter ((simpleGraph (allEdges releases masters)).Adj key)).length

theorem degree_position (h : Exact s root root' order graph) {key : U64}
    (hkey : key ∈ graph.nodes.keys) :
    graph.degree.getD (searchPosition graph.nodes.keys key) 0 = recordDegree s root root' order key := by
  have hposition := getElem?_searchPosition graph.nodes.ordered hkey
  rw [h.keys] at hposition ⊢
  rw [List.getD_eq_getElem?_getD, h.degree, List.getElem?_map, hposition]
  rfl

/-! ### The adjacency -/

def recordGraph (s : Setting F D O) (root root' : Element) (order : SetOrder) : SimpleGraph U64 :=
  simpleGraph (allEdges (releaseRecords s root order) (masterRecords s root'))

instance : DecidableRel (recordGraph s root root' order).Adj :=
  inferInstanceAs (DecidableRel (simpleGraph _).Adj)

theorem neighbourColumns_outside {keys : List U64} (g : SimpleGraph U64) [DecidableRel g.Adj] {p : ℕ}
    (hp : keys.length ≤ p) : neighbourColumns keys g p = [] := by
  rw [List.eq_nil_iff_forall_not_mem]
  intro c hc
  obtain ⟨u, w, hu, _⟩ := mem_neighbourColumns.mp hc
  rw [List.getElem?_eq_none hp] at hu
  cases hu

theorem isAdjacency_of_exact (h : Exact s root root' order graph) :
    graph.IsAdjacency (adjacencyOf s.ar graph.nodes (recordGraph s root root' order)) where
  nodes := rfl
  transition := h.transition.symm
  degree p := by
    show ((neighbourColumns graph.nodes.keys (recordGraph s root root' order) p).length : ℤ) = _
    rw [List.getD_eq_getElem?_getD, h.degree, List.getElem?_map, ← h.keys]
    cases hp : graph.nodes.keys[p]? with
    | none =>
      rw [neighbourColumns_outside _ (List.getElem?_eq_none_iff.mp hp)]
      rfl
    | some key =>
      rw [length_neighbourColumns _ hp]
      rfl

/-! ### The vectors -/

section
variable (s : Setting F D O) (root root' : Element) (order : SetOrder) (config : FastRPConfig s.ar)

/-- The vector of a key in the graph of the records. -/
def nodeVector (nodes : NodeIndex) (key : U64) (j : ℕ) : O :=
  let adjacency := adjacencyOf s.ar nodes (recordGraph s root root' order)
  s.ar.store (embedding s.ar adjacency.transition config (defaultBlock adjacency config)
    (searchPosition nodes.keys key) j)

end

theorem fastrp_default (ar : Arithmetic F D O) (env : Surroundings F) (adjacency : Adjacency F)
    {config : FastRPConfig ar} (hseed : 0 ≤ config.seed ∧ config.seed < 2 ^ 64) {positions : List ℕ}
    (hpositions : ∀ p ∈ positions, p < adjacency.nodes.keys.length) {blockColumns threads : ℕ}
    (hblockColumns : 1 ≤ blockColumns) (hthreads : 1 ≤ threads) :
    ∃ vectors, fastrp ar env adjacency config (some positions) blockColumns none threads =
        .ok vectors ∧
      ∀ i p, positions[i]? = some p → ∀ j < config.dim, vectors i j =
        ar.store (embedding ar adjacency.transition config (defaultBlock adjacency config) p j) := by
  obtain ⟨projection, hprojection, hindependent⟩ := projectionOf_default env.junk adjacency hseed
  obtain ⟨hslices, hslices_le⟩ := propagatorSlices_rows env adjacency.valid threads
  have hrows : ∀ selected, some positions = some selected → ∀ v ∈ selected,
      v < adjacency.transition.rows := by
    intro selected heq v hv
    cases heq
    rw [adjacency.square]
    exact hpositions v hv
  refine ⟨(fastrpJob env adjacency config (some positions) blockColumns projection threads).run, ?_, ?_⟩
  · unfold fastrp
    rw [if_neg (by omega), hprojection]
  · intro i p hp j hj
    have hi : i < outRows (some positions) adjacency.transition.rows :=
      (List.getElem?_eq_some_iff.mp hp).1
    have hrow : Embeddings.rowOf (some positions) i = p := by
      unfold Embeddings.rowOf
      simp only [List.getD_eq_getElem?_getD, hp, Option.getD_some]
    rw [← hrow]
    exact Job.run_entry ⟨adjacency.valid, hindependent, hslices, hslices_le, hrows, hblockColumns⟩ hi hj

/-- What `main` writes from a graph of the records. -/
theorem output_of_exact (h : Exact s root root' order graph) {config : FastRPConfig s.ar}
    (hseed : 0 ≤ config.seed ∧ config.seed < 2 ^ 64) (env : Surroundings F) {blockColumns threads : ℕ}
    (hblockColumns : 1 ≤ blockColumns) (hthreads : 1 ≤ threads) :
    ∃ adjacency, graph.IsAdjacency adjacency ∧ ∃ (ids : List Str) (vectors : Block O),
      ArtistIds s root root' order ids ∧
      mainOutput s.ar env graph adjacency config blockColumns threads = .ok
        { artistIds := ids.map String.ofList
          degrees := ids.map fun aid => recordDegree s root root' order (s.nodeKey 'a' aid)
          vectors := vectors } ∧
      ∀ i aid, ids[i]? = some aid → ∀ j < config.dim,
        vectors i j = nodeVector s root root' order config graph.nodes (s.nodeKey 'a' aid) j := by
  obtain ⟨ids, hitems, hids⟩ := artistIds_of_exact h
  have hkeys : graph.artistKeyToId.items.map Prod.fst = ids.map (s.nodeKey 'a') := by
    rw [hitems, List.map_map]
    rfl
  have hnames : graph.artistKeyToId.items.map Prod.snd = ids.map String.ofList := by
    rw [hitems, List.map_map]
    rfl
  have hnodes : ∀ key ∈ ids.map (s.nodeKey 'a'), key ∈ graph.nodes.keys := by
    intro key hkey
    obtain ⟨aid, haid, rfl⟩ := List.mem_map.mp hkey
    exact h.artists_nodes (artistEntry s.nodeKey aid) (hitems ▸ List.mem_map_of_mem haid)
  have hpositions : ∀ p ∈ (ids.map (s.nodeKey 'a')).map (searchPosition graph.nodes.keys),
      p < graph.nodes.keys.length := by
    intro p hp
    obtain ⟨key, hkey, rfl⟩ := List.mem_map.mp hp
    have hfound := getElem?_searchPosition graph.nodes.ordered (hnodes key hkey)
    exact (List.getElem?_eq_some_iff.mp hfound).1
  have hdegrees : ((ids.map (s.nodeKey 'a')).map (searchPosition graph.nodes.keys)).map
      (fun p => graph.degree.getD p 0) =
        ids.map fun aid => recordDegree s root root' order (s.nodeKey 'a' aid) := by
    rw [List.map_map, List.map_map]
    refine List.map_congr_left fun aid haid => ?_
    exact degree_position h (hnodes _ (List.mem_map_of_mem haid))
  obtain ⟨vectors, hfastrp, hentries⟩ := fastrp_default s.ar env
    (adjacencyOf s.ar graph.nodes (recordGraph s root root' order)) hseed hpositions hblockColumns
    hthreads
  refine ⟨_, isAdjacency_of_exact h, ids, vectors, hids, ?_, fun i aid haid j hj => ?_⟩
  · unfold mainOutput
    rw [hkeys, graph.nodes.positions_of_mem hnodes]
    dsimp only
    rw [hfastrp, hdegrees, hnames]
  · apply hentries i _ _ j hj
    rw [List.getElem?_map, List.getElem?_map, haid]
    rfl

theorem nodeIndex_eq {a b : NodeIndex} (h : a.keys = b.keys) : a = b := by
  cases a
  cases b
  cases h
  rfl

/-- The ids, degrees and vectors that `main` writes depend on the dumps alone: not on the processes
that came before, the checkpoints, the chunks, the order of any set, the threads or the width of the
column blocks. -/
theorem main_output (hread : Readable s lead lead' root root') (order : SetOrder) :
    ∃ vector : FastRPConfig s.ar → U64 → ℕ → O,
      ∀ (w : World F τ) (args : Args) (graph : Graph F (Scalars τ)),
      Reachable (World.wholeStep s) .initial w → w.process = some (args, .ready graph) →
      ∀ (config : FastRPConfig s.ar) (env : Surroundings F) (blockColumns threads : ℕ),
      0 ≤ config.seed ∧ config.seed < 2 ^ 64 → 1 ≤ blockColumns → 1 ≤ threads →
      ∃ adjacency, graph.IsAdjacency adjacency ∧ ∃ (ids : List Str) (vectors : Block O),
        ArtistIds s root root' order ids ∧
        mainOutput s.ar env graph adjacency config blockColumns threads = .ok
          { artistIds := ids.map String.ofList
            degrees := ids.map fun aid => recordDegree s root root' order (s.nodeKey 'a' aid)
            vectors := vectors } ∧
        ∀ i aid, ids[i]? = some aid → ∀ j < config.dim,
          vectors i j = vector config (s.nodeKey 'a' aid) j := by
  by_cases hfits :
      (recordKeys (releaseRecords s root order) (masterRecords s root')).length ≤ maxNodes
  · let nodes : NodeIndex := ⟨_, recordKeys_ordered _ _, hfits⟩
    refine ⟨fun config => nodeVector s root root' order config nodes, ?_⟩
    intro w args graph hreach hready config env blockColumns threads hseed hblockColumns hthreads
    have hexact : Exact s root root' order graph :=
      (sound_reachable hread hreach).process args (.ready graph) hready
    have hnodes : graph.nodes = nodes := nodeIndex_eq hexact.keys
    rw [← hnodes]
    exact output_of_exact hexact hseed env hblockColumns hthreads
  · refine ⟨fun _ _ _ => s.ar.store s.ar.zero, ?_⟩
    intro w args graph hreach hready
    have hexact : Exact s root root' order graph :=
      (sound_reachable hread hreach).process args (.ready graph) hready
    exact absurd (hexact.keys ▸ graph.nodes.bounded) hfits

end

end AnalyticsEngine.DumpGraph
