import AnalyticsEngine.Embeddings.Edges
import AnalyticsEngine.Embeddings.Exact
import Mathlib.Combinatorics.SimpleGraph.Walk.Basic

/-!
# A vector depends on its neighbourhood alone

By key, a step of the propagation sums the neighbours in key order and positions are gone
(`propagated_key`). So `P^k R` at a vertex reads the rows of the vertices fewer than `k` hops away
(`keyPropagated_local`), and with `beta = 0` two graphs that agree there give it one vector.
-/

namespace AnalyticsEngine.Embeddings
open Library

variable {F D O : Type*}

/-! ### Propagation by key -/

section
variable (ar : Arithmetic F D O) (keys : List U64) (g : SimpleGraph U64) [DecidableRel g.Adj]

def neighbours (u : U64) : List U64 := keys.filter fun w => g.Adj u w

/-- `P^k R` with rows named by key. -/
def keyPropagated (r : U64 → ℕ → F) : ℕ → U64 → ℕ → F
  | 0 => r
  | k + 1 => fun u j => (neighbours keys g u).foldl (fun sum w =>
      ar.add sum (ar.mul (inverseDegree ar (neighbours keys g u).length)
        (keyPropagated r k w j))) ar.zero

end

section
variable {ar : Arithmetic F D O} {keys : List U64} {g : SimpleGraph U64} [DecidableRel g.Adj]

theorem neighbourColumns_keys {p : ℕ} {u : U64} (hp : keys[p]? = some u) :
    (neighbourColumns keys g p).map (fun c => keys.getD c 0) = neighbours keys g u := by
  unfold neighbours
  conv_rhs => rw [← map_getD_range keys 0, List.filter_map]
  unfold neighbourColumns
  congr 1
  apply List.filter_congr
  intro c hc
  have hc' := List.mem_range.mp hc
  simp [hp, hc']

/-- Renumbering does not show: the row of a key folds over its neighbours in key order. -/
theorem propagated_key {nodes : NodeIndex} {block : Block F} {r : U64 → ℕ → F}
    (hblock : ∀ p j, block p j = r (nodes.keys.getD p 0) j) (k : ℕ) {p : ℕ} {u : U64}
    (hp : nodes.keys[p]? = some u) (j : ℕ) :
    propagated ar (adjacencyOf ar nodes g).transition block k p j =
      keyPropagated ar nodes.keys g r k u j := by
  induction k generalizing p u with
  | zero =>
    unfold propagated keyPropagated
    rw [hblock, List.getD_eq_getElem?_getD, hp, Option.getD_some]
  | succ k ih =>
    have hlt := (List.getElem?_eq_some_iff.mp hp).1
    have hrows : p < (graphRows ar nodes.keys g).length := by
      unfold graphRows
      rw [List.length_map, List.length_range]
      exact hlt
    have hentries : (adjacencyOf ar nodes g).transition.entries p =
        (neighbourColumns nodes.keys g p).map fun c =>
          (c, inverseDegree ar (neighbourColumns nodes.keys g p).length) := by
      unfold adjacencyOf
      simp only
      rw [Csr.entries_ofRows hrows]
      simp [graphRows]
    unfold propagated keyPropagated
    unfold Csr.matmul
    rw [hentries, List.foldl_map, ← neighbourColumns_keys hp, List.foldl_map, List.length_map]
    apply List.foldl_ext
    intro sum c hc
    obtain ⟨_, w, _, hw, _⟩ := mem_neighbourColumns.mp hc
    rw [ih hw, List.getD_eq_getElem?_getD, hw, Option.getD_some]

end

/-! ### Locality -/

section
variable {keys keys' : List U64} {g g' : SimpleGraph U64} [DecidableRel g.Adj] [DecidableRel g'.Adj]

theorem neighbours_congr (hkeys : keys.Pairwise (· < ·)) (hkeys' : keys'.Pairwise (· < ·))
    (hends : ∀ u w, g.Adj u w → w ∈ keys) (hends' : ∀ u w, g'.Adj u w → w ∈ keys') {u : U64}
    (hsame : g.neighborSet u = g'.neighborSet u) : neighbours keys g u = neighbours keys' g' u := by
  have hadj : ∀ w, g.Adj u w ↔ g'.Adj u w := fun w => Set.ext_iff.mp hsame w
  unfold neighbours
  apply List.Pairwise.eq_of_mem_iff (hkeys.filter _) (hkeys'.filter _)
  intro w
  rw [List.mem_filter, List.mem_filter, decide_eq_true_iff, decide_eq_true_iff, hadj w]
  constructor
  · exact fun h => ⟨hends' u w h.2, h.2⟩
  · exact fun h => ⟨hends u w ((hadj w).mpr h.2), h.2⟩

/-- `P^k R` at `v` reads the neighbours of the vertices fewer than `k` hops from `v`. -/
theorem keyPropagated_local {ar : Arithmetic F D O} {r : U64 → ℕ → F} {k : ℕ} {v : U64}
    (hsame : ∀ u, ∀ walk : g.Walk v u, walk.length < k → neighbours keys g u = neighbours keys' g' u)
    (j : ℕ) : keyPropagated ar keys g r k v j = keyPropagated ar keys' g' r k v j := by
  induction k generalizing v with
  | zero => rfl
  | succ k ih =>
    have hv := hsame v SimpleGraph.Walk.nil (Nat.succ_pos k)
    unfold keyPropagated
    rw [← hv]
    apply List.foldl_ext
    intro sum w hw
    have hadj : g.Adj v w := of_decide_eq_true (List.mem_filter.mp hw).2
    -- a walk from the neighbour is one hop longer from `v`
    rw [ih]
    intro u walk hlength
    exact hsame u (SimpleGraph.Walk.cons hadj walk) (Nat.succ_lt_succ hlength)

end

theorem embedding_congr {ar : Arithmetic F D O} {config : FastRPConfig ar} {m m' : Csr F}
    {r r' : Block F} {v v' : ℕ} (hown : r v = r' v')
    (hpowers : ∀ k < config.weights.length,
      propagated ar m r (k + 1) v = propagated ar m' r' (k + 1) v') (j : ℕ) :
    embedding ar m config r v j = embedding ar m' config r' v' j := by
  have hnormalized : ∀ {x x' : Block F}, x v = x' v' → ∀ w,
      normalized ar config w x v j = normalized ar config w x' v' j := by
    intro x x' hx w
    unfold normalized rowScale addSquare
    rw [hx]
  unfold embedding summands
  rw [hnormalized hown]
  congr 2
  apply List.map_congr_left
  intro k hk
  exact hnormalized (hpowers k (List.mem_range.mp (List.mem_of_mem_filter hk))) _

structure Execution (F : Type*) where
  env : Surroundings F
  rows : Option (List ℕ)
  blockColumns : ℕ
  threads : ℕ
  blockColumns_pos : 1 ≤ blockColumns
  threads_pos : 1 ≤ threads

def Execution.fastrp (ar : Arithmetic F D O) (run : Execution F) (adjacency : Adjacency F)
    (config : FastRPConfig ar) : Except FastRPError (Block O) :=
  Embeddings.fastrp ar run.env adjacency config run.rows run.blockColumns none run.threads

def hashedRow (ar : Arithmetic F D O) (config : FastRPConfig ar) (key : U64) (column : ℕ) : F :=
  hashedEntry ar (Fin.ofNat (2 ^ 64) config.seed.toNat) key none column

theorem execution_entry {ar : Arithmetic F D O} (run : Execution F) (adjacency : Adjacency F)
    {config : FastRPConfig ar} (hbeta : ar.isZero config.beta = true)
    (hseed : 0 ≤ config.seed ∧ config.seed < 2 ^ 64)
    (hrows : ∀ selected, run.rows = some selected → ∀ v ∈ selected, v < adjacency.transition.rows) :
    ∃ out, run.fastrp ar adjacency config = .ok out ∧
      ∀ i < outRows run.rows adjacency.transition.rows, ∀ j < config.dim,
        out i j = ar.store (embedding ar adjacency.transition config
          (fun p => hashedRow ar config (adjacency.nodes.keys.getD p 0)) (rowOf run.rows i) j) := by
  have hblock : defaultBlock adjacency config =
      fun p => hashedRow ar config (adjacency.nodes.keys.getD p 0) := by
    unfold defaultBlock defaultScale hashedRow
    simp only [hbeta, if_true]
  obtain ⟨p, hp, hindependent⟩ := projectionOf_default run.env.junk adjacency hseed
  rw [hblock] at hindependent
  exact (fastrp_exact ar run.env adjacency config run.rows none run.blockColumns run.threads
    run.blockColumns_pos run.threads_pos hrows hp _ hindependent).2

/-- Two graphs in which the vertices within `len(weights) - 1` hops of `v` have the same
neighbours give `v` the same vector. -/
theorem fastrp_local (ar : Arithmetic F D O) (config : FastRPConfig ar)
    (hbeta : ar.isZero config.beta = true) (hseed : 0 ≤ config.seed ∧ config.seed < 2 ^ 64)
    {junk₁ junk₂ : ℕ → ℕ} {keys₁ keys₂ : List U64} {stream₁ stream₂ : List EdgeBlock}
    {adjacency₁ adjacency₂ : Adjacency F}
    (hbuild₁ : buildGraph ar junk₁ keys₁ stream₁ = .ok adjacency₁)
    (hbuild₂ : buildGraph ar junk₂ keys₂ stream₂ = .ok adjacency₂) (run₁ run₂ : Execution F)
    (hrows₁ : ∀ selected, run₁.rows = some selected → ∀ v ∈ selected, v < adjacency₁.transition.rows)
    (hrows₂ : ∀ selected, run₂.rows = some selected → ∀ v ∈ selected, v < adjacency₂.transition.rows)
    (v : U64)
    (hsame : ∀ u, ∀ walk : (streamGraph keys₁ stream₁).Walk v u,
      walk.length ≤ config.weights.length - 1 →
        (streamGraph keys₁ stream₁).neighborSet u = (streamGraph keys₂ stream₂).neighborSet u) :
    ∃ out₁ out₂, run₁.fastrp ar adjacency₁ config = .ok out₁ ∧
      run₂.fastrp ar adjacency₂ config = .ok out₂ ∧
      ∀ i₁ < outRows run₁.rows adjacency₁.transition.rows,
        ∀ i₂ < outRows run₂.rows adjacency₂.transition.rows,
          adjacency₁.nodes.keys[rowOf run₁.rows i₁]? = some v →
            adjacency₂.nodes.keys[rowOf run₂.rows i₂]? = some v →
              ∀ j < config.dim, out₁ i₁ j = out₂ i₂ j := by
  obtain ⟨nodes₁, _, rfl, hends₁⟩ := buildGraph_eq hbuild₁
  obtain ⟨nodes₂, _, rfl, hends₂⟩ := buildGraph_eq hbuild₂
  obtain ⟨out₁, hout₁, hentry₁⟩ := execution_entry run₁ _ hbeta hseed hrows₁
  obtain ⟨out₂, hout₂, hentry₂⟩ := execution_entry run₂ _ hbeta hseed hrows₂
  refine ⟨out₁, out₂, hout₁, hout₂, ?_⟩
  intro i₁ hi₁ i₂ hi₂ hv₁ hv₂ j hj
  have hkey₁ : nodes₁.keys[rowOf run₁.rows i₁]? = some v := hv₁
  have hkey₂ : nodes₂.keys[rowOf run₂.rows i₂]? = some v := hv₂
  rw [hentry₁ i₁ hi₁ j hj, hentry₂ i₂ hi₂ j hj]
  apply congrArg ar.store
  apply embedding_congr
  · unfold adjacencyOf
    simp only [List.getD_eq_getElem?_getD, hkey₁, hkey₂]
  · intro k hk
    funext c
    refine (propagated_key (r := hashedRow ar config) (fun _ _ => rfl) (k + 1) hkey₁ c).trans
      (Eq.trans ?_ (propagated_key (r := hashedRow ar config) (fun _ _ => rfl) (k + 1) hkey₂ c).symm)
    apply keyPropagated_local
    intro u walk hlength
    exact neighbours_congr nodes₁.ordered nodes₂.ordered hends₁ hends₂ (hsame u walk (by omega))

/-! ### A path and a longer path -/

def twoHops : FastRPConfig integerArithmetic where
  dim := 2
  weights := [1, 2]
  beta := 0
  selfWeight := 1
  seed := 20260924
  dim_pos := by decide
  some_weight := ⟨1, by decide, rfl⟩

/- `5 - 7 - 9`. -/
def shortPath : List EdgeBlock := [.keys [5] [7], .keys [9] [7]]

/- `5 - 7 - 9 - 11` beside the lone vertex `3`. -/
def longPath : List EdgeBlock := [.positions [3, 0, 1] [4, 0, 2], .keys [9, 7] [7, 9]]

def wholeRun : Execution ℤ := ⟨inOrder, none, 1, 1, by decide, by decide⟩

theorem threeThreads_pos : 1 ≤ 3 := by decide

def pickedRun : Execution ℤ := ⟨inOrder, some [4, 1], 2, 3, by decide, threeThreads_pos⟩

theorem shortPath_adj (u w : U64) : (streamGraph [9, 5, 7] shortPath).Adj u w ↔
    u ≠ w ∧ (((u, w) = (5, 7) ∨ (u, w) = (9, 7)) ∨ ((w, u) = (5, 7) ∨ (w, u) = (9, 7))) := by
  simp [streamGraph, simpleGraph, shortPath, EdgeBlock.edges]

theorem longPath_adj (u w : U64) : (streamGraph [3, 11, 5, 7, 9] longPath).Adj u w ↔
    u ≠ w ∧ ((u, w) ∈ [(9, 11), (3, 3), (5, 7), (9, 7), (7, 9)] ∨
      (w, u) ∈ [((9 : U64), (11 : U64)), (3, 3), (5, 7), (9, 7), (7, 9)]) := by
  have hedges : longPath.flatMap (EdgeBlock.edges ([3, 11, 5, 7, 9].insertionSort (· ≤ ·))) =
      [(9, 11), (3, 3), (5, 7), (9, 7), (7, 9)] := by decide
  unfold streamGraph
  rw [hedges]
  rfl

theorem fastrp_local_path : ∃ adjacency₁ adjacency₂ out₁ out₂,
    buildGraph integerArithmetic (fun _ => 4) [9, 5, 7] shortPath = .ok adjacency₁ ∧
      buildGraph integerArithmetic (fun _ => 0) [3, 11, 5, 7, 9] longPath = .ok adjacency₂ ∧
        wholeRun.fastrp integerArithmetic adjacency₁ twoHops = .ok out₁ ∧
          pickedRun.fastrp integerArithmetic adjacency₂ twoHops = .ok out₂ ∧
            out₁ 0 1 = out₂ 1 1 := by
  obtain ⟨adjacency₁, hbuild₁, hrows₁, hkey₁⟩ : ∃ adjacency,
      buildGraph integerArithmetic (fun _ => 4) [9, 5, 7] shortPath = .ok adjacency ∧
        adjacency.transition.rows = 3 ∧ adjacency.nodes.keys[0]? = some 5 := ⟨_, rfl, rfl, rfl⟩
  obtain ⟨adjacency₂, hbuild₂, hrows₂, hkey₂⟩ : ∃ adjacency,
      buildGraph integerArithmetic (fun _ => 0) [3, 11, 5, 7, 9] longPath = .ok adjacency ∧
        adjacency.transition.rows = 5 ∧ adjacency.nodes.keys[1]? = some 5 := ⟨_, rfl, rfl, rfl⟩
  have hsame : ∀ u, ∀ walk : (streamGraph [9, 5, 7] shortPath).Walk 5 u, walk.length ≤ 1 →
      (streamGraph [9, 5, 7] shortPath).neighborSet u =
        (streamGraph [3, 11, 5, 7, 9] longPath).neighborSet u := by
    intro u walk hlength
    -- one hop from `5` only leads to `7`
    have hu : u = 5 ∨ u = 7 := by
      cases walk with
      | nil => exact Or.inl rfl
      | cons hadj walk =>
        cases walk with
        | nil =>
          have := (shortPath_adj _ _).mp hadj
          simp at this
          exact Or.inr this.2
        | cons hadj' walk =>
          simp at hlength
    ext w
    rw [SimpleGraph.mem_neighborSet, SimpleGraph.mem_neighborSet, shortPath_adj, longPath_adj]
    rcases hu with rfl | rfl
    · simp
    · grind
  have hselected : ∀ selected, pickedRun.rows = some selected → ∀ v ∈ selected,
      v < adjacency₂.transition.rows := by
    rw [hrows₂]
    intro selected heq
    cases heq
    decide
  obtain ⟨out₁, out₂, hout₁, hout₂, hentry⟩ := fastrp_local integerArithmetic twoHops rfl (by decide)
    hbuild₁ hbuild₂ wholeRun pickedRun (fun _ h => by cases h) hselected 5 hsame
  refine ⟨adjacency₁, adjacency₂, out₁, out₂, hbuild₁, hbuild₂, hout₁, hout₂, ?_⟩
  have h₁ : 0 < outRows wholeRun.rows adjacency₁.transition.rows := by
    rw [hrows₁]
    decide
  have h₂ : 1 < outRows pickedRun.rows adjacency₂.transition.rows := Nat.one_lt_two
  exact hentry 0 h₁ 1 h₂ hkey₁ hkey₂ 1 (by decide)

end AnalyticsEngine.Embeddings
