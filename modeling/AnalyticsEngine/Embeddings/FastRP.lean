import AnalyticsEngine.Embeddings.Graph
import AnalyticsEngine.Embeddings.Projection
import Mathlib.Data.Finset.Sort
import Mathlib.Data.Rat.Defs
import Mathlib.Algebra.Order.Ring.Unbundled.Rat

/-!
# insights/embeddings/fastrp.py

The embedding columns are processed in blocks, and a block's rows in slices when there is a
thread pool. With several blocks a first pass sums the squared row norms of every power over all
blocks and a second pass adds the scaled powers; with one block the passes fuse. Arrays that
`np.empty` allocates hold anything, and the writes of a pool's tasks arrive in any order.
-/

namespace AnalyticsEngine.Embeddings
open Library

variable {F D O : Type*}

/-- `FastRPConfig` past `__post_init__`. -/
structure FastRPConfig (ar : Arithmetic F D O) where
  dim : ℕ
  weights : List D
  beta : D
  selfWeight : D
  seed : ℤ
  dim_pos : 1 ≤ dim
  some_weight : ∃ w ∈ weights, ar.isZero w = false

namespace FastRPConfig

variable {ar : Arithmetic F D O} (config : FastRPConfig ar)

def active (k : ℕ) : Bool :=
  match config.weights[k]? with
  | none => false
  | some w => !ar.isZero w

def weight (k : ℕ) : D := config.weights.getD k ar.zero64

def activePowers : List ℕ := (List.range config.weights.length).filter config.active

/- `powers`: the powers past the last non-zero weight are never computed. -/
def powers : ℕ := config.activePowers.foldr max 0 + 1

def hasSelf : Bool := !ar.isZero config.selfWeight

end FastRPConfig

/- One `executor.map`: the pass, the first column of the block, and the power. -/
structure Call where
  pass : ℕ
  start : ℕ
  power : ℕ

/- A thread pool. The tasks of a call write rows of an array from `np.empty`, in some order. -/
structure Executor (F : Type*) where
  run : Call → List (ℕ × (ℕ → F)) → Block F
  spec : ∀ call writes, ∃ junk order, order.Perm writes ∧ run call writes = applyWrites order junk

def taskRows : ℕ := 2 ^ 18

/-! ### _Propagator -/

/-- `np.searchsorted(indptr, target)`. -/
def searchsorted (indptr : List ℕ) (target : ℚ) : ℕ :=
  (indptr.takeWhile fun p : ℕ => (p : ℚ) < target).length

/- The row slices of `_Propagator`; `linspace stop num` are the points of `np.linspace(0, stop,
num)`. -/
def propagatorSlices (linspace : ℕ → ℕ → List ℚ) (transition : Csr F) (threads : ℕ) :
    List (ℕ × ℕ) :=
  let n := transition.rows
  let parts := max (4 * threads) ((n + taskRows - 1) / taskRows)
  let targets := ((linspace transition.nnz (parts + 1)).drop 1).dropLast
  let bounds := 0 ::
    ((targets.map (searchsorted transition.indptr)).toFinset.sort (· ≤ ·) ++ [n])
  (pairwise bounds).filter fun s => s.1 < s.2

/-! ### _fastrp -/

/-- The arguments of `_fastrp`, with the slices of its propagator. -/
structure Job (ar : Arithmetic F D O) where
  transition : Csr F
  config : FastRPConfig ar
  selected : Option (List ℕ)
  blockColumns : ℕ
  projection : Projection F
  executor : Option (Executor F)
  slices : List (ℕ × ℕ)

namespace Job

variable {ar : Arithmetic F D O} (job : Job ar)

def propagate (call : Call) (block : Block F) : Block F :=
  match job.executor with
  | none => job.transition.matmul ar block
  | some executor => executor.run call (sliceWrites job.slices fun s i =>
      (job.transition.slice s.1 s.2).matmul ar block (i - s.1))

def project (call : Call) (start stop : ℕ) : Block F :=
  match job.executor with
  | none => job.projection.columns start stop 0 job.transition.rows
  | some executor => executor.run call (sliceWrites (stepSlices job.transition.rows taskRows)
      fun s i => job.projection.columns start stop s.1 s.2 (i - s.1))

def blocks : List (ℕ × ℕ) := stepSlices job.config.dim job.blockColumns

end Job

def accumulateSquares (ar : Arithmetic F D O) (block : Block F) (columns : ℕ) (total : ℕ → D) :
    ℕ → D :=
  (List.range columns).foldl (fun total j => fun i =>
    ar.add64 (total i) (ar.mul64 (ar.widen (block i j)) (ar.widen (block i j)))) total

def scale (ar : Arithmetic F D O) (weight : D) (squaredNorms : ℕ → D)
    (selected : Option (List ℕ)) : ℕ → F := fun i =>
  let norm := ar.sqrt64 (match selected with
    | none => squaredNorms i
    | some rows => squaredNorms (rows.getD i 0))
  ar.narrow (ar.div64 weight (if ar.isZero norm then ar.one64 else norm))

/- `block += scale[:, None] * current`, or the same of the picked rows. -/
def addScaled (ar : Arithmetic F D O) (selected : Option (List ℕ)) (scale : ℕ → F)
    (current block : Block F) : Block F :=
  match selected with
  | none => fun i j => ar.add (block i j) (ar.mul (scale i) (current i j))
  | some rows =>
    let picked := fun i j => current (rows.getD i 0) j
    fun i j => ar.add (block i j) (ar.mul (picked i j) (scale i))

def outRows (selected : Option (List ℕ)) (n : ℕ) : ℕ :=
  match selected with
  | none => n
  | some rows => rows.length

/-- The sums of the first pass: `sums` by power, and `self_sum`. -/
structure Sums (D : Type*) where
  powers : ℕ → ℕ → D
  self : ℕ → D

def noSums (ar : Arithmetic F D O) : Sums D where
  powers _ _ := ar.zero64
  self _ := ar.zero64

namespace Job

variable {ar : Arithmetic F D O} (job : Job ar)

/- The loop over the powers: `visit k` sees `P^(k + 1)` times the block it started from. -/
def powerLoop {σ : Type*} (pass : ℕ) (start : ℕ) (visit : ℕ → Block F → σ → σ) (current : Block F)
    (acc : σ) : σ :=
  ((List.range job.config.powers).foldl (fun state k =>
    let current := job.propagate ⟨pass, start, k + 1⟩ state.1
    (current, visit k current state.2)) (current, acc)).2

/-- One block of the first pass. -/
def sumBlock (sums : Sums D) (s : ℕ × ℕ) : Sums D :=
  let width := s.2 - s.1
  let current := job.project ⟨1, s.1, 0⟩ s.1 s.2
  let sums := if job.config.hasSelf then
      { sums with self := accumulateSquares ar current width sums.self }
    else sums
  job.powerLoop 1 s.1 (fun k current sums =>
    if job.config.active k then
      let total := accumulateSquares ar current width (sums.powers k)
      { sums with powers := Function.update sums.powers k total }
    else sums) current sums

/-- The first pass. -/
def sums : Sums D := job.blocks.foldl job.sumBlock (noSums ar)

/- The scale of a term: from the first pass, or from the one block there is. -/
def scaleOf (weight : D) (sum : ℕ → D) (current : Block F) (width : ℕ) : ℕ → F :=
  if job.blocks.length = 1 then
    scale ar weight (accumulateSquares ar current width fun _ => ar.zero64) job.selected
  else scale ar weight sum job.selected

/-- One block of the second pass. -/
def embedBlock (sums : Sums D) (s : ℕ × ℕ) : Block F :=
  let width := s.2 - s.1
  let current := job.project ⟨2, s.1, 0⟩ s.1 s.2
  let block : Block F := fun _ _ => ar.zero
  let block := if job.config.hasSelf then addScaled ar job.selected
      (job.scaleOf job.config.selfWeight sums.self current width) current block
    else block
  job.powerLoop 2 s.1 (fun k current block =>
    if job.config.active k then addScaled ar job.selected
      (job.scaleOf (job.config.weight k) (sums.powers k) current width) current block
    else block) current block

/-- `out[:, start:stop] = block`, stored in the output dtype. -/
def storeBlock (sums : Sums D) (out : Block O) (s : ℕ × ℕ) : Block O := fun i j =>
  if s.1 ≤ j ∧ j < s.2 then ar.store (job.embedBlock sums s i (j - s.1)) else out i j

/-- `_fastrp`. -/
def run : Block O :=
  let sums := if job.blocks.length > 1 then job.sums else noSums ar
  job.blocks.foldl (job.storeBlock sums) fun _ _ => ar.store ar.zero

end Job

inductive FastRPError where
  | blocksOrThreads
  | projection (e : ProjectionError)

def FastRPError.message : FastRPError → String
  | .blocksOrThreads => "block_columns and threads must be positive"
  | .projection e => e.message

/- The projection of a run: the given one, or the hashed one of the adjacency's nodes. -/
def projectionOf (ar : Arithmetic F D O) (junk : ℕ → Block F) (adjacency : Adjacency F)
    (config : FastRPConfig ar) (projection : Option (Projection F)) :
    Except FastRPError (Projection F) :=
  match projection with
  | some projection => .ok projection
  | none =>
    match HashedProjection.new ar (fun v => adjacency.nodes.keys.getD v 0) config.seed
        (some adjacency.degree) config.beta with
    | .error e => .error (.projection e)
    | .ok hashed => .ok (hashed.toProjection ar junk)

/- What a run takes from its surroundings: the pool, `np.linspace`, and what `np.empty` holds. -/
structure Surroundings (F : Type*) where
  executor : Executor F
  linspace : ℕ → ℕ → List ℚ
  linspace_mem : ∀ stop num, ∀ x ∈ linspace stop num, 0 ≤ x ∧ x ≤ stop
  junk : ℕ → Block F

/-- The call of `_fastrp`; one thread needs no pool. -/
def fastrpJob {ar : Arithmetic F D O} (env : Surroundings F) (adjacency : Adjacency F)
    (config : FastRPConfig ar) (rows : Option (List ℕ)) (blockColumns : ℕ)
    (projection : Projection F) (threads : ℕ) : Job ar where
  transition := adjacency.transition
  config := config
  selected := rows
  blockColumns := blockColumns
  projection := projection
  executor := if threads = 1 then none else some env.executor
  slices := propagatorSlices env.linspace adjacency.transition threads

def fastrp (ar : Arithmetic F D O) (env : Surroundings F) (adjacency : Adjacency F)
    (config : FastRPConfig ar) (rows : Option (List ℕ)) (blockColumns : ℕ)
    (projection : Option (Projection F)) (threads : ℕ) : Except FastRPError (Block O) :=
  if blockColumns < 1 ∨ threads < 1 then .error .blocksOrThreads
  else
    match projectionOf ar env.junk adjacency config projection with
    | .error e => .error e
    | .ok projection =>
      .ok (fastrpJob env adjacency config rows blockColumns projection threads).run

end AnalyticsEngine.Embeddings
