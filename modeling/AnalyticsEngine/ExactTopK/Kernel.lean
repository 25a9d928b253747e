import AnalyticsEngine.Library.KBest
import AnalyticsEngine.Library.Scatter
import Mathlib.Order.WithBot
import Mathlib.Data.Prod.Lex
import Mathlib.Data.BitVec
import Mathlib.Data.List.Dedup

/-!
# The exact top-k kernel (embeddings/exact_top_k.py)

The running lists, the merge of candidates into them, the candidate selection of one block of
scores and the block loop. A score cell is a `float32` that is not `nan`: `-inf`, `_FLOOR`, a
real score, or `+inf`, in this order, with the real scores in any linear order. A position is an
`int32`. The tasks of one row block run concurrently: `Event` is one atomic effect of a task on
the shared state (one threshold copied, or one locked merge), and a schedule is any order of
these in which every task finishes.
-/

namespace AnalyticsEngine.ExactTopK
open Library

/-! ### Score cells and list entries -/

/-- A `float32` score cell. -/
abbrev Score (α : Type*) := WithBot (WithBot (WithTop α))

def negInf {α : Type*} : Score α := ⊥

/- `_FLOOR`: below every real score, above the `-inf` of self and of unfilled slots. -/
def floor {α : Type*} : Score α := ((⊥ : WithBot (WithTop α)) : Score α)

def real {α : Type*} (a : α) : Score α := (((a : WithTop α) : WithBot (WithTop α)) : Score α)

def posInf {α : Type*} : Score α := (((⊤ : WithTop α) : WithBot (WithTop α)) : Score α)

/-- `EMPTY_POSITION`, the `int32` `-1`. -/
def emptyPosition : BitVec 32 := BitVec.ofInt 32 (-1)

/-- `_PAD_POSITION`, the largest `int32`. -/
def padPosition : BitVec 32 := BitVec.ofNat 32 (2 ^ 31 - 1)

def segmentRows : ℕ := 64

def columnSegment : ℕ := 16

/-- `.astype(np.int32)`: the value modulo `2^32`. -/
def toInt32 (x : ℕ) : BitVec 32 := BitVec.ofNat 32 x

@[ext] structure Entry (α : Type*) where
  score : Score α
  position : BitVec 32

/- The order `_rank_keys` packs into one word: score descending, then the position's unsigned
low word ascending. -/
def rankKey {α : Type*} (e : Entry α) : (Score α)ᵒᵈ ×ₗ ℕ :=
  toLex (OrderDual.toDual e.score, e.position.toNat)

theorem rankKey_injective {α : Type*} :
    Function.Injective (rankKey : Entry α → (Score α)ᵒᵈ ×ₗ ℕ) := by
  intro a b h
  have hp := Prod.ext_iff.mp (toLex.injective h)
  exact Entry.ext (OrderDual.toDual.injective hp.1) (BitVec.eq_of_toNat_eq hp.2)

variable {α : Type*} [LinearOrder α]

instance : LinearOrder (Entry α) := LinearOrder.lift' rankKey rankKey_injective

def sortedList (l : List (Entry α)) : List (Entry α) := l.mergeSort (· ≤ ·)

/-! ### The running lists -/

/- `lists r` are the `k` slots of row `r` (its `scores` and `positions` cells, paired) and
`thresholds r` its current `k`-th best score. -/
structure TopKState (α : Type*) where
  lists : ℕ → List (Entry α)
  thresholds : ℕ → Score α

def emptyEntry : Entry α := ⟨negInf, emptyPosition⟩
def padEntry : Entry α := ⟨negInf, padPosition⟩

def TopKState.empty (k : ℕ) : TopKState α where
  lists _ := List.replicate k emptyEntry
  thresholds _ := floor

/-- `best_pos[best_pos == _PAD_POSITION] = EMPTY_POSITION`. -/
def unpad (e : Entry α) : Entry α :=
  if e.position = padPosition then ⟨e.score, emptyPosition⟩ else e

/-- `np.maximum(best_scores.min(axis=-1), _FLOOR)`, for one row. -/
def listThreshold (l : List (Entry α)) : Score α :=
  max ((l.map Entry.score).foldr min posInf) floor

/- The padded rows of `_merge`: the old list, then the candidates scattered behind it by their
slot in the row, then padding up to `k + width`. -/
def paddedRow (k width : ℕ) (old : List (Entry α)) (cands : List (ℕ × Entry α)) (row : ℕ) :
    List (Entry α) :=
  let starts := fun r => ((List.range r).map fun q => (cands.map Prod.fst).count q).sum
  let base : ℕ × ℕ → Entry α := fun cell =>
    if cell.2 < k then old[cell.2]?.getD padEntry else padEntry
  let pad := scatter (fun r slot => (r, k + slot)) starts cands base
  (List.range (k + width)).map fun c => pad (row, c)

/- `_merge`: fold `cands`, sorted by their index into `rows`, into the lists of `rows`. -/
def merge (part : Partition (Entry α)) (k : ℕ) (state : TopKState α) (rows : List ℕ)
    (cands : List (ℕ × Entry α)) : TopKState α :=
  let width := ((List.range rows.length).map fun q => (cands.map Prod.fst).count q).foldr max 0
  let best := fun r =>
    (part.run k (paddedRow k width (state.lists r) cands (rows.idxOf r))).map unpad
  { lists := fun r => if r ∈ rows then best r else state.lists r
    thresholds := fun r => if r ∈ rows then listThreshold (best r) else state.thresholds r }

/-! ### Candidate selection -/

/- The `scores` and `segments` arguments of `_update`: one padded block of scores, as rows whose
lists are updated by columns, and the same block cut into runs of `width` columns. -/
structure View (α : Type*) where
  nRows : ℕ
  nCols : ℕ
  score : ℕ → ℕ → Score α
  width : ℕ
  nSegments : ℕ
  segment : ℕ → ℕ → ℕ → Score α

/-- `scores` with `scores.reshape(scores.shape[0], -1, SEGMENT)`. -/
def rowView (nRows nCols : ℕ) (scores : ℕ → ℕ → Score α) : View α where
  nRows := nRows
  nCols := nCols
  score := scores
  width := segmentRows
  nSegments := nCols / segmentRows
  segment r g t := scores r (g * segmentRows + t)

/-- `scores.T` with `scores.reshape(-1, _COLUMN_SEGMENT, scores.shape[1]).transpose(2, 0, 1)`. -/
def columnView (nRows nCols : ℕ) (scores : ℕ → ℕ → Score α) : View α where
  nRows := nCols
  nCols := nRows
  score c r := scores r c
  width := columnSegment
  nSegments := nRows / columnSegment
  segment c g t := scores (g * columnSegment + t) c

structure Candidate (α : Type*) where
  row : ℕ
  col : ℕ
  score : Score α

/-- `np.partition(full, i)[i]`. -/
def partitionAt (full : List (Score α)) (i : ℕ) : Score α :=
  ((full.mergeSort (· ≤ ·))[i]?).getD negInf

/- The first-sight cut of one row: its block-local `k`-th best score, at least `_FLOOR`. -/
def localCut (k : ℕ) (v : View α) (r : ℕ) : Score α :=
  max (partitionAt ((List.range v.nCols).map (v.score r)) (v.nCols - min k v.nCols)) floor

/- Rows seen for the first time: every column at or above the local cut. -/
def firstSight (k : ℕ) (v : View α) (unfilled : List ℕ) : List (Candidate α) :=
  unfilled.flatMap fun r =>
    ((List.range v.nCols).filter fun c => localCut k v r ≤ v.score r c).map fun c =>
      ⟨r, c, v.score r c⟩

/-- `segments.max(axis=2)`. -/
def segmentMax (v : View α) (r g : ℕ) : Score α :=
  ((List.range v.width).map (v.segment r g)).foldr max negInf

/- The other rows: one maximum per segment, then the scores of the segments that hit. -/
def segmentPass (v : View α) (thresholds : ℕ → Score α) : List (Candidate α) :=
  let hits := (List.range v.nRows).flatMap fun r =>
    ((List.range v.nSegments).filter fun g => thresholds r ≤ segmentMax v r g).map fun g => (r, g)
  hits.flatMap fun h =>
    ((List.range v.width).filter fun t => thresholds h.1 ≤ v.segment h.1 h.2 t).map fun t =>
      ⟨h.1, h.2 * v.width + t, v.segment h.1 h.2 t⟩

/- `_update` up to the lock: the candidates of a block against the thresholds read before, in
row order. -/
def candidates (k : ℕ) (v : View α) (validRows : ℕ) (stale : ℕ → Score α) :
    List (Candidate α) :=
  let thresholds := fun r => if r < validRows then stale r else posInf
  let unfilled := (List.range v.nRows).filter fun r => thresholds r = floor
  let remaining := fun r => if thresholds r = floor then posInf else thresholds r
  (firstSight k v unfilled ++ segmentPass v remaining).mergeSort (fun a b => a.row ≤ b.row)

/-- `_update` under the lock. -/
def applyCandidates (part : Partition (Entry α)) (k : ℕ) (state : TopKState α)
    (rowStart colStart : ℕ) (cands : List (Candidate α)) : TopKState α :=
  if cands.isEmpty then state else
    let touched := (cands.map Candidate.row).dedup
    merge part k state (touched.map (rowStart + ·))
      (cands.map fun c => (touched.idxOf c.row, ⟨c.score, toInt32 (colStart + c.col)⟩))

/-! ### The block loop -/

/-- One call of `exact_top_k` over `n` rows whose block products yield `score`. -/
structure Config (α : Type*) where
  n : ℕ
  k : ℕ
  blockRows : ℕ
  score : ℕ → ℕ → α

namespace Config
variable (cfg : Config α)

def nBlocks : ℕ := (cfg.n + cfg.blockRows - 1) / cfg.blockRows

def validRows (i : ℕ) : ℕ := min (cfg.n - i * cfg.blockRows) cfg.blockRows

def paddedRows (i : ℕ) : ℕ := (cfg.validRows i + segmentRows - 1) / segmentRows * segmentRows

/- `left @ right.T` with padding rows, padding columns and the diagonal set to `-inf`. -/
def blockScores (i j r c : ℕ) : Score α :=
  if cfg.validRows i ≤ r then negInf
  else if cfg.validRows j ≤ c then negInf
  else if j = i ∧ r = c then negInf
  else real (cfg.score (i * cfg.blockRows + r) (j * cfg.blockRows + c))

def rowSide (i j : ℕ) : View α :=
  rowView (cfg.paddedRows i) (cfg.paddedRows j) (cfg.blockScores i j)

def columnSide (i j : ℕ) : View α :=
  columnView (cfg.paddedRows i) (cfg.paddedRows j) (cfg.blockScores i j)

end Config

/-- Which `_update` of a task is next. -/
inductive Side where
  | rows
  | columns
  | done
  deriving DecidableEq

/- A task `(i, j)`: its next update and the thresholds it has copied for it, by local row. -/
structure Task (α : Type*) where
  side : Side
  copied : ℕ → Option (Score α)

def Task.start (side : Side) : Task α := ⟨side, fun _ => none⟩

structure Pool (α : Type*) where
  state : TopKState α
  tasks : ℕ → Task α

/- One atomic effect of task `j`: it copies the threshold of a local row, or runs its merge. -/
inductive Event where
  | read (j r : ℕ)
  | merge (j : ℕ)

def Side.target (i j : ℕ) : Side → ℕ
  | .rows => i
  | _ => j

def Config.taskCandidates (cfg : Config α) (i j : ℕ) (task : Task α) : List (Candidate α) :=
  let stale := fun r => (task.copied r).getD floor
  match task.side with
  | .rows => candidates cfg.k (cfg.rowSide i j) (cfg.validRows i) stale
  | _ => candidates cfg.k (cfg.columnSide i j) (cfg.validRows j) stale

def Config.taskColStart (cfg : Config α) (i j : ℕ) : Side → ℕ
  | .rows => j * cfg.blockRows
  | _ => i * cfg.blockRows

/- The update after this one: a diagonal task has no column side. -/
def Side.next (i j : ℕ) : Side → Side
  | .rows => if j = i then .done else .columns
  | _ => .done

def stepEvent (part : Partition (Entry α)) (cfg : Config α) (i : ℕ) (p : Pool α) :
    Event → Option (Pool α)
  | .read j r =>
    let task := p.tasks j
    let target := task.side.target i j
    if i ≤ j ∧ j < cfg.nBlocks ∧ task.side ≠ .done ∧ r < cfg.validRows target ∧
        task.copied r = none then
      let value := p.state.thresholds (target * cfg.blockRows + r)
      some { p with
        tasks := Function.update p.tasks j
          { task with copied := Function.update task.copied r (some value) } }
    else none
  | .merge j =>
    let task := p.tasks j
    let target := task.side.target i j
    if i ≤ j ∧ j < cfg.nBlocks ∧ task.side ≠ .done ∧
        ∀ r < cfg.validRows target, (task.copied r).isSome then
      some
        { state := applyCandidates part cfg.k p.state (target * cfg.blockRows)
            (cfg.taskColStart i j task.side) (cfg.taskCandidates i j task)
          tasks := Function.update p.tasks j (Task.start (task.side.next i j)) }
    else none

def runEvents (part : Partition (Entry α)) (cfg : Config α) (i : ℕ) :
    Pool α → List Event → Option (Pool α)
  | p, [] => some p
  | p, e :: es => (stepEvent part cfg i p e).bind fun q => runEvents part cfg i q es

def Pool.finished (cfg : Config α) (i : ℕ) (p : Pool α) : Prop :=
  ∀ j < cfg.nBlocks, i ≤ j → (p.tasks j).side = .done

instance (cfg : Config α) (i : ℕ) (p : Pool α) : Decidable (p.finished cfg i) := by
  unfold Pool.finished
  infer_instance

/- Row block `i` under a schedule; `none` when the schedule does not finish its tasks. -/
def runBlock (part : Partition (Entry α)) (cfg : Config α) (i : ℕ) (events : List Event)
    (state : TopKState α) : Option (TopKState α) :=
  (runEvents part cfg i ⟨state, fun _ => Task.start .rows⟩ events).bind fun p =>
    if p.finished cfg i then some p.state else none

/-- The arguments of one `on_block` call and of the `after_block` call behind it. -/
structure BlockCall (α : Type*) where
  rowStart : ℕ
  lists : List (List (Entry α))
  nextBlock : ℕ
  state : TopKState α

def blockCall (cfg : Config α) (i : ℕ) (state : TopKState α) : BlockCall α where
  rowStart := i * cfg.blockRows
  lists := (List.range (cfg.validRows i)).map fun r =>
    sortedList (state.lists (i * cfg.blockRows + r))
  nextBlock := i + 1
  state := state

/-- The row blocks of a call, in order, each under its schedule. -/
def runBlocks (part : Partition (Entry α)) (cfg : Config α) (schedule : ℕ → List Event) :
    List ℕ → TopKState α → Option (List (BlockCall α))
  | [], _ => some []
  | i :: rest, state =>
    (runBlock part cfg i (schedule i) state).bind fun next =>
      (runBlocks part cfg schedule rest next).map fun calls => blockCall cfg i next :: calls

/- `exact_top_k` from `state` at `startBlock`: the calls it makes, in order, or its
`ValueError`; `none` when `schedule` is not an order of its tasks' effects. -/
def exactTopK (part : Partition (Entry α)) (cfg : Config α) (schedule : ℕ → List Event)
    (startBlock : ℕ) (state : TopKState α) : Except String (Option (List (BlockCall α))) :=
  if cfg.blockRows % segmentRows ≠ 0 then
    .error s!"block_rows must be a multiple of {segmentRows}, got {cfg.blockRows}"
  else
    .ok (runBlocks part cfg schedule
      (List.range' startBlock (cfg.nBlocks - startBlock)) state)

end AnalyticsEngine.ExactTopK
