import AnalyticsEngine.ExactTopK.Exact
import AnalyticsEngine.Library.CrashLogic
import AnalyticsEngine.Library.RowFile

/-!
# The spool of similar_artists.py

The spool directory, the file operations of `compute_to_spool` in the order it performs them,
and `_copy_rows`. A call reads `meta.json` and `checkpoint.npz` once, at its start, so what it
would do if it were never cut is a list of operations (`computeToSpool`); an attempt performs a
prefix of them (`attempt`). Every cell of the two raw files is four bytes and every offset a
whole number of cells. `vectors` gives equal identities equal scores.
-/

namespace AnalyticsEngine.SimilarArtists
open Library ExactTopK

/-- The `identity` of a call, as `meta.json` records it. -/
structure Identity where
  modelVersion : String
  nArtists : ℕ
  dim : ℕ
  k : ℕ
  blockRows : ℕ
  deriving DecidableEq

structure Meta where
  identity : Identity
  complete : Bool
  deriving DecidableEq

/-- The arrays of `checkpoint.npz`. -/
structure Checkpoint (α : Type*) where
  state : TopKState α
  nextBlock : ℕ

/- A file that is only ever replaced whole: its content and its `.tmp` twin's. -/
structure AtomicFile (γ : Type*) where
  current : Option γ
  tmp : Option γ

inductive AtomicOp (γ : Type*) where
  | unlink
  | writeTmp (content : γ)
  | replace

def AtomicOp.run {γ : Type*} : AtomicOp γ → AtomicFile γ → Option (AtomicFile γ)
  | .unlink, file => some { file with current := none }
  | .writeTmp content, file => some { file with tmp := some content }
  | .replace, file => file.tmp.map fun content => ⟨some content, none⟩

def atomicWrite {γ : Type*} (content : γ) : List (AtomicOp γ) := [.writeTmp content, .replace]

structure Files (α : Type*) where
  positions : Option (List (BitVec 32))
  scores : Option (List (Score α))
  checkpoint : AtomicFile (Checkpoint α)
  metaFile : AtomicFile Meta

def Files.empty {α : Type*} : Files α := ⟨none, none, ⟨none, none⟩, ⟨none, none⟩⟩

inductive Op (α : Type*) where
  | positions (op : FileOp (BitVec 32))
  | scores (op : FileOp (Score α))
  | checkpoint (op : AtomicOp (Checkpoint α))
  | metaFile (op : AtomicOp Meta)

/- One completed file operation, or `none` when it raises. Four zero bytes are the position
`0` and the score `0.0`. -/
def Files.step {α : Type*} [Zero α] (files : Files α) : Op α → Option (Files α)
  | .positions op => (op.run 0#32 files.positions).map fun file => { files with positions := file }
  | .scores op => (op.run (real 0) files.scores).map fun file => { files with scores := file }
  | .checkpoint op => (op.run files.checkpoint).map fun file => { files with checkpoint := file }
  | .metaFile op => (op.run files.metaFile).map fun file => { files with metaFile := file }

section
variable {α : Type*} [Zero α] {files t : Files α}

theorem step_positions {op : FileOp (BitVec 32)}
    (h : files.step (.positions op) = some t) :
    ∃ file, op.run 0#32 files.positions = some file ∧ t = { files with positions := file } := by
  obtain ⟨file, hfile, rfl⟩ := Option.map_eq_some_iff.mp h
  exact ⟨file, hfile, rfl⟩

theorem step_scores {op : FileOp (Score α)}
    (h : files.step (.scores op) = some t) :
    ∃ file, op.run (real 0) files.scores = some file ∧ t = { files with scores := file } := by
  obtain ⟨file, hfile, rfl⟩ := Option.map_eq_some_iff.mp h
  exact ⟨file, hfile, rfl⟩

theorem step_checkpoint {op : AtomicOp (Checkpoint α)}
    (h : files.step (.checkpoint op) = some t) :
    ∃ file, op.run files.checkpoint = some file ∧ t = { files with checkpoint := file } := by
  obtain ⟨file, hfile, rfl⟩ := Option.map_eq_some_iff.mp h
  exact ⟨file, hfile, rfl⟩

theorem step_metaFile {op : AtomicOp Meta}
    (h : files.step (.metaFile op) = some t) :
    ∃ file, op.run files.metaFile = some file ∧ t = { files with metaFile := file } := by
  obtain ⟨file, hfile, rfl⟩ := Option.map_eq_some_iff.mp h
  exact ⟨file, hfile, rfl⟩

end

/-! ### compute_to_spool -/

variable {α : Type*}

def Identity.config (vectors : Identity → ℕ → ℕ → α) (identity : Identity) : Config α where
  n := identity.nArtists
  k := identity.k
  blockRows := identity.blockRows
  score := vectors identity

/- One call: its identity, the order its threads' effects happen in, and the block boundaries at
which `checkpoint_every_s` has passed. -/
structure Call where
  identity : Identity
  schedule : ℕ → List Event
  due : ℕ → Bool

/- The operations of a call that is never cut, and whether it then returns. -/
structure Trace (α : Type*) where
  ops : List (Op α)
  returns : Bool

/-- The start-over path. -/
def startOver (identity : Identity) : List (Op α) :=
  [.positions .unlink, .scores .unlink, .checkpoint .unlink,
   .positions .create, .positions (.truncate (identity.nArtists * identity.k)),
   .scores .create, .scores (.truncate (identity.nArtists * identity.k))] ++
  (atomicWrite ⟨identity, false⟩).map .metaFile

/-- `on_block`, then `after_block`. -/
def blockOps (identity : Identity) (due : ℕ → Bool) (nBlocks : ℕ) (block : BlockCall α) :
    List (Op α) :=
  [.positions (.write (block.rowStart * identity.k) (block.lists.flatMap (·.map Entry.position))),
   .scores (.write (block.rowStart * identity.k) (block.lists.flatMap (·.map Entry.score)))] ++
  if block.nextBlock < nBlocks ∧ due block.nextBlock then
    (atomicWrite ⟨block.state, block.nextBlock⟩).map .checkpoint
  else []

/-- The end of a finished run. -/
def finish (identity : Identity) : List (Op α) :=
  (atomicWrite ⟨identity, true⟩).map .metaFile ++ [.checkpoint .unlink]

section
variable [LinearOrder α]

/- The call from `exact_top_k` on, behind the operations already performed. A zero
`block_rows` divides by zero and a zero `k` leaves nothing to partition by. -/
def runFrom (part : Partition (Entry α)) (vectors : Identity → ℕ → ℕ → α) (call : Call)
    (before : List (Op α)) (startBlock : ℕ) (state : TopKState α) : Option (Trace α) :=
  let cfg := call.identity.config vectors
  if cfg.blockRows = 0 ∨ (cfg.k = 0 ∧ 0 < cfg.n) then some ⟨before, false⟩
  else
    match exactTopK part cfg call.schedule startBlock state with
    | .error _ => some ⟨before, false⟩
    | .ok calls => calls.map fun blocks =>
        ⟨before ++ blocks.flatMap (blockOps call.identity call.due cfg.nBlocks) ++
          finish call.identity, true⟩

/- `compute_to_spool`; `none` when the schedule is not an order of its threads' effects. -/
def computeToSpool (part : Partition (Entry α)) (vectors : Identity → ℕ → ℕ → α) (call : Call)
    (files : Files α) : Option (Trace α) :=
  let sameIdentity := files.metaFile.current.map Meta.identity = some call.identity
  if sameIdentity ∧ files.metaFile.current.map Meta.complete = some true then some ⟨[], true⟩
  else
    match if sameIdentity then files.checkpoint.current else none with
    | some saved => runFrom part vectors call [] saved.nextBlock saved.state
    | none => runFrom part vectors call (startOver call.identity) 0 (TopKState.empty call.identity.k)

/- A call and the number of operations it completes before it is cut, if it is. -/
structure Attempt where
  call : Call
  cut : Option ℕ

variable [Zero α]

def attempt (part : Partition (Entry α)) (vectors : Identity → ℕ → ℕ → α) (a : Attempt)
    (files : Files α) : Option (Files α × Bool) :=
  (computeToSpool part vectors a.call files).map fun trace =>
    match a.cut with
    | some m => ((perform Files.step (trace.ops.take m) files).1, false)
    | none =>
      let done := perform Files.step trace.ops files
      (done.1, done.2 && trace.returns)

/- Every directory a sequence of attempts can leave behind, when each of them meets `Meets` in
the directory it starts in. -/
inductive History (part : Partition (Entry α)) (vectors : Identity → ℕ → ℕ → α)
    (Meets : Files α → Attempt → Prop) : Files α → Prop where
  | empty : History part vectors Meets Files.empty
  | next {files after : Files α} {a : Attempt} {returned : Bool} :
      History part vectors Meets files → Meets files a →
      attempt part vectors a files = some (after, returned) → History part vectors Meets after

end

/-! ### Reading a spool back -/

def readRows {β : Type*} (file : Option (List β)) (k start stop : ℕ) : Option (List (List β)) :=
  file.bind fun cells => reshape k ((cells.drop (start * k)).take ((stop - start) * k))

def readSpool (files : Files α) (k start stop : ℕ) :
    Option (List (List (BitVec 32)) × List (List (Score α))) :=
  (readRows files.positions k start stop).bind fun positions =>
    (readRows files.scores k start stop).map fun scores => (positions, scores)

def copyChunkArtists : ℕ := 20000

structure CopyRow (α : Type*) where
  releaseId : ℤ
  artistId : String
  similarArtistIds : List String
  scores : List (Score α)

/- `artist_ids[int(position)]`: a negative index counts from the end. -/
def artistAt (artistIds : List String) (position : BitVec 32) : Option String :=
  if 0 ≤ position.toInt then artistIds[position.toInt.toNat]?
  else if -position.toInt ≤ artistIds.length then
    artistIds[(artistIds.length + position.toInt).toNat]?
  else none

def copyRow (artistIds : List String) (releaseId : ℤ) (row : ℕ) (positions : List (BitVec 32))
    (scores : List (Score α)) : Option (CopyRow α) :=
  let valid := (positions.zip scores).filter fun slot => slot.1 ≠ emptyPosition
  artistIds[row]?.bind fun artistId =>
    (valid.mapM fun slot => artistAt artistIds slot.1).map fun similarArtistIds =>
      ⟨releaseId, artistId, similarArtistIds, valid.map Prod.snd⟩

def copyChunk (files : Files α) (n k : ℕ) (artistIds : List String) (releaseId : ℤ) (start : ℕ) :
    Option (List (CopyRow α)) :=
  let stop := min (start + copyChunkArtists) n
  (readSpool files k start stop).bind fun rows =>
    (List.range (stop - start)).mapM fun row =>
      rows.1[row]?.bind fun positions => rows.2[row]?.bind fun scores =>
        copyRow artistIds releaseId (start + row) positions scores

def copyRows (files : Files α) (n k : ℕ) (artistIds : List String) (releaseId : ℤ) :
    Option (List (CopyRow α)) :=
  ((List.range ((n + copyChunkArtists - 1) / copyChunkArtists)).mapM fun chunk =>
    copyChunk files n k artistIds releaseId (chunk * copyChunkArtists)).map List.flatten

end AnalyticsEngine.SimilarArtists
