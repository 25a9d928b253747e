import AnalyticsEngine.SimilarArtists.Spool

/-!
# What an interrupted history leaves behind

`SpoolInv` is what every directory keeps: a complete spool holds the exact lists, and a
checkpoint beside an incomplete one is the state of the kernel at a block boundary whose rows are
already on disk. The second half holds file by file, because a start-over that is cut may have
removed the files and kept the checkpoint; a resumed run then raises at its first row write.
Each group of operations has a crash triple with `SpoolInv` as its crash condition.
-/

namespace AnalyticsEngine.SimilarArtists
open Library ExactTopK

/-! ### Rows on disk -/

section
variable {α β : Type*}

/-- The file, where it exists, is whole and holds the rows of the first `i` blocks. -/
def Held (cfg : Config α) (row : ℕ → List β) (i : ℕ) (file : Option (List β)) : Prop :=
  ∀ cells, file = some cells → cells.length = cfg.n * cfg.k ∧
    HoldsRows cfg.k row (min cfg.n (i * cfg.blockRows)) cells

theorem held_truncated (cfg : Config α) (row : ℕ → List β) (zero : β) (cells : List β) :
    Held cfg row 0 (some (resize zero (cfg.n * cfg.k) cells)) := by
  intro truncated h
  cases h
  rw [Nat.zero_mul, Nat.min_zero]
  exact ⟨length_resize _ _ _, holdsRows_zero _⟩

theorem Held.mono {cfg : Config α} {row : ℕ → List β} (hrow : ∀ r, (row r).length = cfg.k)
    {i j : ℕ} {file : Option (List β)} (h : Held cfg row i file) (hj : j ≤ i) :
    Held cfg row j file := by
  intro cells hcells
  obtain ⟨hlen, hrows⟩ := h cells hcells
  have hle : j * cfg.blockRows ≤ i * cfg.blockRows := Nat.mul_le_mul_right _ hj
  exact ⟨hlen, hrows.mono hrow (by omega)⟩

theorem lt_nBlocks {cfg : Config α} (hB : 0 < cfg.blockRows) {i : ℕ} (hi : i < cfg.nBlocks) :
    i * cfg.blockRows < cfg.n := by
  unfold Config.nBlocks at hi
  have h := (Nat.le_div_iff_mul_le hB).mp (Nat.succ_le_of_lt hi)
  rw [Nat.succ_mul] at h
  omega

theorem held_write {cfg : Config α} {row : ℕ → List β} (hrow : ∀ r, (row r).length = cfg.k)
    (hB : 0 < cfg.blockRows) (zero : β) {i : ℕ} (hi : i < cfg.nBlocks) {file t : Option (List β)}
    (h : Held cfg row i file)
    (hstep : (FileOp.write (i * cfg.blockRows * cfg.k)
      ((List.range (cfg.validRows i)).flatMap fun r => row (i * cfg.blockRows + r))).run zero file =
        some t) : Held cfg row (i + 1) t ∧ t.isSome := by
  obtain ⟨cells, rfl, rfl⟩ := Option.map_eq_some_iff.mp hstep
  refine ⟨?_, rfl⟩
  intro written hwritten
  cases hwritten
  obtain ⟨hlen, hrows⟩ := h cells rfl
  have hlt := lt_nBlocks hB hi
  have hfit : i * cfg.blockRows + cfg.validRows i ≤ cfg.n := by
    unfold Config.validRows
    omega
  have hcells : (i * cfg.blockRows + cfg.validRows i) * cfg.k ≤ cfg.n * cfg.k :=
    Nat.mul_le_mul_right _ hfit
  have hdata := length_rows (fun r => hrow (i * cfg.blockRows + r)) (cfg.validRows i)
  rw [Nat.add_mul] at hcells
  rw [Nat.min_eq_right hlt.le] at hrows
  constructor
  · rw [length_overwrite zero (by omega), hlen]
  · have hdone : min cfg.n ((i + 1) * cfg.blockRows) = i * cfg.blockRows + cfg.validRows i := by
      unfold Config.validRows
      rw [Nat.succ_mul]
      omega
    rw [hdone]
    exact holdsRows_overwrite hrow zero hrows (by omega)

end

variable {α : Type*} [LinearOrder α]

def positionRow (cfg : Config α) (r : ℕ) : List (BitVec 32) :=
  (exactList cfg.n cfg.k cfg.score r).map Entry.position

def scoreRow (cfg : Config α) (r : ℕ) : List (Score α) :=
  (exactList cfg.n cfg.k cfg.score r).map Entry.score

theorem length_positionRow (cfg : Config α) (r : ℕ) : (positionRow cfg r).length = cfg.k := by
  unfold positionRow
  rw [List.length_map, length_exactList]

theorem length_scoreRow (cfg : Config α) (r : ℕ) : (scoreRow cfg r).length = cfg.k := by
  unfold scoreRow
  rw [List.length_map, length_exactList]

/-! ### The invariant -/

def HeldBoth (cfg : Config α) (i : ℕ) (files : Files α) : Prop :=
  Held cfg (positionRow cfg) i files.positions ∧ Held cfg (scoreRow cfg) i files.scores

def Present (files : Files α) : Prop := files.positions.isSome ∧ files.scores.isSome

structure Resumable (cfg : Config α) (files : Files α) (saved : Checkpoint α) : Prop where
  more : saved.nextBlock < cfg.nBlocks
  boundary : cfg.Boundary saved.nextBlock saved.state
  held : HeldBoth cfg saved.nextBlock files

structure Finished (cfg : Config α) (files : Files α) : Prop where
  k_pos : 0 < cfg.k
  rows_pos : 0 < cfg.blockRows
  present : Present files
  held : HeldBoth cfg cfg.nBlocks files

theorem Finished.frame {cfg : Config α} {files t : Files α} (h : Finished cfg files)
    (hpositions : t.positions = files.positions) (hscores : t.scores = files.scores) :
    Finished cfg t := by
  obtain ⟨hk, hB, hpresent, hheld⟩ := h
  refine ⟨hk, hB, ?_, ?_⟩
  · unfold Present
    rwa [hpositions, hscores]
  · unfold HeldBoth
    rwa [hpositions, hscores]

/-- What every directory keeps. -/
def SpoolInv (vectors : Identity → ℕ → ℕ → α) (files : Files α) : Prop :=
  ∀ m, files.metaFile.current = some m →
    (m.complete = true → 0 < m.identity.nArtists →
      Finished (m.identity.config vectors) files) ∧
    (m.complete = false → ∀ saved, files.checkpoint.current = some saved →
      Resumable (m.identity.config vectors) files saved)

/- In the middle of a run of `identity`: the positions of the first `i` blocks are on disk, and
the scores of the first `j`. -/
structure Running (vectors : Identity → ℕ → ℕ → α) (identity : Identity) (i j : ℕ)
    (files : Files α) : Prop where
  incomplete : files.metaFile.current = some ⟨identity, false⟩
  positions : Held (identity.config vectors) (positionRow (identity.config vectors)) i
    files.positions
  scores : Held (identity.config vectors) (scoreRow (identity.config vectors)) j files.scores
  saved : ∀ saved, files.checkpoint.current = some saved →
    saved.nextBlock < (identity.config vectors).nBlocks ∧
    (identity.config vectors).Boundary saved.nextBlock saved.state ∧
    saved.nextBlock ≤ i ∧ saved.nextBlock ≤ j

theorem Running.spoolInv {vectors : Identity → ℕ → ℕ → α} {identity : Identity} {i j : ℕ}
    {files : Files α} (h : Running vectors identity i j files) : SpoolInv vectors files := by
  intro m hm
  rw [h.incomplete, Option.some.injEq] at hm
  subst hm
  constructor
  · intro hcomplete
    cases hcomplete
  · intro _ saved hsaved
    obtain ⟨hmore, hboundary, hi, hj⟩ := h.saved saved hsaved
    exact ⟨hmore, hboundary, h.positions.mono (length_positionRow _) hi,
      h.scores.mono (length_scoreRow _) hj⟩

/-! ### The blocks of a run -/

section
variable [Zero α] {vectors : Identity → ℕ → ℕ → α} {identity : Identity}

theorem Running.write_positions (hB : 0 < (identity.config vectors).blockRows) {i : ℕ}
    (hi : i < (identity.config vectors).nBlocks) {files t : Files α}
    (h : Running vectors identity i i files)
    (hstep : files.step (.positions (.write
      (i * (identity.config vectors).blockRows * (identity.config vectors).k)
      ((List.range ((identity.config vectors).validRows i)).flatMap fun r =>
        positionRow (identity.config vectors) (i * (identity.config vectors).blockRows + r)))) =
      some t) :
    Running vectors identity (i + 1) i t ∧ t.positions.isSome := by
  obtain ⟨file, hrun, rfl⟩ := step_positions hstep
  obtain ⟨hheld, hsome⟩ := held_write (length_positionRow _) hB _ hi h.positions hrun
  refine ⟨⟨h.incomplete, hheld, h.scores, ?_⟩, hsome⟩
  intro saved hsaved
  obtain ⟨hmore, hboundary, hle, _⟩ := h.saved saved hsaved
  exact ⟨hmore, hboundary, hle.trans (Nat.le_succ i), hle⟩

theorem Running.write_scores (hB : 0 < (identity.config vectors).blockRows) {i : ℕ}
    (hi : i < (identity.config vectors).nBlocks) {files t : Files α}
    (h : Running vectors identity (i + 1) i files ∧ files.positions.isSome)
    (hstep : files.step (.scores (.write
      (i * (identity.config vectors).blockRows * (identity.config vectors).k)
      ((List.range ((identity.config vectors).validRows i)).flatMap fun r =>
        scoreRow (identity.config vectors) (i * (identity.config vectors).blockRows + r)))) =
      some t) :
    Running vectors identity (i + 1) (i + 1) t ∧ Present t := by
  obtain ⟨file, hrun, rfl⟩ := step_scores hstep
  obtain ⟨hheld, hsome⟩ := held_write (length_scoreRow _) hB _ hi h.1.scores hrun
  refine ⟨⟨h.1.incomplete, h.1.positions, hheld, ?_⟩, h.2, hsome⟩
  intro saved hsaved
  obtain ⟨hmore, hboundary, hle, hle'⟩ := h.1.saved saved hsaved
  exact ⟨hmore, hboundary, hle, hle'.trans (Nat.le_succ i)⟩

theorem checkpoint_triple {i : ℕ} {state : TopKState α}
    (hmore : i < (identity.config vectors).nBlocks)
    (hboundary : (identity.config vectors).Boundary i state) :
    CrashTriple Files.step (fun f => Running vectors identity i i f ∧ Present f)
      ((atomicWrite ⟨state, i⟩).map Op.checkpoint)
      (fun f => Running vectors identity i i f ∧ Present f) (SpoolInv vectors) := by
  unfold atomicWrite
  rw [List.map_cons, List.map_cons, List.map_nil]
  apply CrashTriple.cons (R := fun f => (Running vectors identity i i f ∧ Present f) ∧
    f.checkpoint.tmp = some ⟨state, i⟩)
  · exact fun f h => h.1.spoolInv
  · intro f t h hstep
    obtain ⟨file, hrun, rfl⟩ := step_checkpoint hstep
    cases hrun
    exact ⟨⟨⟨h.1.incomplete, h.1.positions, h.1.scores, h.1.saved⟩, h.2⟩, rfl⟩
  apply CrashTriple.cons (R := fun f => Running vectors identity i i f ∧ Present f)
  · exact fun f h => h.1.1.spoolInv
  · intro f t h hstep
    obtain ⟨file, hrun, rfl⟩ := step_checkpoint hstep
    obtain ⟨⟨hrunning, hpresent⟩, htmp⟩ := h
    simp only [AtomicOp.run, htmp, Option.map_some, Option.some.injEq] at hrun
    subst hrun
    refine ⟨⟨hrunning.incomplete, hrunning.positions, hrunning.scores, ?_⟩, hpresent⟩
    intro saved hsaved
    cases hsaved
    exact ⟨hmore, hboundary, le_rfl, le_rfl⟩
  · exact CrashTriple.nil (fun f h => h.1.spoolInv) (fun f h => h)

theorem block_triple (hv : (identity.config vectors).Valid) (part : Partition (Entry α))
    (due : ℕ → Bool) {i : ℕ} (hi : i < (identity.config vectors).nBlocks) {es : List Event}
    {state next : TopKState α} (hboundary : (identity.config vectors).Boundary i state)
    (hrun : runBlock part (identity.config vectors) i es state = some next) :
    CrashTriple Files.step (Running vectors identity i i)
      (blockOps identity due (identity.config vectors).nBlocks
        (blockCall (identity.config vectors) i next))
      (fun f => Running vectors identity (i + 1) (i + 1) f ∧ Present f) (SpoolInv vectors) := by
  obtain ⟨hlists, hnext⟩ := blockCall_exact hv part hboundary hrun
  unfold blockOps
  rw [hlists, List.flatMap_map, List.flatMap_map, List.cons_append, List.cons_append,
    List.nil_append]
  apply CrashTriple.cons (R := fun f => Running vectors identity (i + 1) i f ∧ f.positions.isSome)
  · exact fun f h => h.spoolInv
  · exact fun f t h hstep => h.write_positions hv.rows_pos hi hstep
  apply CrashTriple.cons (R := fun f => Running vectors identity (i + 1) (i + 1) f ∧ Present f)
  · exact fun f h => h.1.spoolInv
  · exact fun f t h hstep => Running.write_scores hv.rows_pos hi h hstep
  split_ifs with hdue
  · exact checkpoint_triple hdue.1 hnext
  · exact CrashTriple.nil (fun f h => h.1.spoolInv) (fun f h => h)

/- All blocks from `i` on; at least one of them is written or the files were there before. -/
theorem blocks_triple (hv : (identity.config vectors).Valid) (part : Partition (Entry α))
    (due : ℕ → Bool) (schedule : ℕ → List Event) (m : ℕ) {i : ℕ}
    (hi : i + m = (identity.config vectors).nBlocks) {state : TopKState α}
    {blocks : List (BlockCall α)} (hboundary : (identity.config vectors).Boundary i state)
    (hrun : runBlocks part (identity.config vectors) schedule (List.range' i m) state =
      some blocks) :
    CrashTriple Files.step (fun f => Running vectors identity i i f ∧ (0 < m ∨ Present f))
      (blocks.flatMap (blockOps identity due (identity.config vectors).nBlocks))
      (fun f => Running vectors identity (i + m) (i + m) f ∧ Present f) (SpoolInv vectors) := by
  induction m generalizing i state blocks with
  | zero =>
    simp only [List.range'_zero, runBlocks, Option.some.injEq] at hrun
    subst hrun
    rw [List.flatMap_nil]
    apply CrashTriple.nil
    · exact fun f h => h.1.spoolInv
    · exact fun f h => ⟨h.1, h.2.resolve_left (Nat.lt_irrefl 0)⟩
  | succ m ih =>
    rw [List.range'_succ, runBlocks, Option.bind_eq_some_iff] at hrun
    obtain ⟨next, hblock, hrest⟩ := hrun
    obtain ⟨rest, hrun', rfl⟩ := Option.map_eq_some_iff.mp hrest
    have hnext := (blockCall_exact hv part hboundary hblock).2
    have hfirst := block_triple hv part due (by omega) hboundary hblock
    have hlater := ih (by omega) hnext hrun'
    rw [List.flatMap_cons]
    apply CrashTriple.append (R := fun f => Running vectors identity (i + 1) (i + 1) f ∧ Present f)
    · exact hfirst.consequence (fun f h => h.1) (fun f h => h)
    · refine hlater.consequence (fun f h => ⟨h.1, Or.inr h.2⟩) (fun f h => ?_)
      rwa [show i + (m + 1) = i + 1 + m by omega]

end

end AnalyticsEngine.SimilarArtists
