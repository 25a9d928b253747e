import AnalyticsEngine.SimilarArtists.CopyRows

/-!
# Histories of calls

The start-over path removes and truncates the raw files before it renames its own `meta.json`
into place. Beside an incomplete `meta.json` a cut in between is harmless (`startOver_triple`).
Beside one that marks another identity complete it is not: the lists are gone, `meta.json` still
vouches for them, and the next call of that identity returns at once (`stale_complete_spool`).
`DataLoss` names exactly these cuts, and a history without them only ever returns exact lists
(`computeToSpool_exact`).
-/

namespace AnalyticsEngine.SimilarArtists
open Library ExactTopK

variable {α : Type*} [LinearOrder α] [Zero α] {vectors : Identity → ℕ → ℕ → α}

/-! ### Starting over and finishing -/

/-- `meta.json` vouches for no list. -/
def Replaceable (files : Files α) : Prop :=
  ∀ m, files.metaFile.current = some m → m.complete = true → m.identity.nArtists = 0

omit [Zero α] in
theorem spoolInv_of_no_checkpoint {files : Files α} (h : Replaceable files)
    (hnone : files.checkpoint.current = none) : SpoolInv vectors files := by
  intro m hm
  constructor
  · intro hcomplete hpos
    have hzero := h m hm hcomplete
    omega
  · intro _ saved hsaved
    rw [hnone] at hsaved
    cases hsaved

omit [Zero α] in
theorem SpoolInv.fewer {files : Files α} {positions : Option (List (BitVec 32))}
    {scores : Option (List (Score α))} (h : SpoolInv vectors files) (hmeta : Replaceable files)
    (hpositions : ∀ cells, positions = some cells → files.positions = some cells)
    (hscores : ∀ cells, scores = some cells → files.scores = some cells) :
    SpoolInv vectors { files with positions, scores } := by
  intro m hm
  constructor
  · intro hcomplete hpos
    have hzero := hmeta m hm hcomplete
    omega
  · intro hnot saved hsaved
    obtain ⟨hmore, hboundary, hheld⟩ := (h m hm).2 hnot saved hsaved
    exact ⟨hmore, hboundary, fun cells hc => hheld.1 cells (hpositions cells hc),
      fun cells hc => hheld.2 cells (hscores cells hc)⟩

omit [LinearOrder α] in
theorem create_truncate_triple (P : Files α → Prop) (C : Files α → Prop) (hPC : ∀ f, P f → C f)
    (hpositions : ∀ f file, P f → P { f with positions := file })
    (hscores : ∀ f file, P f → P { f with scores := file }) (length : ℕ) :
    CrashTriple Files.step P
      [.positions .create, .positions (.truncate length), .scores .create,
        .scores (.truncate length)] P C := by
  have hp : ∀ op f t, P f → Files.step f (.positions op) = some t → P t := by
    intro op f t hf hstep
    obtain ⟨file, _, rfl⟩ := step_positions hstep
    exact hpositions f file hf
  have hs : ∀ op f t, P f → Files.step f (.scores op) = some t → P t := by
    intro op f t hf hstep
    obtain ⟨file, _, rfl⟩ := step_scores hstep
    exact hscores f file hf
  apply CrashTriple.cons hPC (hp _)
  apply CrashTriple.cons hPC (hp _)
  apply CrashTriple.cons hPC (hs _)
  apply CrashTriple.cons hPC (hs _)
  exact CrashTriple.nil hPC fun f h => h

/-- Starting over beside a `meta.json` that vouches for no list. -/
theorem startOver_triple (identity : Identity) :
    CrashTriple Files.step (fun f => SpoolInv vectors f ∧ Replaceable f) (startOver identity)
      (fun _ => True) (SpoolInv vectors) := by
  have hsaved : ∀ f : Files α, Replaceable f ∧ f.checkpoint.current = none →
      SpoolInv vectors f := fun f h => spoolInv_of_no_checkpoint h.1 h.2
  unfold startOver atomicWrite
  apply CrashTriple.cons (R := fun f => SpoolInv vectors f ∧ Replaceable f)
  · exact fun f h => h.1
  · intro f t h hstep
    obtain ⟨file, hrun, rfl⟩ := step_positions hstep
    cases hrun
    exact ⟨h.1.fewer h.2 (fun cells hc => by cases hc) (fun cells hc => hc), h.2⟩
  apply CrashTriple.cons (R := fun f => SpoolInv vectors f ∧ Replaceable f)
  · exact fun f h => h.1
  · intro f t h hstep
    obtain ⟨file, hrun, rfl⟩ := step_scores hstep
    cases hrun
    exact ⟨h.1.fewer h.2 (fun cells hc => hc) (fun cells hc => by cases hc), h.2⟩
  apply CrashTriple.cons (R := fun f => Replaceable f ∧ f.checkpoint.current = none)
  · exact fun f h => h.1
  · intro f t h hstep
    obtain ⟨file, hrun, rfl⟩ := step_checkpoint hstep
    cases hrun
    exact ⟨h.2, rfl⟩
  refine CrashTriple.append (create_truncate_triple _ _ hsaved (fun f file h => h)
    (fun f file h => h) (identity.nArtists * identity.k)) ?_
  apply CrashTriple.cons (R := fun f => (Replaceable f ∧ f.checkpoint.current = none) ∧
    f.metaFile.tmp = some ⟨identity, false⟩)
  · exact hsaved
  · intro f t h hstep
    obtain ⟨file, hrun, rfl⟩ := step_metaFile hstep
    cases hrun
    exact ⟨⟨h.1, h.2⟩, rfl⟩
  apply CrashTriple.cons (R := fun f => Replaceable f ∧ f.checkpoint.current = none)
  · exact fun f h => hsaved f h.1
  · intro f t h hstep
    obtain ⟨file, hrun, rfl⟩ := step_metaFile hstep
    simp only [AtomicOp.run, h.2, Option.map_some, Option.some.injEq] at hrun
    subst hrun
    refine ⟨?_, h.1.2⟩
    intro m hm hcomplete
    cases hm
    cases hcomplete
  · exact CrashTriple.nil hsaved fun _ _ => trivial

theorem startOver_performed (vectors : Identity → ℕ → ℕ → α) (identity : Identity) (files : Files α) :
    ∃ t, perform Files.step (startOver identity) files = (t, true) ∧
      Running vectors identity 0 0 t ∧ Present t := by
  refine ⟨_, rfl, ⟨rfl, ?_, ?_, ?_⟩, rfl, rfl⟩
  · exact held_truncated _ _ _ _
  · exact held_truncated _ _ _ _
  · intro saved hsaved
    cases hsaved

theorem finish_triple (identity : Identity) :
    CrashTriple Files.step
      (fun f => (∃ i, Running vectors identity i i f) ∧
        (0 < identity.nArtists → Finished (identity.config vectors) f))
      (finish identity)
      (fun f => f.metaFile.current = some ⟨identity, true⟩ ∧ SpoolInv vectors f)
      (SpoolInv vectors) := by
  have hinv : ∀ f : Files α, f.metaFile.current = some ⟨identity, true⟩ ∧
      (0 < identity.nArtists → Finished (identity.config vectors) f) → SpoolInv vectors f := by
    intro f h m hm
    rw [h.1, Option.some.injEq] at hm
    subst hm
    exact ⟨fun _ hpos => h.2 hpos, fun hnot => by cases hnot⟩
  unfold finish atomicWrite
  apply CrashTriple.cons (R := fun f => ((∃ i, Running vectors identity i i f) ∧
    (0 < identity.nArtists → Finished (identity.config vectors) f)) ∧
      f.metaFile.tmp = some ⟨identity, true⟩)
  · intro f hfound
    obtain ⟨⟨i, hrunning⟩, _⟩ := hfound
    exact hrunning.spoolInv
  · intro f t hfound hstep
    obtain ⟨⟨i, hrunning⟩, hfinished⟩ := hfound
    obtain ⟨file, hrun, rfl⟩ := step_metaFile hstep
    cases hrun
    exact ⟨⟨⟨i, ⟨hrunning.incomplete, hrunning.positions, hrunning.scores, hrunning.saved⟩⟩,
      fun hpos => (hfinished hpos).frame rfl rfl⟩, rfl⟩
  apply CrashTriple.cons (R := fun f => f.metaFile.current = some ⟨identity, true⟩ ∧
    (0 < identity.nArtists → Finished (identity.config vectors) f))
  · intro f hfound
    obtain ⟨⟨⟨i, hrunning⟩, _⟩, _⟩ := hfound
    exact hrunning.spoolInv
  · intro f t hfound hstep
    obtain ⟨⟨_, hfinished⟩, htmp⟩ := hfound
    obtain ⟨file, hrun, rfl⟩ := step_metaFile hstep
    simp only [AtomicOp.run, htmp, Option.map_some, Option.some.injEq] at hrun
    subst hrun
    exact ⟨rfl, fun hpos => (hfinished hpos).frame rfl rfl⟩
  apply CrashTriple.cons (R := fun f => f.metaFile.current = some ⟨identity, true⟩ ∧
    (0 < identity.nArtists → Finished (identity.config vectors) f))
  · exact hinv
  · intro f t hfound hstep
    obtain ⟨hmeta, hfinished⟩ := hfound
    obtain ⟨file, _, rfl⟩ := step_checkpoint hstep
    exact ⟨hmeta, fun hpos => (hfinished hpos).frame rfl rfl⟩
  · exact CrashTriple.nil hinv fun f h => ⟨h.1, hinv f h⟩

/-! ### Attempts -/

/- A cut that loses the lists of another identity: the call starts over, has removed at least
one file, has not yet renamed its own `meta.json`, and the one in place vouches for lists. -/
def DataLoss (files : Files α) (a : Attempt) : Prop :=
  ∃ m old, a.cut = some m ∧ 0 < m ∧ m < (startOver (α := α) a.call.identity).length ∧
    files.metaFile.current = some old ∧ old.complete = true ∧ 0 < old.identity.nArtists ∧
    old.identity ≠ a.call.identity

def Preserving (files : Files α) (a : Attempt) : Prop :=
  a.call.identity.nArtists ≤ 2 ^ 31 - 1 ∧ ¬DataLoss files a

theorem runFrom_triple (hsymm : ∀ identity r c, vectors identity r c = vectors identity c r)
    (part : Partition (Entry α)) {call : Call} (hn : call.identity.nArtists ≤ 2 ^ 31 - 1)
    {before : List (Op α)} {start : ℕ} {state : TopKState α} {trace : Trace α}
    (hstart : 0 < call.identity.nArtists → start ≤ (call.identity.config vectors).nBlocks)
    (hboundary : (call.identity.config vectors).Valid →
      (call.identity.config vectors).Boundary start state)
    (hrun : runFrom part vectors call before start state = some trace) :
    ∃ rest, trace.ops = before ++ rest ∧ CrashTriple Files.step
      (fun f => Running vectors call.identity start start f ∧
        (0 < call.identity.nArtists → start < (call.identity.config vectors).nBlocks ∨ Present f))
      rest
      (fun f => trace.returns = true →
        f.metaFile.current = some ⟨call.identity, true⟩ ∧ SpoolInv vectors f)
      (SpoolInv vectors) := by
  have hfail : ∀ trace : Trace α, (⟨before, false⟩ : Trace α) = trace → ∃ rest,
      trace.ops = before ++ rest ∧ CrashTriple Files.step
        (fun f => Running vectors call.identity start start f ∧
          (0 < call.identity.nArtists →
            start < (call.identity.config vectors).nBlocks ∨ Present f))
        rest
        (fun f => trace.returns = true →
          f.metaFile.current = some ⟨call.identity, true⟩ ∧ SpoolInv vectors f)
        (SpoolInv vectors) := by
    intro trace heq
    subst heq
    refine ⟨[], (List.append_nil before).symm, CrashTriple.nil (fun f h => h.1.spoolInv) ?_⟩
    intro f _ hreturns
    cases hreturns
  unfold runFrom at hrun
  simp only at hrun
  split_ifs at hrun with hraise
  · exact hfail trace (Option.some.inj hrun)
  rw [not_or, not_and] at hraise
  obtain ⟨hB, hk⟩ := hraise
  by_cases hseg : (call.identity.config vectors).blockRows % segmentRows ≠ 0
  · rw [exactTopK, if_pos hseg] at hrun
    exact hfail trace (Option.some.inj hrun)
  rw [exactTopK, if_neg hseg] at hrun
  obtain ⟨blocks, hblocks, rfl⟩ := Option.map_eq_some_iff.mp hrun
  rw [not_not] at hseg
  refine ⟨blocks.flatMap (blockOps call.identity call.due
    (call.identity.config vectors).nBlocks) ++ finish call.identity, List.append_assoc _ _ _, ?_⟩
  by_cases hpos : 0 < call.identity.nArtists
  · have hv : (call.identity.config vectors).Valid :=
      { k_pos := by
          by_contra hzero
          exact hk (by omega) hpos
        rows_pos := Nat.pos_of_ne_zero hB
        segments := hseg
        n_le := hn
        symm := hsymm call.identity }
    have hle := hstart hpos
    have htriple := blocks_triple hv part call.due call.schedule
      ((call.identity.config vectors).nBlocks - start) (by omega) (hboundary hv) hblocks
    apply CrashTriple.append (htriple.consequence ?_ ?_) ((finish_triple call.identity).consequence
      (fun f h => h) fun f h _ => h)
    · intro f hfound
      obtain ⟨hrunning, hpresent⟩ := hfound
      refine ⟨hrunning, ?_⟩
      rcases hpresent hpos with hlt | hpresent
      · exact Or.inl (by omega)
      · exact Or.inr hpresent
    · intro f hfound
      obtain ⟨hrunning, hpresent⟩ := hfound
      rw [show start + ((call.identity.config vectors).nBlocks - start) =
        (call.identity.config vectors).nBlocks by omega] at hrunning
      exact ⟨⟨_, hrunning⟩, fun _ =>
        ⟨hv.k_pos, hv.rows_pos, hpresent, hrunning.positions, hrunning.scores⟩⟩
  · have hnone : (call.identity.config vectors).nBlocks = 0 := by
      unfold Config.nBlocks
      rw [show (call.identity.config vectors).n = 0 by
        change call.identity.nArtists = 0
        omega]
      exact Nat.div_eq_of_lt (by omega)
    rw [hnone, Nat.zero_sub, List.range'_zero, runBlocks, Option.some.injEq] at hblocks
    subst hblocks
    rw [List.flatMap_nil, List.nil_append]
    refine (finish_triple call.identity).consequence ?_ fun f h _ => h
    intro f hfound
    obtain ⟨hrunning, _⟩ := hfound
    exact ⟨⟨start, hrunning⟩, fun h => absurd h hpos⟩

/-- Cut after `m` operations, a call loses no list that `meta.json` vouches for. -/
def Harmless (files : Files α) (call : Call) (m : ℕ) : Prop :=
  0 < m → m < (startOver (α := α) call.identity).length →
    ∀ old, files.metaFile.current = some old → old.complete = true → 0 < old.identity.nArtists →
      old.identity = call.identity

/-- What a call leaves behind, cut or not. -/
structure Outcome (vectors : Identity → ℕ → ℕ → α) (files : Files α) (call : Call)
    (trace : Trace α) : Prop where
  cut : ∀ m, Harmless files call m →
    SpoolInv vectors (perform Files.step (trace.ops.take m) files).1
  uncut : SpoolInv vectors (perform Files.step trace.ops files).1
  returned : (perform Files.step trace.ops files).2 = true → trace.returns = true →
    (perform Files.step trace.ops files).1.metaFile.current = some ⟨call.identity, true⟩

theorem resumed_outcome (hsymm : ∀ identity r c, vectors identity r c = vectors identity c r)
    (part : Partition (Entry α)) {call : Call} (hn : call.identity.nArtists ≤ 2 ^ 31 - 1)
    {files : Files α} {saved : Checkpoint α} {trace : Trace α} (h : SpoolInv vectors files)
    (hmeta : files.metaFile.current = some ⟨call.identity, false⟩)
    (hsaved : files.checkpoint.current = some saved)
    (hrun : runFrom part vectors call [] saved.nextBlock saved.state = some trace) :
    Outcome vectors files call trace := by
  obtain ⟨hmore, hboundary, hheld⟩ := (h _ hmeta).2 rfl saved hsaved
  obtain ⟨rest, hops, htriple⟩ := runFrom_triple hsymm part hn (fun _ => hmore.le)
    (fun _ => hboundary) hrun
  rw [List.nil_append] at hops
  have hrunning : Running vectors call.identity saved.nextBlock saved.nextBlock files := by
    refine ⟨hmeta, hheld.1, hheld.2, ?_⟩
    intro saved' hsaved'
    rw [hsaved, Option.some.injEq] at hsaved'
    subst hsaved'
    exact ⟨hmore, hboundary, le_rfl, le_rfl⟩
  obtain ⟨hcut, hall⟩ := htriple files ⟨hrunning, fun _ => Or.inl hmore⟩
  have huncut := hcut rest.length
  rw [List.take_length] at huncut
  rw [← hops] at hcut hall huncut
  exact ⟨fun m _ => hcut m, huncut, fun hdone hreturns => (hall hdone hreturns).1⟩

/-- A call that starts over: its cuts before its own `meta.json` is in place must find nothing
to lose. -/
theorem startOver_outcome (hsymm : ∀ identity r c, vectors identity r c = vectors identity c r)
    (part : Partition (Entry α)) {call : Call} (hn : call.identity.nArtists ≤ 2 ^ 31 - 1)
    {files : Files α} {trace : Trace α} (h : SpoolInv vectors files)
    (hother : ∀ old, files.metaFile.current = some old → old.complete = true →
      old.identity ≠ call.identity)
    (hrun : runFrom part vectors call (startOver call.identity) 0
      (TopKState.empty call.identity.k) = some trace) : Outcome vectors files call trace := by
  obtain ⟨rest, hops, htriple⟩ := runFrom_triple hsymm part hn (fun _ => Nat.zero_le _)
    (fun hv => Config.boundary_empty hv) hrun
  obtain ⟨t, hstart, hrunning, hpresent⟩ := startOver_performed vectors call.identity files
  obtain ⟨hcut, hall⟩ := htriple t ⟨hrunning, fun _ => Or.inr hpresent⟩
  have huncut := hcut rest.length
  rw [List.take_length] at huncut
  rw [← perform_append hstart, ← hops] at hall huncut
  refine ⟨fun m hm => ?_, huncut, fun hdone hreturns => (hall hdone hreturns).1⟩
  rw [hops]
  by_cases hlt : m < (startOver (α := α) call.identity).length
  · -- cut inside the start-over, which only the `meta.json` it found protects
    rw [List.take_append_of_le_length hlt.le]
    rcases Nat.eq_zero_or_pos m with hzero | hpos
    · rw [hzero, List.take_zero]
      exact h
    · have hreplaceable : Replaceable files := by
        intro old hold hcomplete
        by_contra hartists
        exact hother old hold hcomplete
          (hm hpos hlt old hold hcomplete (Nat.pos_of_ne_zero hartists))
      exact (startOver_triple call.identity files ⟨h, hreplaceable⟩).1 m
  · rw [List.take_append, List.take_of_length_le (not_lt.mp hlt), perform_append hstart]
    exact hcut _

theorem computeToSpool_outcome
    (hsymm : ∀ identity r c, vectors identity r c = vectors identity c r)
    (part : Partition (Entry α)) {call : Call} (hn : call.identity.nArtists ≤ 2 ^ 31 - 1)
    {files : Files α} {trace : Trace α} (h : SpoolInv vectors files)
    (hrun : computeToSpool part vectors call files = some trace) :
    Outcome vectors files call trace := by
  unfold computeToSpool at hrun
  simp only at hrun
  cases hmeta : files.metaFile.current with
  | none =>
    simp only [hmeta, Option.map_none, reduceCtorEq, false_and, if_false] at hrun
    apply startOver_outcome hsymm part hn h _ hrun
    intro old hold
    rw [hmeta] at hold
    cases hold
  | some m =>
    obtain ⟨identity, complete⟩ := m
    simp only [hmeta, Option.map_some, Option.some.injEq] at hrun
    by_cases hsame : identity = call.identity
    · subst hsame
      cases complete with
      | true =>
        rw [if_pos ⟨rfl, rfl⟩, Option.some.injEq] at hrun
        subst hrun
        refine ⟨fun m _ => ?_, h, fun _ _ => hmeta⟩
        rw [List.take_nil]
        exact h
      | false =>
        rw [if_neg (by simp), if_pos rfl] at hrun
        cases hsaved : files.checkpoint.current with
        | none =>
          rw [hsaved] at hrun
          apply startOver_outcome hsymm part hn h _ hrun
          intro old hold hcomplete
          rw [hmeta] at hold
          cases hold
          cases hcomplete
        | some saved =>
          rw [hsaved] at hrun
          exact resumed_outcome hsymm part hn h hmeta hsaved hrun
    · rw [if_neg (fun hboth => hsame hboth.1), if_neg hsame] at hrun
      apply startOver_outcome hsymm part hn h _ hrun
      intro old hold _
      rw [hmeta] at hold
      cases hold
      exact hsame

theorem attempt_inv (hsymm : ∀ identity r c, vectors identity r c = vectors identity c r)
    (part : Partition (Entry α)) {files after : Files α} {a : Attempt} {returned : Bool}
    (h : SpoolInv vectors files) (hp : Preserving files a)
    (hrun : attempt part vectors a files = some (after, returned)) :
    SpoolInv vectors after ∧
      (returned = true → after.metaFile.current = some ⟨a.call.identity, true⟩) := by
  obtain ⟨hn, hloss⟩ := hp
  obtain ⟨trace, htrace, hdone⟩ := Option.map_eq_some_iff.mp hrun
  have houtcome := computeToSpool_outcome hsymm part hn h htrace
  cases hcut : a.cut with
  | some m =>
    simp only [hcut, Prod.mk.injEq] at hdone
    obtain ⟨rfl, rfl⟩ := hdone
    constructor
    · apply houtcome.cut
      intro hpos hlt old hold hcomplete hartists
      by_contra hother
      exact hloss ⟨m, old, hcut, hpos, hlt, hold, hcomplete, hartists, hother⟩
    · intro hreturned
      cases hreturned
  | none =>
    simp only [hcut, Prod.mk.injEq] at hdone
    obtain ⟨rfl, rfl⟩ := hdone
    rw [Bool.and_eq_true]
    exact ⟨houtcome.uncut, fun hreturned => houtcome.returned hreturned.1 hreturned.2⟩

theorem history_inv (hsymm : ∀ identity r c, vectors identity r c = vectors identity c r)
    (part : Partition (Entry α)) {files : Files α}
    (h : History part vectors Preserving files) : SpoolInv vectors files := by
  induction h with
  | empty =>
    intro m hm
    cases hm
  | next _ hp hrun ih => exact (attempt_inv hsymm part ih hp hrun).1

/-- In a history without a losing cut, a call that returns leaves its exact lists. -/
theorem computeToSpool_exact
    (hsymm : ∀ identity r c, vectors identity r c = vectors identity c r)
    (part : Partition (Entry α)) {files after : Files α} {a : Attempt}
    (h : History part vectors Preserving files) (hp : Preserving files a)
    (hrun : attempt part vectors a files = some (after, true)) :
    let cfg := a.call.identity.config vectors
    (∀ start d, 0 < d → start + d ≤ cfg.n → readSpool after cfg.k start (start + d) =
      some ((List.range d).map fun r => positionRow cfg (start + r),
        (List.range d).map fun r => scoreRow cfg (start + r))) ∧
    ∀ (artistIds : ℕ → String) (releaseId : ℤ),
      copyRows after cfg.n cfg.k ((List.range cfg.n).map artistIds) releaseId =
        some ((List.range cfg.n).map (exactRow cfg.n cfg.k cfg.score artistIds releaseId)) := by
  obtain ⟨hinv, hcomplete⟩ := attempt_inv hsymm part (history_inv hsymm part h) hp hrun
  have hmeta := hcomplete rfl
  have hfinished := (hinv _ hmeta).1 rfl
  constructor
  · intro start d hd hfit
    have hpos : 0 < (a.call.identity.config vectors).n := by omega
    obtain ⟨hk, hB, hpresent, hheld⟩ := hfinished hpos
    unfold readSpool
    rw [readRows_held (length_positionRow _) hk hB hheld.1 hpresent.1 hfit,
      readRows_held (length_scoreRow _) hk hB hheld.2 hpresent.2 hfit]
    rfl
  · exact fun artistIds releaseId => copyRows_exact hfinished hp.1 artistIds releaseId

def threeArtists (modelVersion : String) (cut : Option ℕ) : Attempt where
  call :=
    { identity := ⟨modelVersion, 3, 1, 2, 64⟩
      schedule := threeRowsSchedule
      due := fun _ => false }
  cut := cut

def productScores : Identity → ℕ → ℕ → ℕ := fun _ r c => r * c

theorem computeToSpool_exact_threeArtists : ∃ after : Files ℕ,
    attempt (sortPartition (Entry ℕ)) productScores (threeArtists "m1" none) Files.empty =
      some (after, true) ∧
    ∀ (artistIds : ℕ → String) (releaseId : ℤ),
      copyRows after 3 2 ((List.range 3).map artistIds) releaseId =
        some ((List.range 3).map (exactRow 3 2 (fun r c => r * c) artistIds releaseId)) := by
  have hsymm : ∀ identity r c, productScores identity r c = productScores identity c r :=
    fun _ r c => Nat.mul_comm r c
  have hp : Preserving (Files.empty : Files ℕ) (threeArtists "m1" none) := by
    refine ⟨by decide, ?_⟩
    intro hfound
    obtain ⟨m, old, hcut, _⟩ := hfound
    cases hcut
  refine ⟨_, rfl, ?_⟩
  exact (computeToSpool_exact hsymm (sortPartition (Entry ℕ)) History.empty hp rfl).2

/-- Version `m1` completes, version `m2` starts over in the same directory and is cut after its
first operation, and `m1` is called again: it returns, and its COPY raises. -/
theorem stale_complete_spool : ∃ (files after : Files ℕ),
    History (sortPartition (Entry ℕ)) productScores
      (fun _ a => a = threeArtists "m1" none ∨ a = threeArtists "m2" (some 1)) files ∧
    attempt (sortPartition (Entry ℕ)) productScores (threeArtists "m1" none) files =
      some (after, true) ∧
    ∀ (artistIds : ℕ → String) (releaseId : ℤ),
      copyRows after 3 2 ((List.range 3).map artistIds) releaseId = none := by
  refine ⟨_, _, History.next (History.next History.empty (Or.inl rfl) rfl) (Or.inr rfl) rfl, rfl,
    ?_⟩
  intro artistIds releaseId
  rfl

end AnalyticsEngine.SimilarArtists
