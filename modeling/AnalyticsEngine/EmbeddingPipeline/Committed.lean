import AnalyticsEngine.EmbeddingPipeline.Load

/-!
# The committed rows of a version

At every moment the rows of a version are complete outputs of loads of it, and only the commit of
such a load changes them. The check is not part of the write: they are the output of a single load,
and stay as they are, exactly when no load commits between the check and the commit of another.
-/

namespace AnalyticsEngine.EmbeddingPipeline
open Embeddings Library

variable {F O : Type*} {ar : Arithmetic F Float64 O}

/-! ### The invariant -/

/- What the transaction of a load has done so far, by the stage of the load. -/
def LoadRun.Sound (nodeKey : VertexKind → String → U64) (table : Heap (EmbeddingRow O)) (id : ℕ)
    (run : LoadRun ar) : Prop :=
  match run.stage with
  | .checking | .reading => table.status id = .inProgress ∧ table.written id = []
  | .writing artistIds vectors => table.status id = .inProgress ∧ table.written id = [] ∧
      ∃ content, run.content = some content ∧
        Embedded ar nodeKey run.args.config content artistIds vectors
  | .deleting seen rows => table.status id = .inProgress ∧ table.written id = [] ∧
      run.Output nodeKey rows ∧ ∀ u, seen u = true → table.committed u = true
  | .copying copied rest => table.status id = .inProgress ∧ table.written id = copied ∧
      run.Output nodeKey (copied ++ rest)
  | .returned result => (table.status id = .inProgress ∧ table.written id = []) ∨
      (table.status id = .committed ∧ run.Output nodeKey (table.written id) ∧
        result.rowsWritten = (table.written id).length)
  | .raised => table.committed id = false

def LoadState.scope (s : LoadState ar) (id : ℕ) : Option String := (s.runs id).map LoadRun.version

structure LoadInv (nodeKey : VertexKind → String → U64) (s : LoadState ar) : Prop where
  table : Heap.Sound EmbeddingRow.primaryKey EmbeddingRow.modelVersion s.scope s.table
  unused : ∀ id, s.runs id = none → s.table.status id = .inProgress
  sound : ∀ id run, s.runs id = some run → run.Sound nodeKey s.table id

/- What a step of another load leaves of a load's transaction. -/
structure Frame (before after : Heap (EmbeddingRow O)) (id : ℕ) : Prop where
  status : after.status id = before.status id
  written : after.written id = before.written id
  committed : ∀ u, before.committed u = true → after.committed u = true

theorem Frame.refl (table : Heap (EmbeddingRow O)) (id : ℕ) : Frame table table id :=
  ⟨rfl, rfl, fun _ h => h⟩

theorem LoadRun.Sound.frame {nodeKey : VertexKind → String → U64} {before after : Heap (EmbeddingRow O)}
    {id : ℕ} {run : LoadRun ar} (hs : run.Sound nodeKey before id) (h : Frame before after id) :
    run.Sound nodeKey after id := by
  obtain ⟨args, version, content, stage⟩ := run
  unfold LoadRun.Sound at hs ⊢
  cases stage with
  | checking => exact ⟨h.status.trans hs.1, h.written.trans hs.2⟩
  | reading => exact ⟨h.status.trans hs.1, h.written.trans hs.2⟩
  | writing artistIds vectors => exact ⟨h.status.trans hs.1, h.written.trans hs.2.1, hs.2.2⟩
  | deleting seen rows =>
    obtain ⟨hstatus, hwritten, houtput, hseen⟩ := hs
    exact ⟨h.status.trans hstatus, h.written.trans hwritten, houtput,
      fun u hu => h.committed u (hseen u hu)⟩
  | copying copied rest => exact ⟨h.status.trans hs.1, h.written.trans hs.2.1, hs.2.2⟩
  | returned result =>
    rw [h.status, h.written]
    exact hs
  | raised =>
    unfold Heap.committed at hs ⊢
    rw [h.status]
    exact hs

/- The commit of a load that has copied everything. -/
def LoadState.Commits (s : LoadState ar) (id : ℕ) (version : String) : Prop :=
  ∃ args content copied, s.runs id = some ⟨args, version, content, .copying copied []⟩

/- The check found no rows, and the load has not ended. -/
def LoadStage.Passed : LoadStage O → Prop
  | .reading | .writing _ _ | .deleting _ _ | .copying _ _ => True
  | .checking | .returned _ | .raised => False

/- What a step does to the table. -/
inductive Effect (s t : LoadState ar) : LoadAction ar → Prop where
  | quiet {a : LoadAction ar} (hrows : t.table.rows = s.table.rows) : Effect s t a
  | commits {id : ℕ} {version : String} (hcommits : s.Commits id version)
      (htable : t.table = s.table.commit id) : Effect s t (.commit id)

/- A load moved. It had not returned, and is past its check by that check alone. -/
structure Follows (s : LoadState ar) (a : LoadAction ar) (id : ℕ) (before run : LoadRun ar) : Prop where
  version : run.version = before.version
  unreturned : ∀ result, before.stage ≠ .returned result
  passed : run.stage.Passed → before.stage.Passed ∨
    (a = .check id ∧ before.stage = .checking ∧ s.alreadyLoaded before.version = false)

structure Moves (nodeKey : VertexKind → String → U64) (s : LoadState ar) (a : LoadAction ar)
    (t : LoadState ar) (id : ℕ) (run : LoadRun ar) : Prop where
  runs : t.runs = Function.update s.runs id (some run)
  follows : ∀ before, s.runs id = some before → Follows s a id before run
  starts : s.runs id = none → ¬run.stage.Passed
  table : Heap.Sound EmbeddingRow.primaryKey EmbeddingRow.modelVersion s.scope t.table
  frame : ∀ other, other ≠ id → Frame s.table t.table other
  sound : run.Sound nodeKey t.table id
  effect : Effect s t a

section
variable {nodeKey : VertexKind → String → U64} {s t : LoadState ar} {a : LoadAction ar} {id : ℕ}

theorem loadInv_initial (nodeKey : VertexKind → String → U64) :
    LoadInv nodeKey (LoadState.initial : LoadState ar) where
  table := Heap.sound_empty _ _ _
  unused _ _ := rfl
  sound _ _ h := by cases h

theorem loadInv_step (hinv : LoadInv nodeKey s) {run : LoadRun ar}
    (h : Moves nodeKey s a t id run) : LoadInv nodeKey t := by
  refine ⟨h.table.mono ?_, ?_, ?_⟩
  · intro other version hscope
    unfold LoadState.scope at hscope ⊢
    rw [h.runs]
    by_cases hid : other = id
    · subst hid
      obtain ⟨before, hbefore, rfl⟩ := Option.map_eq_some_iff.mp hscope
      rw [Function.update_self, Option.map_some, (h.follows before hbefore).version]
    · rw [Function.update_of_ne hid]
      exact hscope
  · intro other hnone
    rw [h.runs] at hnone
    by_cases hid : other = id
    · subst hid
      rw [Function.update_self] at hnone
      cases hnone
    · rw [Function.update_of_ne hid] at hnone
      exact (h.frame other hid).status.trans (hinv.unused other hnone)
  · rw [h.runs]
    refine forall_update h.sound fun other hid otherRun hother => ?_
    exact (hinv.sound other otherRun hother).frame (h.frame other hid)

theorem moves_table {table : Heap (EmbeddingRow O)} {run before : LoadRun ar}
    (hbefore : s.runs id = some before) (hfollows : Follows s a id before run)
    (htable : Heap.Sound EmbeddingRow.primaryKey EmbeddingRow.modelVersion s.scope table)
    (hframe : ∀ other, other ≠ id → Frame s.table table other)
    (hsound : run.Sound nodeKey table id)
    (heffect : Effect s ((s.withTable table).put id run) a) :
    Moves nodeKey s a ((s.withTable table).put id run) id run where
  runs := rfl
  follows other hother := by
    obtain rfl := Option.some.inj (hbefore.symm.trans hother)
    exact hfollows
  starts hnone := by
    rw [hbefore] at hnone
    cases hnone
  table := htable
  frame := hframe
  sound := hsound
  effect := heffect

/-- A step that leaves the table alone. -/
theorem moves_put (hinv : LoadInv nodeKey s) {run before : LoadRun ar}
    (hbefore : s.runs id = some before) (hfollows : Follows s a id before run)
    (hsound : run.Sound nodeKey s.table id) : Moves nodeKey s a (s.put id run) id run :=
  moves_table hbefore hfollows hinv.table (fun other _ => Frame.refl s.table other) hsound
    (.quiet rfl)

theorem frame_status {table : Heap (EmbeddingRow O)} {other : ℕ} (hother : other ≠ id)
    {status : TxnStatus} (hopen : table.status id = .inProgress) :
    Frame table { table with status := Function.update table.status id status } other where
  status := Function.update_of_ne hother ..
  written := rfl
  committed u hu := by
    have hne : u ≠ id := by
      intro heq
      rw [heq, Heap.committed_inProgress hopen] at hu
      cases hu
    rw [Heap.committed_iff] at hu ⊢
    exact (Function.update_of_ne hne ..).trans hu

/-- The end of a load without a commit. -/
theorem moves_abort (hinv : LoadInv nodeKey s) {args : LoadArgs ar} {version : String}
    {content : Option Content} {before : LoadRun ar} (hbefore : s.runs id = some before)
    (hfollows : Follows s a id before ⟨args, version, content, .raised⟩)
    (hopen : s.table.status id = .inProgress) :
    Moves nodeKey s a ((s.withTable (s.table.abort id)).put id ⟨args, version, content, .raised⟩) id
      ⟨args, version, content, .raised⟩ := by
  apply moves_table hbefore hfollows (hinv.table.abort hopen)
  · exact fun other hother => frame_status hother hopen
  · have hstatus : (s.table.abort id).status id = .aborted := Function.update_self ..
    change (s.table.abort id).committed id = false
    unfold Heap.committed
    rw [hstatus]
    rfl
  · exact .quiet (Heap.rows_abort hopen)

theorem scope_eq {run : LoadRun ar} (hrun : s.runs id = some run) :
    s.scope id = some run.version := by
  unfold LoadState.scope
  rw [hrun, Option.map_some]

/-- A transaction that has not begun has written nothing. -/
theorem written_nil (hinv : LoadInv nodeKey s) (hnone : s.runs id = none) :
    s.table.written id = [] := by
  apply List.eq_nil_iff_forall_not_mem.mpr
  intro row hrow
  obtain ⟨v, hv, heq, _⟩ := Heap.mem_written.mp hrow
  have hscope := hinv.table.writes v hv
  unfold LoadState.scope at hscope
  rw [heq, hnone] at hscope
  cases hscope

theorem moves_start (hinv : LoadInv nodeKey s) (hnone : s.runs id = none) (args : LoadArgs ar)
    (version : String) :
    Moves nodeKey s a (s.put id ⟨args, version, none, .checking⟩) id
      ⟨args, version, none, .checking⟩ where
  runs := rfl
  follows before hbefore := by
    rw [hnone] at hbefore
    cases hbefore
  starts _ hpassed := hpassed
  table := hinv.table
  frame other _ := Frame.refl s.table other
  sound := ⟨hinv.unused id hnone, written_nil (s := s) hinv hnone⟩
  effect := .quiet rfl

/-- The `DELETE` goes on once no transaction it waits for is open. -/
theorem moves_delete (hinv : LoadInv nodeKey s) {args : LoadArgs ar} {version : String}
    {content : Option Content} {seen : ℕ → Bool} {rows : List (EmbeddingRow O)}
    (hrun : s.runs id = some ⟨args, version, content, .deleting seen rows⟩)
    (hwaits : s.table.deleteWaits id seen EmbeddingRow.modelVersion version = false) :
    Moves nodeKey s a
      ((s.withTable (s.table.delete id seen EmbeddingRow.modelVersion version)).put id
        ⟨args, version, content, .copying [] rows⟩) id ⟨args, version, content, .copying [] rows⟩ := by
  obtain ⟨hopen, hwritten, houtput, hseen⟩ := hinv.sound id _ hrun
  refine moves_table hrun ⟨rfl, fun _ => nofun, fun _ => Or.inl trivial⟩ ?_ ?_ ?_ ?_
  · exact hinv.table.delete (scope_eq hrun) hopen hwritten hseen hwaits
  · intro other _
    exact ⟨rfl, Heap.written_delete other, fun _ hu => hu⟩
  · exact ⟨hopen, (Heap.written_delete id).trans hwritten, houtput⟩
  · exact .quiet (Heap.rows_delete hopen)

/-- A copied row that no other transaction's key stops. -/
theorem moves_insert (hinv : LoadInv nodeKey s) {args : LoadArgs ar} {version : String}
    {content : Option Content} {copied : List (EmbeddingRow O)} {row : EmbeddingRow O}
    {rest : List (EmbeddingRow O)}
    (hrun : s.runs id = some ⟨args, version, content, .copying copied (row :: rest)⟩)
    (hwaits : s.table.insertWaits EmbeddingRow.primaryKey id row = false)
    (hviolates : s.table.violates EmbeddingRow.primaryKey id row = false) :
    Moves nodeKey s a ((s.withTable (s.table.insert id row)).put id
        ⟨args, version, content, .copying (copied ++ [row]) rest⟩) id
      ⟨args, version, content, .copying (copied ++ [row]) rest⟩ := by
  obtain ⟨hopen, hwritten, houtput⟩ := hinv.sound id _ hrun
  have hversion : row.modelVersion = version :=
    houtput.rows.2.1 row (List.mem_append_right _ List.mem_cons_self)
  refine moves_table hrun ⟨rfl, fun _ => nofun, fun _ => Or.inl trivial⟩ ?_ ?_ ?_ ?_
  · exact hinv.table.insert (hversion ▸ scope_eq hrun) hopen hwaits hviolates
  · intro other hother
    refine ⟨rfl, ?_, fun _ hu => hu⟩
    rw [Heap.written_insert, if_neg (Ne.symm hother), List.append_nil]
  · refine ⟨hopen, ?_, ?_⟩
    · rw [Heap.written_insert, if_pos rfl, hwritten]
    · rw [List.append_assoc]
      exact houtput
  · exact .quiet (Heap.rows_insert hopen row)

theorem moves_commit (hinv : LoadInv nodeKey s) {args : LoadArgs ar} {version : String}
    {content : Option Content} {copied : List (EmbeddingRow O)}
    (hrun : s.runs id = some ⟨args, version, content, .copying copied []⟩) :
    Moves nodeKey s (.commit id) ((s.withTable (s.table.commit id)).put id ⟨args, version, content,
        .returned ⟨modelVersion args.config, version, copied.length, false⟩⟩) id
      ⟨args, version, content,
        .returned ⟨modelVersion args.config, version, copied.length, false⟩⟩ := by
  obtain ⟨hopen, hwritten, houtput⟩ := hinv.sound id _ hrun
  rw [List.append_nil] at houtput
  have hsame : (s.table.commit id).written id = copied := hwritten
  refine moves_table hrun ⟨rfl, fun _ => nofun, fun _ => Or.inl trivial⟩ (hinv.table.commit hopen)
    ?_ ?_ ?_
  · exact fun other hother => frame_status hother hopen
  · refine Or.inr ⟨Function.update_self .., ?_, ?_⟩
    · rw [hsame]
      exact houtput
    · rw [hsame]
  · exact .commits ⟨args, content, copied, hrun⟩ rfl

/-- The transaction of a load that has neither returned nor raised is still open. -/
theorem LoadRun.Sound.inProgress {table : Heap (EmbeddingRow O)} {run : LoadRun ar}
    (h : run.Sound nodeKey table id) (hreturned : ∀ result, run.stage ≠ .returned result)
    (hraised : run.stage ≠ .raised) : table.status id = .inProgress := by
  obtain ⟨args, version, content, stage⟩ := run
  cases stage with
  | checking => exact h.1
  | reading => exact h.1
  | writing artistIds vectors => exact h.1
  | deleting seen rows => exact h.1
  | copying copied rest => exact h.1
  | returned result => exact absurd rfl (hreturned result)
  | raised => exact absurd rfl hraised

/-- What any step does. -/
theorem step_moves (hinv : LoadInv nodeKey s) (h : s.step nodeKey a = some t) :
    ∃ id run, Moves nodeKey s a t id run := by
  cases a with
  | start id args =>
    simp only [LoadState.step] at h
    split at h
    · rename_i version hnone hversion
      cases h
      exact ⟨id, _, moves_start hinv hnone args version⟩
    · cases h
  | check id =>
    simp only [LoadState.step] at h
    split at h
    · rename_i args version content hrun
      cases h
      have hsound := hinv.sound id _ hrun
      refine ⟨id, _, moves_put hinv hrun ⟨rfl, fun _ => nofun, ?_⟩ ?_⟩
      · intro hpassed
        split at hpassed
        · exact hpassed.elim
        · rename_i hnew
          exact Or.inr ⟨rfl, rfl, eq_false_of_ne_true hnew⟩
      · split
        · exact Or.inl hsound
        · exact hsound
    · cases h
  | read id content cursors junk env =>
    simp only [LoadState.step] at h
    split at h
    · rename_i args version before hrun
      have hsound := hinv.sound id _ hrun
      split at h
      · cases h
        exact ⟨id, _, moves_put hinv hrun ⟨rfl, fun _ => nofun, fun _ => Or.inl trivial⟩
          (Heap.committed_inProgress hsound.1)⟩
      · rename_i graph hgraph
        split at h
        · cases h
          exact ⟨id, _, moves_put hinv hrun ⟨rfl, fun _ => nofun, fun _ => Or.inl trivial⟩
            (Or.inl hsound)⟩
        · rename_i hne
          split at h
          · cases h
            exact ⟨id, _, moves_put hinv hrun ⟨rfl, fun _ => nofun, fun _ => Or.inl trivial⟩
              (Heap.committed_inProgress hsound.1)⟩
          · rename_i vectors hvectors
            cases h
            exact ⟨id, _, moves_put hinv hrun ⟨rfl, fun _ => nofun, fun _ => Or.inl trivial⟩
              ⟨hsound.1, hsound.2, content, rfl, cursors, junk, env, graph, hgraph, rfl, hne,
                hvectors⟩⟩
    · cases h
  | delete id now =>
    simp only [LoadState.step] at h
    split at h
    · rename_i args version content artistIds vectors hrun
      cases h
      obtain ⟨hopen, hwritten, read, hread, hembedded⟩ := hinv.sound id _ hrun
      exact ⟨id, _, moves_put hinv hrun ⟨rfl, fun _ => nofun, fun _ => Or.inl trivial⟩
        ⟨hopen, hwritten, ⟨read, artistIds, vectors, now, hread, hembedded, rfl⟩, fun _ hu => hu⟩⟩
    · cases h
  | deleted id =>
    simp only [LoadState.step] at h
    split at h
    · rename_i args version content seen rows hrun
      split at h
      · cases h
      · rename_i hwaits
        cases h
        exact ⟨id, _, moves_delete hinv hrun (eq_false_of_ne_true hwaits)⟩
    · cases h
  | copyRow id =>
    simp only [LoadState.step] at h
    split at h
    · rename_i args version content copied row rest hrun
      split at h
      · cases h
      · rename_i hwaits
        split at h
        · cases h
          exact ⟨id, _, moves_abort hinv hrun ⟨rfl, fun _ => nofun, fun _ => Or.inl trivial⟩
            (hinv.sound id _ hrun).1⟩
        · rename_i hviolates
          cases h
          exact ⟨id, _, moves_insert hinv hrun (eq_false_of_ne_true hwaits)
            (eq_false_of_ne_true hviolates)⟩
    · cases h
  | commit id =>
    simp only [LoadState.step] at h
    split at h
    · rename_i args version content copied hrun
      cases h
      exact ⟨id, _, moves_commit hinv hrun⟩
    · cases h
  | stop id =>
    simp only [LoadState.step] at h
    split at h
    · cases h
    · cases h
    · cases h
    · rename_i run hreturned hraised hrun
      cases h
      obtain ⟨args, version, content, stage⟩ := run
      have hunreturned : ∀ result, stage ≠ .returned result := by
        rintro result rfl
        exact hreturned args version content result rfl
      have hopen := (hinv.sound id _ hrun).inProgress hunreturned fun heq =>
        hraised args version content (congrArg (LoadRun.mk args version content) heq)
      exact ⟨id, _, moves_abort hinv hrun ⟨rfl, hunreturned, fun hpassed => hpassed.elim⟩ hopen⟩

/-! ### Histories -/

def LoadState.Checks (s : LoadState ar) (id : ℕ) (version : String) : Prop :=
  ∃ args content, s.runs id = some ⟨args, version, content, .checking⟩

theorem rowsOf_nil_iff {version : String} :
    s.rowsOf version = [] ↔ s.alreadyLoaded version = false := by
  unfold LoadState.rowsOf LoadState.alreadyLoaded
  rw [List.filter_eq_nil_iff, List.any_eq_false]

theorem LoadState.Commits.inProgress (hinv : LoadInv nodeKey s) {version : String}
    (h : s.Commits id version) : s.table.status id = .inProgress := by
  obtain ⟨args, content, copied, hrun⟩ := h
  exact (hinv.sound id _ hrun).1

theorem LoadState.Commits.scope {version : String} (h : s.Commits id version) :
    s.scope id = some version := by
  obtain ⟨args, content, copied, hrun⟩ := h
  exact scope_eq hrun

/-- The rows of a version change only by the commit of a load of it. -/
theorem rowsOf_step (hinv : LoadInv nodeKey s) (h : s.step nodeKey a = some t) (version : String) :
    t.rowsOf version = s.rowsOf version ∨ ∃ id, a = .commit id ∧ s.Commits id version := by
  obtain ⟨id, run, hmoves⟩ := step_moves hinv h
  cases hmoves.effect with
  | quiet hrows =>
    left
    unfold LoadState.rowsOf
    rw [hrows]
  | commits hcommits htable =>
    rename_i committer other
    by_cases heq : version = other
    · right
      exact ⟨committer, rfl, heq ▸ hcommits⟩
    · left
      unfold LoadState.rowsOf
      rw [htable]
      exact hinv.table.commit_other hcommits.scope heq

/-- The first step that changes the rows of a version is such a commit. -/
theorem rowsOf_changed (hinv : LoadInv nodeKey s) {version : String}
    (actions : List (LoadAction ar))
    (h : (exec (LoadState.step nodeKey) s actions).rowsOf version ≠ s.rowsOf version) :
    ∃ before id after, actions = before ++ .commit id :: after ∧
      (exec (LoadState.step nodeKey) s before).rowsOf version = s.rowsOf version ∧
      (exec (LoadState.step nodeKey) s before).Commits id version := by
  induction actions generalizing s with
  | nil => exact absurd rfl h
  | cons a later ih =>
    cases hstep : s.step nodeKey a with
    | none =>
      rw [exec_cons_none hstep] at h
      obtain ⟨before, id, after, rfl, hrows, hcommits⟩ := ih hinv h
      refine ⟨a :: before, id, after, rfl, ?_⟩
      rw [exec_cons_none hstep]
      exact ⟨hrows, hcommits⟩
    | some t =>
      rw [exec_cons hstep] at h
      obtain ⟨_, _, hmoves⟩ := step_moves hinv hstep
      rcases rowsOf_step hinv hstep version with hsame | ⟨id, rfl, hcommits⟩
      · obtain ⟨before, id, after, rfl, hrows, hcommits⟩ :=
          ih (loadInv_step hinv hmoves) (hsame ▸ h)
        refine ⟨a :: before, id, after, rfl, ?_⟩
        rw [exec_cons hstep]
        exact ⟨hrows.trans hsame, hcommits⟩
      · exact ⟨[], id, later, rfl, rfl, hcommits⟩

theorem exec_inv (nodeKey : VertexKind → String → U64) (actions : List (LoadAction ar)) :
    LoadInv nodeKey (exec (LoadState.step nodeKey) LoadState.initial actions) := by
  refine (exec_reachable _ _ actions).invariant (loadInv_initial nodeKey) ?_
  intro s a t hs hstep
  obtain ⟨id, run, hmoves⟩ := step_moves hs hstep
  exact loadInv_step hs hmoves

/-- A load past its check found no rows when it checked. -/
theorem passed_check (actions : List (LoadAction ar)) {run : LoadRun ar}
    (hrun : (exec (LoadState.step nodeKey) LoadState.initial actions).runs id = some run)
    (hpassed : run.stage.Passed) : ∃ before between, actions = before ++ .check id :: between ∧
      (exec (LoadState.step nodeKey) LoadState.initial before).Checks id run.version ∧
      (exec (LoadState.step nodeKey) LoadState.initial before).rowsOf run.version = [] := by
  induction actions using List.reverseRecOn generalizing run with
  | nil => cases hrun
  | append_singleton earlier a ih =>
    have hinv := exec_inv nodeKey earlier
    rw [exec_append] at hrun
    generalize hs : exec (LoadState.step nodeKey) LoadState.initial earlier = s at hrun hinv ih
    have hstill : ∀ before, s.runs id = some before → before.version = run.version →
        before.stage.Passed → ∃ prior between, earlier ++ [a] = prior ++ .check id :: between ∧
          (exec (LoadState.step nodeKey) LoadState.initial prior).Checks id run.version ∧
          (exec (LoadState.step nodeKey) LoadState.initial prior).rowsOf run.version = [] := by
      intro before hbefore hversion hpassed
      obtain ⟨prior, between, rfl, hchecks, hrows⟩ := ih hbefore hpassed
      rw [hversion] at hchecks hrows
      exact ⟨prior, between ++ [a], by simp, hchecks, hrows⟩
    cases hstep : s.step nodeKey a with
    | none =>
      rw [exec_cons_none hstep] at hrun
      exact hstill run hrun rfl hpassed
    | some t =>
      rw [exec_cons hstep] at hrun
      change t.runs id = some run at hrun
      obtain ⟨mover, moved, hmoves⟩ := step_moves hinv hstep
      rw [hmoves.runs] at hrun
      by_cases hid : id = mover
      · subst hid
        rw [Function.update_self] at hrun
        cases hrun
        cases hbefore : s.runs id with
        | none => exact absurd hpassed (hmoves.starts hbefore)
        | some before =>
          have hfollows := hmoves.follows before hbefore
          rcases hfollows.passed hpassed with hearlier | ⟨rfl, hstage, hnew⟩
          · exact hstill before hbefore hfollows.version.symm hearlier
          · obtain ⟨args, version, content, stage⟩ := before
            cases hstage
            rw [hfollows.version]
            refine ⟨earlier, [], rfl, ?_, ?_⟩
            · rw [hs]
              exact ⟨args, content, hbefore⟩
            · rw [hs]
              exact rowsOf_nil_iff.mpr hnew
      · rw [Function.update_of_ne hid] at hrun
        exact hstill run hrun rfl hpassed

/-! ### Rows of one load, and rows of several -/

/-- One row per artist of the graph that the load read. -/
def LoadRun.CompleteOutput (nodeKey : VertexKind → String → U64) (run : LoadRun ar)
    (rows : List (EmbeddingRow O)) : Prop :=
  run.Output nodeKey rows ∧ (rows.map EmbeddingRow.artistId).Nodup ∧
    ∃ content, run.content = some content ∧
      ∀ id, id ∈ rows.map EmbeddingRow.artistId ↔ (.a, id) ∈ content.vertices

/- The rows of `version` that a load has written. -/
def LoadState.rowsBy (s : LoadState ar) (version : String) (id : ℕ) : List (EmbeddingRow O) :=
  ((s.rowsOf version).filter fun x => x.1 = id).map Prod.snd

/-- The writer of a committed row has all its output in the table. -/
theorem rowsOf_writer (hinv : LoadInv nodeKey s) {version : String} {x : ℕ × EmbeddingRow O}
    (hx : x ∈ s.rowsOf version) : ∃ run, s.runs x.1 = some run ∧ run.version = version ∧
      run.CompleteOutput nodeKey (s.rowsBy version x.1) := by
  obtain ⟨hrow, hversion⟩ := List.mem_filter.mp hx
  have hversion : x.2.modelVersion = version := of_decide_eq_true hversion
  obtain ⟨v, hv, hvisible, heq⟩ := Heap.mem_rows.mp hrow
  have hcommitted : s.table.committed x.1 = true := by
    rw [heq]
    exact (Heap.visible_iff.mp hvisible).1
  have hscope := hinv.table.writes v hv
  obtain ⟨run, hrun, hscope⟩ := Option.map_eq_some_iff.mp hscope
  have hrunVersion : run.version = version := by
    rw [hscope, ← hversion, heq]
  have hid : v.xmin = x.1 := (congrArg Prod.fst heq).symm
  rw [hid] at hrun
  have hstatus := Heap.committed_iff.mp hcommitted
  have houtput : run.Output nodeKey (s.table.written x.1) := by
    have hsound := hinv.sound x.1 run hrun
    obtain ⟨args, runVersion, content, stage⟩ := run
    cases stage with
    | checking => exact absurd (hsound.1.symm.trans hstatus) (by decide)
    | reading => exact absurd (hsound.1.symm.trans hstatus) (by decide)
    | writing artistIds vectors => exact absurd (hsound.1.symm.trans hstatus) (by decide)
    | deleting seen rows => exact absurd (hsound.1.symm.trans hstatus) (by decide)
    | copying copied rest => exact absurd (hsound.1.symm.trans hstatus) (by decide)
    | returned result =>
      rcases hsound with ⟨hopen, _⟩ | ⟨_, houtput, _⟩
      · exact absurd (hopen.symm.trans hstatus) (by decide)
      · exact houtput
    | raised =>
      have hnot : s.table.committed x.1 = false := hsound
      rw [hcommitted] at hnot
      cases hnot
  have hrows : s.rowsBy version x.1 = s.table.written x.1 := by
    have hall : (s.rowsOf version).filter (fun y => y.1 = x.1) =
        s.table.rows.filter fun y => y.1 = x.1 := by
      unfold LoadState.rowsOf
      rw [List.filter_filter]
      apply List.filter_congr
      intro y hy
      by_cases hwriter : y.1 = x.1
      · have hmem : y ∈ (s.table.written x.1).map fun row => (x.1, row) := by
          rw [← hinv.table.whole hrow]
          exact List.mem_filter.mpr ⟨hy, decide_eq_true hwriter⟩
        obtain ⟨row, hrow, rfl⟩ := List.mem_map.mp hmem
        have hrowVersion := houtput.rows.2.1 row hrow
        simp [hrowVersion, hrunVersion]
      · simp [hwriter]
    unfold LoadState.rowsBy
    rw [hall, hinv.table.whole hrow, List.map_map]
    exact List.map_id _
  rw [hrows]
  obtain ⟨_, _, hnodup, hartists⟩ := houtput.rows
  exact ⟨run, hrun, hrunVersion, houtput, hnodup, hartists⟩

/-- No artist has two rows under one version. -/
theorem rowsOf_nodup (hinv : LoadInv nodeKey s) (version : String) :
    ((s.rowsOf version).map fun x => x.2.artistId).Nodup := by
  have hkeys := hinv.table.rows_nodup
  have hfiltered : ((s.rowsOf version).map fun x => x.2.primaryKey).Nodup :=
    hkeys.sublist (List.filter_sublist.map _)
  apply List.pairwise_map.mpr
  refine (List.pairwise_map.mp hfiltered).imp_of_mem ?_
  intro x y hx hy hne heq
  have hx' : x.2.modelVersion = version := of_decide_eq_true (List.mem_filter.mp hx).2
  have hy' : y.2.modelVersion = version := of_decide_eq_true (List.mem_filter.mp hy).2
  exact hne (Prod.ext heq (hx'.trans hy'.symm))

/-- The rows of the version are the output of one load. -/
def LoadState.SingleOutput (nodeKey : VertexKind → String → U64) (s : LoadState ar)
    (version : String) : Prop :=
  ∃ id run, s.runs id = some run ∧ run.version = version ∧
    run.CompleteOutput nodeKey ((s.rowsOf version).map Prod.snd) ∧
      ∀ x ∈ s.rowsOf version, x.1 = id

theorem singleOutput_of_writer (hinv : LoadInv nodeKey s) {version : String}
    (hne : s.rowsOf version ≠ []) {id : ℕ} (hwriter : ∀ x ∈ s.rowsOf version, x.1 = id) :
    s.SingleOutput nodeKey version := by
  obtain ⟨x, hx⟩ := List.exists_mem_of_ne_nil _ hne
  obtain ⟨run, hrun, hversion, houtput⟩ := rowsOf_writer hinv hx
  obtain rfl := hwriter x hx
  have hall : s.rowsBy version x.1 = (s.rowsOf version).map Prod.snd := by
    unfold LoadState.rowsBy
    rw [List.filter_eq_self.mpr fun y hy => decide_eq_true (hwriter y hy)]
  exact ⟨x.1, run, hrun, hversion, hall ▸ houtput, hwriter⟩

/-! ### Loads that overlap -/

/-- A load of the version commits between the check and the commit of another. -/
def Overlap (nodeKey : VertexKind → String → U64) (actions : List (LoadAction ar))
    (version : String) : Prop :=
  ∃ before i between j since rest,
    actions = before ++ .check i :: between ++ .commit j :: since ++ .commit i :: rest ∧
    (exec (LoadState.step nodeKey) LoadState.initial before).Checks i version ∧
    (exec (LoadState.step nodeKey) LoadState.initial
      (before ++ .check i :: between)).Commits j version ∧
    (exec (LoadState.step nodeKey) LoadState.initial
      (before ++ .check i :: between ++ .commit j :: since)).Commits i version

/-- The version has no rows or the output of one load, which no later step touches. -/
def Kept (nodeKey : VertexKind → String → U64) (actions : List (LoadAction ar))
    (version : String) : Prop :=
  ∀ earlier later, earlier ++ later <+: actions →
    let s := exec (LoadState.step nodeKey) LoadState.initial earlier
    s.rowsOf version ≠ [] → s.SingleOutput nodeKey version ∧
      (exec (LoadState.step nodeKey) s later).rowsOf version = s.rowsOf version

theorem step_commit (nodeKey : VertexKind → String → U64) {version : String}
    (h : s.Commits id version) :
    ∃ t, s.step nodeKey (.commit id) = some t ∧ t.table = s.table.commit id := by
  obtain ⟨args, content, copied, hrun⟩ := h
  simp only [LoadState.step, hrun]
  exact ⟨_, rfl, rfl⟩

/-- Where no loads overlap, each finds the version empty when it commits. -/
theorem commits_empty {actions : List (LoadAction ar)} {version : String}
    (hoverlap : ¬Overlap nodeKey actions version) {earlier later : List (LoadAction ar)}
    (hactions : actions = earlier ++ .commit id :: later)
    (hcommits : (exec (LoadState.step nodeKey) LoadState.initial earlier).Commits id version) :
    (exec (LoadState.step nodeKey) LoadState.initial earlier).rowsOf version = [] := by
  by_contra hrows
  obtain ⟨args, content, copied, hrun⟩ := hcommits
  obtain ⟨before, between, rfl, hchecks, hnone⟩ := passed_check earlier hrun trivial
  have hchanged : (exec (LoadState.step nodeKey)
      (exec (LoadState.step nodeKey) LoadState.initial before) (.check id :: between)).rowsOf
        version ≠ (exec (LoadState.step nodeKey) LoadState.initial before).rowsOf version := by
    rw [← exec_append, hnone]
    exact hrows
  obtain ⟨middle, j, since, hsplit, _, hother⟩ := rowsOf_changed (exec_inv nodeKey before) _ hchanged
  cases middle with
  | nil => cases hsplit
  | cons first middle =>
    obtain ⟨rfl, rfl⟩ := List.cons.inj hsplit
    apply hoverlap
    refine ⟨before, id, middle, j, since, later, ?_, hchecks, ?_, ?_⟩
    · rw [hactions]
      simp
    · rw [exec_append]
      exact hother
    · have hlist : before ++ .check id :: middle ++ .commit j :: since =
          before ++ .check id :: (middle ++ .commit j :: since) := by simp
      rw [hlist]
      exact ⟨args, content, copied, hrun⟩

/-- Without overlapping loads, the rows of the version have one writer. -/
theorem single_writer {actions : List (LoadAction ar)} {version : String}
    (hoverlap : ¬Overlap nodeKey actions version) {earlier : List (LoadAction ar)}
    (hwithin : earlier <+: actions) : ∃ id, ∀ x ∈
      (exec (LoadState.step nodeKey) LoadState.initial earlier).rowsOf version, x.1 = id := by
  induction earlier using List.reverseRecOn with
  | nil => exact ⟨0, fun x hx => by cases hx⟩
  | append_singleton earlier a ih =>
    have ih := ih ((List.prefix_append _ _).trans hwithin)
    have hinv := exec_inv nodeKey earlier
    rw [exec_append]
    cases hstep : (exec (LoadState.step nodeKey) LoadState.initial earlier).step nodeKey a with
    | none =>
      rw [exec_cons_none hstep]
      exact ih
    | some t =>
      rw [exec_cons hstep]
      change ∃ id, ∀ x ∈ t.rowsOf version, x.1 = id
      rcases rowsOf_step hinv hstep version with hrows | ⟨id, rfl, hcommits⟩
      · rw [hrows]
        exact ih
      · obtain ⟨later, hlater⟩ := hwithin
        rw [List.append_assoc] at hlater
        have hempty := commits_empty hoverlap hlater.symm hcommits
        obtain ⟨t', hstep', htable⟩ := step_commit nodeKey hcommits
        obtain rfl := Option.some.inj (hstep.symm.trans hstep')
        refine ⟨id, fun x hx => ?_⟩
        unfold LoadState.rowsOf at hx
        rw [htable, hinv.table.commit_rows hcommits.scope (hcommits.inProgress hinv) hempty] at hx
        obtain ⟨row, _, rfl⟩ := List.mem_map.mp hx
        rfl

/-- A commit leaves a row of the load. -/
theorem commit_rowsOf (hinv : LoadInv nodeKey s) {version : String} (h : s.Commits id version) :
    ∃ t row, s.step nodeKey (.commit id) = some t ∧ (id, row) ∈ t.rowsOf version := by
  obtain ⟨t, hstep, htable⟩ := step_commit nodeKey h
  have hopen := h.inProgress hinv
  obtain ⟨args, content, copied, hrun⟩ := h
  obtain ⟨_, hwritten, houtput⟩ := hinv.sound id _ hrun
  rw [List.append_nil] at houtput
  obtain ⟨row, hrow⟩ := List.exists_mem_of_ne_nil _ houtput.rows.1
  refine ⟨t, row, hstep, List.mem_filter.mpr ⟨?_, ?_⟩⟩
  · rw [htable]
    exact hinv.table.mem_commit hopen (hwritten ▸ hrow)
  · exact decide_eq_true (houtput.rows.2.1 row hrow)

theorem rowsOf_uncommitted {version : String} (hopen : s.table.status id = .inProgress)
    {row : EmbeddingRow O} : (id, row) ∉ s.rowsOf version := by
  intro hrow
  obtain ⟨v, _, hvisible, heq⟩ := Heap.mem_rows.mp (List.mem_filter.mp hrow).1
  have hcommitted := (Heap.visible_iff.mp hvisible).1
  have hxmin : id = v.xmin := congrArg Prod.fst heq
  rw [← hxmin, Heap.committed_inProgress hopen] at hcommitted
  cases hcommitted

/-- The rows of a version are kept exactly when no two loads of it overlap. -/
theorem kept_iff (nodeKey : VertexKind → String → U64) (actions : List (LoadAction ar))
    (version : String) : Kept nodeKey actions version ↔ ¬Overlap nodeKey actions version := by
  constructor
  · intro hkept hoverlap
    obtain ⟨before, i, between, j, since, rest, hactions, _, hfirst, hsecond⟩ := hoverlap
    generalize hearlier : before ++ .check i :: between = earlier at hactions hfirst hsecond
    obtain ⟨t, row, hstep, hrow⟩ := commit_rowsOf (exec_inv nodeKey earlier) hfirst
    have ht : exec (LoadState.step nodeKey) LoadState.initial (earlier ++ [.commit j]) = t := by
      rw [exec_append, exec_cons hstep]
      rfl
    have hs : exec (LoadState.step nodeKey) LoadState.initial (earlier ++ .commit j :: since) =
        exec (LoadState.step nodeKey) t since := by
      rw [exec_append, exec_cons hstep]
    have hne : (exec (LoadState.step nodeKey) LoadState.initial
        (earlier ++ [.commit j])).rowsOf version ≠ [] := by
      rw [ht]
      exact List.ne_nil_of_mem hrow
    have hinv : LoadInv nodeKey (exec (LoadState.step nodeKey) t since) :=
      hs ▸ exec_inv nodeKey _
    rw [hs] at hsecond
    obtain ⟨u, row', hstep', hrow'⟩ := commit_rowsOf hinv hsecond
    have hkept := hkept (earlier ++ [LoadAction.commit j])
    have hbefore := (hkept since (by simp [hactions]) hne).2
    have hafter := (hkept (since ++ [LoadAction.commit i]) (by simp [hactions]) hne).2
    rw [ht] at hbefore hafter
    rw [exec_append, exec_cons hstep'] at hafter
    -- the second commit brings a row of its own
    have hsame : u.rowsOf version = (exec (LoadState.step nodeKey) t since).rowsOf version :=
      Eq.trans hafter hbefore.symm
    exact rowsOf_uncommitted (hsecond.inProgress hinv) (hsame ▸ hrow')
  · intro hoverlap earlier later hwithin s hrows
    have hinv : LoadInv nodeKey s := exec_inv nodeKey earlier
    obtain ⟨id, hwriter⟩ := single_writer hoverlap ((List.prefix_append _ _).trans hwithin)
    refine ⟨singleOutput_of_writer hinv hrows hwriter, ?_⟩
    by_contra hchanged
    obtain ⟨middle, other, after, rfl, hsame, hcommits⟩ := rowsOf_changed hinv later hchanged
    obtain ⟨rest, hrest⟩ := hwithin
    have hactions : actions = (earlier ++ middle) ++ .commit other :: (after ++ rest) := by
      rw [← hrest]
      simp
    rw [← exec_append] at hcommits hsame
    exact hrows (hsame.symm.trans (commits_empty hoverlap hactions hcommits))

/-- A load that has returned stays as it is. -/
theorem returned_run (hinv : LoadInv nodeKey s) {run : LoadRun ar} {result : LoadResult}
    (hrun : s.runs id = some run) (hstage : run.stage = .returned result)
    (later : List (LoadAction ar)) :
    (exec (LoadState.step nodeKey) s later).runs id = some run := by
  refine ((exec_reachable (LoadState.step nodeKey) s later).invariant
    (I := fun t => LoadInv nodeKey t ∧ t.runs id = some run) ⟨hinv, hrun⟩ ?_).2
  intro t a u ⟨hinv, hrun⟩ hstep
  obtain ⟨mover, moved, hmoves⟩ := step_moves hinv hstep
  have hid : id ≠ mover := by
    intro heq
    exact (hmoves.follows run (heq ▸ hrun)).unreturned result hstage
  refine ⟨loadInv_step hinv hmoves, ?_⟩
  rw [hmoves.runs, Function.update_of_ne hid]
  exact hrun

/-- At every moment the rows of a version are complete outputs of loads of it, with one row per
artist, and only the commit of a load that found none changes them; a load that finds some has
returned. They are one output, and stay, exactly when no two loads of the version overlap. -/
theorem committed_rows (nodeKey : VertexKind → String → U64) (actions : List (LoadAction ar)) :
    let s := exec (LoadState.step nodeKey) LoadState.initial actions
    (∀ version, ((s.rowsOf version).map fun x => x.2.artistId).Nodup ∧
      ∀ x ∈ s.rowsOf version, ∃ run, s.runs x.1 = some run ∧ run.version = version ∧
        run.CompleteOutput nodeKey (s.rowsBy version x.1)) ∧
    (∀ a t, s.step nodeKey a = some t → ∀ version, t.rowsOf version ≠ s.rowsOf version →
      ∃ id before between, a = .commit id ∧ s.Commits id version ∧
        actions = before ++ .check id :: between ∧
        (exec (LoadState.step nodeKey) LoadState.initial before).Checks id version ∧
        (exec (LoadState.step nodeKey) LoadState.initial before).rowsOf version = []) ∧
    (∀ id args version content, s.runs id = some ⟨args, version, content, .checking⟩ →
      s.rowsOf version ≠ [] → ∀ later,
        (exec (LoadState.step nodeKey) s (.check id :: later)).runs id = some ⟨args, version,
          content, .returned ⟨modelVersion args.config, version, 0, true⟩⟩) ∧
    ∀ version, Kept nodeKey actions version ↔ ¬Overlap nodeKey actions version := by
  intro s
  have hinv : LoadInv nodeKey s := exec_inv nodeKey actions
  refine ⟨fun version => ⟨rowsOf_nodup hinv version, fun x hx => rowsOf_writer hinv hx⟩, ?_, ?_,
    kept_iff nodeKey actions⟩
  · intro a t hstep version hchanged
    rcases rowsOf_step hinv hstep version with hsame | ⟨id, ha, hcommits⟩
    · exact absurd hsame hchanged
    · obtain ⟨args, content, copied, hrun⟩ := hcommits
      obtain ⟨before, between, hactions, hchecks, hnone⟩ := passed_check actions hrun trivial
      exact ⟨id, before, between, ha, ⟨args, content, copied, hrun⟩, hactions, hchecks, hnone⟩
  · intro id args version content hrun hrows later
    have hloaded : s.alreadyLoaded version = true := by
      by_contra hnew
      exact hrows (rowsOf_nil_iff.mpr (eq_false_of_ne_true hnew))
    have hstep : s.step nodeKey (.check id) = some (s.put id ⟨args, version, content,
        .returned ⟨modelVersion args.config, version, 0, true⟩⟩) := by
      simp only [LoadState.step, hrun, hloaded, if_true]
    obtain ⟨_, _, hmoves⟩ := step_moves hinv hstep
    rw [exec_cons hstep]
    exact returned_run (loadInv_step hinv hmoves) (Function.update_self ..) rfl later

end

/-! ### A second load of a dump -/

section
variable {nodeKey : VertexKind → String → U64} {args : LoadArgs ar} {version : String}
  {content content' : Content} {cursors : Cursors content} {cursors' : Cursors content'}
  {junk : ℕ → ℕ} {env : Surroundings F} {graph graph' : Graph F} {artist artist' : String}
  {vectors vectors' : Block O}

/- Two loads of one dump check before either has written; the second writes once the first has
committed. -/
def firstCommit (args : LoadArgs ar) (cursors : Cursors content) (cursors' : Cursors content')
    (junk : ℕ → ℕ) (env : Surroundings F) : List (LoadAction ar) :=
  [.start 0 args, .start 1 args, .check 0, .check 1, .read 0 content cursors junk env,
    .read 1 content' cursors' junk env, .delete 0 5, .deleted 0, .copyRow 0, .commit 0]

def secondCommit (ar : Arithmetic F Float64 O) : List (LoadAction ar) :=
  [.delete 1 9, .deleted 1, .copyRow 1, .commit 1]

theorem secondCommit_rows (hversion : storedModelVersion args.config args.dumpId = .ok version)
    (hgraph : readGraph ar nodeKey junk cursors = .ok graph) (hids : graph.artistIds = [artist])
    (hvectors : artistVectors ar env nodeKey args.config graph = .ok vectors)
    (hgraph' : readGraph ar nodeKey junk cursors' = .ok graph')
    (hids' : graph'.artistIds = [artist'])
    (hvectors' : artistVectors ar env nodeKey args.config graph' = .ok vectors') :
    let s := exec (LoadState.step nodeKey) LoadState.initial
      (firstCommit args cursors cursors' junk env)
    (s.rowsOf version).map (fun x => x.2.artistId) = [artist] ∧
      ((exec (LoadState.step nodeKey) s (secondCommit ar)).rowsOf version).map
        (fun x => x.2.artistId) = [artist'] := by
  unfold exec firstCommit secondCommit
  refine ⟨?_, ?_⟩ <;>
  simp [LoadState.rowsOf, LoadState.step, LoadState.initial, LoadState.put, LoadState.withTable,
    LoadState.alreadyLoaded, hversion, hgraph, hids, hvectors, hgraph', hids', hvectors',
    embeddingRows, EmbeddingRow.primaryKey, Function.update, Heap.empty, Heap.rows, Heap.visible,
    Heap.committed, Heap.deleted, Heap.deleteWaits, Heap.delete, Heap.mark, Heap.targets,
    Heap.openElsewhere, Heap.insertWaits, Heap.violates, Heap.insert, Heap.commit]

end

def oneArtist (id : String) : Content where
  vertexDegree := [(.a, id)]
  discovery _ := []
  edges _ := []

theorem oneArtist_vertices (id : String) : (oneArtist id).vertices = [(.a, id)] := by
  unfold Content.vertices Content.listed Content.ends oneArtist
  simp [vertexKinds]

def unitSurroundings : Surroundings Unit :=
  { inOrder with
    executor := ⟨fun _ writes => applyWrites writes fun _ _ => (), fun _ writes =>
      ⟨fun _ _ => (), writes, List.Perm.refl _, rfl⟩⟩
    junk := fun _ _ _ => () }

theorem oneArtist_read (id : String) (args : LoadArgs noArithmetic)
    (hseed : 0 ≤ args.config.seed ∧ args.config.seed < 2 ^ 64) : ∃ graph vectors,
      readGraph noArithmetic decimalKey (fun _ => 0) (wholeCursors (oneArtist id)) = .ok graph ∧
      graph.artistIds = [id] ∧
      artistVectors noArithmetic unitSurroundings decimalKey args.config graph = .ok vectors := by
  have hinj : ∀ v ∈ (oneArtist id).vertices, ∀ w ∈ (oneArtist id).vertices,
      decimalKey v.1 v.2 = decimalKey w.1 w.2 → v = w := by
    rw [oneArtist_vertices]
    intro v hv w hw _
    rw [List.mem_singleton.mp hv, List.mem_singleton.mp hw]
  have hlisted : ∀ v ∈ (oneArtist id).ends, v.1 ≠ .a → v ∈ (oneArtist id).listed := by
    intro v hv
    obtain ⟨_, _, _, hrow, _⟩ := Content.mem_ends.mp hv
    cases hrow
  have hsize : ¬maxNodes < ((oneArtist id).keys decimalKey).length := by
    rw [Content.length_keys hinj, oneArtist_vertices]
    simp [maxNodes]
  let graph : Graph Unit :=
    ⟨⟨(oneArtist id).keys decimalKey, (oneArtist id).keys_ordered decimalKey, not_lt.mp hsize⟩,
      (streamEdgeBlocks decimalKey (wholeCursors (oneArtist id))
        (readVertices decimalKey (wholeCursors (oneArtist id)))).1.artistIds,
      adjacencyOf noArithmetic ⟨_, (oneArtist id).keys_ordered decimalKey, not_lt.mp hsize⟩
        (simpleGraph ((oneArtist id).keyEdges decimalKey))⟩
  have hgraph : readGraph noArithmetic decimalKey (fun _ => 0) (wholeCursors (oneArtist id)) =
      .ok graph := (readGraph_eq hlisted _ _).trans (dif_neg hsize)
  have hread : IsGraphOf noArithmetic decimalKey (oneArtist id) graph :=
    isGraphOf_read hinj rfl (read_covers hlisted _)
  obtain ⟨vectors, hvectors, _⟩ := artistVectors_entry hread unitSurroundings hseed
  have hids : graph.artistIds.Perm [id] := by
    apply (List.perm_ext_iff_of_nodup hread.artists_nodup (List.nodup_singleton id)).mpr
    intro other
    rw [hread.artists, oneArtist_vertices]
    simp
  exact ⟨graph, vectors, hgraph, List.perm_singleton.mp hids, hvectors⟩

def septemberLoad : LoadArgs noArithmetic := ⟨oneWeight seventhSeven rfl, "2026-09", ⟨2026, 9, 1⟩⟩

def septemberVersion : String :=
  modelVersion septemberLoad.config ++ ":" ++ edgeSetVersion ++
    String.singleton storedVersionSeparator ++ septemberLoad.dumpId

/-- The first load has committed the row of artist 7 when the second, for which the graph holds
artist 8, deletes it and commits its own. -/
theorem committed_rows_replaced :
    let first := firstCommit septemberLoad (wholeCursors (oneArtist "7"))
      (wholeCursors (oneArtist "8")) (fun _ => 0) unitSurroundings
    let s := exec (LoadState.step decimalKey) LoadState.initial first
    let t := exec (LoadState.step decimalKey) s (secondCommit noArithmetic)
    (s.rowsOf septemberVersion).map (fun x => x.2.artistId) = ["7"] ∧
      (t.rowsOf septemberVersion).map (fun x => x.2.artistId) = ["8"] ∧
      ¬Kept decimalKey (first ++ secondCommit noArithmetic) septemberVersion := by
  intro first s t
  have hversion : storedModelVersion septemberLoad.config septemberLoad.dumpId =
      .ok septemberVersion := by
    unfold storedModelVersion
    rw [if_neg (by decide)]
    rfl
  have hseed : 0 ≤ septemberLoad.config.seed ∧ septemberLoad.config.seed < 2 ^ 64 := by decide
  obtain ⟨_, _, hgraph, hids, hvectors⟩ := oneArtist_read "7" septemberLoad hseed
  obtain ⟨_, _, hgraph', hids', hvectors'⟩ := oneArtist_read "8" septemberLoad hseed
  have hrows : (s.rowsOf septemberVersion).map (fun x => x.2.artistId) = ["7"] ∧
      (t.rowsOf septemberVersion).map (fun x => x.2.artistId) = ["8"] :=
    secondCommit_rows hversion hgraph hids hvectors hgraph' hids' hvectors'
  refine ⟨hrows.1, hrows.2, ?_⟩
  intro hkept
  have hne : s.rowsOf septemberVersion ≠ [] := by
    intro hnil
    rw [hnil] at hrows
    cases hrows.1
  have hsame := (hkept first (secondCommit noArithmetic) (List.prefix_refl _) hne).2
  have hids := hrows.2
  rw [show t.rowsOf septemberVersion = s.rowsOf septemberVersion from hsame, hrows.1] at hids
  exact absurd hids (by decide)

end AnalyticsEngine.EmbeddingPipeline
