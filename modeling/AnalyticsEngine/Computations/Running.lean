import AnalyticsEngine.Computations.Ledger
import Mathlib.Data.List.Perm.Subperm

/-!
# One run at a time

Where the log writes work, the process that is up has closed the runs of those before it, so the
endpoint never reports two computations as running or stale. A reader that comes in the middle of a
call sees the log that a kill there leaves behind.
-/

namespace AnalyticsEngine.Computations
open Library

variable {τ : Type*}

def Row.isRunning (row : Row τ) : Bool := row.status = .running

def Entry.isRunning (entry : Entry τ) : Bool := entry.status = .running

/- The log writes of the action work, and no row is removed. -/
def Action.Works : Action τ → Prop
  | .startup sweep => sweep.statement.commits = true
  | .compute _ computation => computation.script.removed = [] ∧ computation.Recorded
  | .killed _ computation _ => computation.script.removed = [] ∧ computation.Recorded
  | _ => True

section
variable {log : Log τ} {computation : Computation τ}

theorem countP_running_interrupt (log : Log τ) (sweep : Sweep τ) :
    (log.interrupt sweep).rows.countP Row.isRunning = 0 := by
  rw [List.countP_eq_zero]
  intro r hr
  obtain ⟨row, _, rfl⟩ := List.mem_map.mp hr
  unfold Row.isRunning Row.interrupt
  split
  · simp
  · next hstatus => simpa using hstatus

theorem countP_running_call (name : String) (log : Log τ) (hrecorded : computation.Recorded)
    (hremoved : computation.script.removed = []) (point : Point) :
    (lifecycleAt (computation.run name) log computation.script point).rows.countP Row.isRunning =
      log.rows.countP Row.isRunning +
        (computation.entryAt point).toList.countP Entry.isRunning := by
  obtain ⟨new, hrows, hentries⟩ := lifecycleAt_recorded name log hrecorded hremoved point
  rw [hrows, List.countP_append, ← hentries, List.countP_map]
  rfl

theorem countP_entryAt_le (point : Point) :
    (computation.entryAt point).toList.countP Entry.isRunning ≤ 1 := by
  refine List.countP_le_length.trans ?_
  cases computation.entryAt point with
  | none => exact Nat.zero_le 1
  | some entry => exact le_rfl

theorem outcomeEntry_isRunning (computation : Computation τ) :
    computation.outcomeEntry.isRunning = false := by
  unfold Entry.isRunning Computation.outcomeEntry
  rcases computation.script.operation with rowsAffected | description | _ <;> rfl

/-- A call that is cancelled as it starts leaves the wrapper. -/
theorem recordLifecycle_start_cancelled (run : Run τ) (log : Log τ) {script : Script τ}
    (h : script.start.fault = some .cancelled) :
    (recordLifecycle run log script).2 = .stopped .cancelled := by
  unfold recordLifecycle startComputation
  rw [h]

/-- A call after which the process goes on has closed its run. -/
theorem countP_entryAt_finished (run : Run τ) (log : Log τ)
    (h : (recordLifecycle run log computation.script).2 ≠ .stopped .cancelled) :
    (computation.entryAt .finished).toList.countP Entry.isRunning = 0 := by
  have hstart : computation.script.start.fault ≠ some .cancelled :=
    fun hcancelled => h (recordLifecycle_start_cancelled run log hcancelled)
  have hentry : computation.entryAt .finished = some computation.outcomeEntry := by
    unfold Computation.entryAt
    simp [hstart]
  rw [hentry]
  simp [outcomeEntry_isRunning]

end

/-! ### The invariant -/

/- At most one run is open, and none while a process is between two calls. -/
structure OneRunning (engine : Engine τ) : Prop where
  atMost : engine.log.rows.countP Row.isRunning ≤ 1
  closed : engine.phase ≠ .down → engine.log.rows.countP Row.isRunning = 0

theorem oneRunning_of_closed {engine : Engine τ}
    (h : engine.log.rows.countP Row.isRunning = 0) : OneRunning engine :=
  ⟨h ▸ Nat.zero_le 1, fun _ => h⟩

theorem oneRunning_step {engine next : Engine τ} {action : Action τ} (hone : OneRunning engine)
    (hworks : action.Works) (h : engineStep engine action = some next) : OneRunning next := by
  have hlog := engineStep_log h
  unfold engineStep at h
  cases action with
  | startup sweep =>
    apply oneRunning_of_closed
    have hcommits : sweep.statement.commits = true := hworks
    rw [hlog]
    simp only [logStep, hcommits, if_true]
    exact countP_running_interrupt engine.log sweep
  | cycle =>
    simp only at h
    split at h
    · next hphase =>
      cases h
      exact oneRunning_of_closed (hone.closed (by simp [hphase]))
    · cases h
  | compute name computation =>
    obtain ⟨hremoved, hrecorded⟩ := hworks
    simp only at h
    split at h
    · next hphase =>
      have hclosed := hone.closed (by simp [hphase])
      have hcount := countP_running_call name engine.log hrecorded hremoved .finished
      rw [hclosed, Nat.zero_add] at hcount
      have hrows : next.log.rows.countP Row.isRunning =
          (computation.entryAt .finished).toList.countP Entry.isRunning := by
        rw [hlog]
        exact hcount
      split_ifs at h with hname
      have hgoes : ∀ outcome, (recordLifecycle (computation.run name) engine.log
            computation.script).2 = outcome → outcome ≠ .stopped .cancelled →
          OneRunning next := by
        intro outcome heq hne
        apply oneRunning_of_closed
        rw [hrows]
        exact countP_entryAt_finished (computation.run name) engine.log (heq ▸ hne)
      split at h
      · next heq => exact hgoes _ (congrArg Prod.snd heq) (by simp)
      · next heq => exact hgoes _ (congrArg Prod.snd heq) (by simp)
      · cases h
        exact ⟨hrows ▸ countP_entryAt_le .finished, fun hphase => absurd rfl hphase⟩
    · cases h
  | rest =>
    simp only at h
    split at h
    · next hphase =>
      cases h
      exact oneRunning_of_closed (hone.closed (by simp [hphase]))
    · cases h
  | killed name computation point =>
    obtain ⟨hremoved, hrecorded⟩ := hworks
    simp only at h
    split at h
    · next hphase =>
      split_ifs at h with hname
      cases h
      refine ⟨?_, fun hphase => absurd rfl hphase⟩
      simp only
      rw [countP_running_call name engine.log hrecorded hremoved point,
        hone.closed (by simp [hphase]), Nat.zero_add]
      exact countP_entryAt_le point
    · cases h
  | stop =>
    simp only at h
    split at h
    · cases h
    · cases h
      exact ⟨hone.atMost, fun hphase => absurd rfl hphase⟩

theorem oneRunning_run {actions : List (Action τ)} {start engine : Engine τ}
    (hone : OneRunning start) (hworks : ∀ a ∈ actions, a.Works)
    (hrun : engineRun start actions = some engine) : OneRunning engine := by
  unfold engineRun at hrun
  induction actions generalizing start with
  | nil =>
    cases hrun
    exact hone
  | cons action later ih =>
    rw [List.foldlM_cons] at hrun
    obtain ⟨next, hnext, hlater⟩ := Option.bind_eq_some_iff.mp hrun
    exact ih (oneRunning_step hone (hworks action List.mem_cons_self) hnext)
      (fun a ha => hworks a (List.mem_cons_of_mem _ ha)) hlater

/-! ### What is reported -/

def Reported.isOpen : Reported → Bool
  | .stale => true
  | .last .running => true
  | _ => false

section
variable [LinearOrder τ] (first : Selector (Row.startedAt (τ := τ)))

/-- A computation reported as running or stale has an open run. -/
theorem open_row {staleBefore : τ} {log : Log τ} {itype : String}
    (h : (computationStatusOf first staleBefore log itype).status.isOpen = true) :
    itype ∈ (log.rows.filter Row.isRunning).map Row.insightType := by
  unfold computationStatusOf at h
  cases hnewest : newest first (log.rows.filter fun row => row.insightType = itype) with
  | none => simp [hnewest, Reported.isOpen] at h
  | some row =>
    have hrow : row ∈ log.rows.filter fun row => row.insightType = itype :=
      (first.selects 1 _).subset (List.mem_of_mem_head? hnewest)
    obtain ⟨hmem, htype⟩ := List.mem_filter.mp hrow
    simp only [hnewest] at h
    refine List.mem_map.mpr ⟨row, List.mem_filter.mpr ⟨hmem, ?_⟩, of_decide_eq_true htype⟩
    unfold Row.isRunning
    rcases hstatus : row.status with _ | _ | _ | _
    · rfl
    all_goals simp [hstatus, Reported.isOpen] at h

theorem insightTypes_nodup : insightTypes.Nodup := by
  simp [insightTypes]

/-- In every run of the engine whose log writes work, the endpoint reports at most one computation
as running or stale, and none while a process is between two calls. -/
theorem computationStatus_one_running (staleBefore : τ) (actions : List (Action τ))
    {engine : Engine τ} (hrun : engineRun .new actions = some engine)
    (hworks : ∀ a ∈ actions, a.Works) :
    (computationStatus first staleBefore engine.log).countP (fun s => s.status.isOpen) ≤ 1 ∧
      (engine.phase ≠ .down →
        ∀ s ∈ computationStatus first staleBefore engine.log, s.status.isOpen = false) := by
  have hnew : OneRunning (Engine.new : Engine τ) := oneRunning_of_closed rfl
  have hone := oneRunning_run hnew hworks hrun
  have hle : (computationStatus first staleBefore engine.log).countP (fun s => s.status.isOpen) ≤
      engine.log.rows.countP Row.isRunning := by
    unfold computationStatus
    rw [List.countP_map, List.countP_eq_length_filter, List.countP_eq_length_filter]
    have hsub : insightTypes.filter (fun itype =>
          (computationStatusOf first staleBefore engine.log itype).status.isOpen) ⊆
        (engine.log.rows.filter Row.isRunning).map Row.insightType := by
      intro itype hitype
      exact open_row first (List.mem_filter.mp hitype).2
    have hlength := ((insightTypes_nodup.filter _).subperm hsub).length_le
    rwa [List.length_map] at hlength
  refine ⟨hle.trans hone.atMost, ?_⟩
  intro hphase s hs
  rw [hone.closed hphase, Nat.le_zero, List.countP_eq_zero] at hle
  simpa using hle s hs

end

theorem computationStatus_one_running_killedOnce : ∃ engine,
    engineRun .new killedOnce = some engine ∧
      (computationStatus (Selector.stable _) 0 engine.log).countP (fun s => s.status.isOpen) ≤ 1 := by
  refine ⟨_, rfl, ?_⟩
  refine (computationStatus_one_running (Selector.stable _) 0 killedOnce rfl ?_).1
  intro action haction
  simp only [killedOnce, List.mem_cons, List.not_mem_nil, or_false] at haction
  rcases haction with rfl | rfl | rfl | rfl | rfl
  · rfl
  · trivial
  · exact ⟨rfl, promptCall_recorded 10⟩
  · exact ⟨rfl, promptCall_recorded 20⟩
  · rfl

end AnalyticsEngine.Computations
