import AnalyticsEngine.Library.Transition
import Mathlib.Data.List.Basic

/-!
# Runs and their files (scripts/measure_recall_churn.py, `main_async`)

Runs follow one another on one `--out` path, each may stop anywhere. They share the result and the
August checkpoint beside it, which are written in place. What a run measures is kept as what it
measured and which run that was.
-/

namespace AnalyticsEngine.RecallChurn
open Library

/- A file written by `write_text`; between its opening and its last byte it does not load. -/
inductive TextFile (α : Type*) where
  | absent
  | torn
  | whole (content : α)

structure Measured where
  modelVersion : String
  run : ℕ

/- `--skip-ann-churn`, and the stored versions of the two files. -/
structure Args where
  skipAnnChurn : Bool
  aug : String
  sept : String

/- A result; `key` is its key `partial`, if it has one. -/
structure Report where
  august : Option Measured
  september : Measured
  key : Option Bool

inductive RunPhase where
  | begun
  | august
  | saving (aug : Measured)
  | september (aug : Option Measured)
  | reportingFirst (aug : Option Measured)
  | larger (aug : Option Measured)
  | reportingLast (aug : Option Measured)

structure Run where
  id : ℕ
  args : Args
  phase : RunPhase

/- The files and the run under way; the rest is kept for the record. -/
structure World where
  checkpoint : TextFile Measured
  out : TextFile Report
  run : Option Run
  nextRun : ℕ
  started : List (ℕ × Args)
  finished : List (ℕ × Args)
  -- who opened `out` last
  writer : Option (ℕ × Args)

inductive Action where
  | start (args : Args)
  | proceed
  -- an exception or a kill
  | fail

/-- `_load_checkpoint`; a torn file raises. -/
def loadCheckpoint (checkpoint : TextFile Measured) (modelVersion : String) :
    Option (Option Measured) :=
  match checkpoint with
  | .absent => some none
  | .torn => none
  | .whole aug => some (if aug.modelVersion = modelVersion then some aug else none)

/-- `is_result_complete`. -/
def isResultComplete : TextFile Report → Bool
  | .whole report => report.key = some false
  | _ => false

namespace World

def initial : World := ⟨.absent, .absent, none, 0, [], [], none⟩

def goto (w : World) (run : Run) (phase : RunPhase) : World :=
  { w with run := some { run with phase } }

/-- `args.out` is opened for a report. -/
def openOut (w : World) (run : Run) : World :=
  { w with out := .torn, writer := some (run.id, run.args) }

/-- The next step of a run. -/
def proceed (w : World) (run : Run) : World :=
  match run.phase with
  | .begun =>
    if run.args.skipAnnChurn then w.goto run (.september none)
    else match loadCheckpoint w.checkpoint run.args.aug with
      | none => { w with run := none }
      | some none => w.goto run .august
      | some (some aug) => w.goto run (.september (some aug))
  -- `_save_checkpoint` opens its file
  | .august => { w with checkpoint := .torn }.goto run (.saving ⟨run.args.aug, run.id⟩)
  | .saving aug => { w with checkpoint := .whole aug }.goto run (.september (some aug))
  | .september aug => (w.openOut run).goto run (.reportingFirst aug)
  | .reportingFirst aug =>
    { w with out := .whole ⟨aug, ⟨run.args.sept, run.id⟩, some true⟩ }.goto run (.larger aug)
  | .larger aug => (w.openOut run).goto run (.reportingLast aug)
  -- the trimmed run sets the key, the other drops it
  | .reportingLast aug =>
    { w with
      out := .whole ⟨aug, ⟨run.args.sept, run.id⟩, if run.args.skipAnnChurn then some false else none⟩
      run := none
      finished := (run.id, run.args) :: w.finished }

def step (w : World) : Action → Option World
  | .start args =>
    match w.run with
    | none => some { w with
        run := some ⟨w.nextRun, args, .begun⟩
        nextRun := w.nextRun + 1
        started := (w.nextRun, args) :: w.started }
    | some _ => none
  | .proceed => w.run.map w.proceed
  | .fail => w.run.map fun _ => { w with run := none }

end World

/-! ### What the files hold -/

/-- What a full run may take for August: what a full run on that version measured. -/
def FromRun (started : List (ℕ × Args)) (aug : Measured) : Prop :=
  ∃ args, (aug.run, args) ∈ started ∧ args.skipAnnChurn = false ∧ args.aug = aug.modelVersion

/-- The August part that goes with the arguments. -/
def Fits (started : List (ℕ × Args)) (args : Args) : Option Measured → Prop
  | none => args.skipAnnChurn = true
  | some aug => args.skipAnnChurn = false ∧ aug.modelVersion = args.aug ∧ FromRun started aug

/-- What a phase knows about August. -/
def PhaseFits (started : List (ℕ × Args)) (run : Run) : Prop :=
  match run.phase with
  | .begun => True
  | .august => run.args.skipAnnChurn = false
  | .saving aug => Fits started run.args (some aug)
  | .september aug => Fits started run.args aug
  | .reportingFirst aug => Fits started run.args aug
  | .larger aug => Fits started run.args aug
  | .reportingLast aug => Fits started run.args aug

/-- Whether the run has opened `out`. -/
def RunPhase.opened : RunPhase → Bool
  | .reportingFirst _ => true
  | .larger _ => true
  | .reportingLast _ => true
  | _ => false

/-- What is in `out`, by the run that opened it last. -/
def OutFits (w : World) (writer : ℕ × Args) : Prop :=
  (writer ∉ w.finished ∧ isResultComplete w.out = false ∧
      ∀ report, w.out = .whole report → report.key = some true) ∨
    (writer ∈ w.finished ∧ ∃ report, w.out = .whole report ∧
      report.key = if writer.2.skipAnnChurn then some false else none)

structure World.Inv (w : World) : Prop where
  fresh : ∀ x ∈ w.started, x.1 < w.nextRun
  finished : ∀ x ∈ w.finished, x.1 < w.nextRun
  running : ∀ run, w.run = some run → (run.id, run.args) ∈ w.started ∧
    (∀ x ∈ w.finished, x.1 ≠ run.id) ∧ PhaseFits w.started run
  opened : ∀ run, w.run = some run → run.phase.opened = true → w.writer = some (run.id, run.args)
  checkpoint : ∀ aug, w.checkpoint = .whole aug → FromRun w.started aug
  out : ∀ report, w.out = .whole report → ∃ writer, w.writer = some writer ∧
    report.september = ⟨writer.2.sept, writer.1⟩ ∧ Fits w.started writer.2 report.august
  untouched : w.writer = none → w.out = .absent
  written : ∀ writer, w.writer = some writer → OutFits w writer

section
variable {w : World} {run : Run}

theorem FromRun.mono {started : List (ℕ × Args)} {aug : Measured} (h : FromRun started aug)
    (x : ℕ × Args) : FromRun (x :: started) aug := by
  obtain ⟨args, hmem, hfull, haug⟩ := h
  exact ⟨args, List.mem_cons_of_mem x hmem, hfull, haug⟩

theorem Fits.mono {started : List (ℕ × Args)} {args : Args} {aug : Option Measured}
    (h : Fits started args aug) (x : ℕ × Args) : Fits (x :: started) args aug := by
  cases aug with
  | none => exact h
  | some aug => exact ⟨h.1, h.2.1, h.2.2.mono x⟩

theorem loadCheckpoint_some {checkpoint : TextFile Measured} {version : String} {aug : Measured}
    (h : loadCheckpoint checkpoint version = some (some aug)) :
    checkpoint = .whole aug ∧ aug.modelVersion = version := by
  unfold loadCheckpoint at h
  cases checkpoint with
  | absent => cases h
  | torn => cases h
  | whole found =>
    have hfound := Option.some.inj h
    split_ifs at hfound with hversion
    cases hfound
    exact ⟨rfl, hversion⟩

namespace World.Inv

theorem initial : World.initial.Inv where
  fresh _ h := by cases h
  finished _ h := by cases h
  running _ h := by cases h
  opened _ h := by cases h
  checkpoint _ h := by cases h
  out _ h := by cases h
  untouched _ := rfl
  written _ h := by cases h

theorem idle (h : w.Inv) : { w with run := none }.Inv :=
  { h with
    running := fun _ hrun => by cases hrun
    opened := fun _ hrun => by cases hrun }

theorem start (h : w.Inv) (args : Args) : { w with
    run := some ⟨w.nextRun, args, .begun⟩
    nextRun := w.nextRun + 1
    started := (w.nextRun, args) :: w.started }.Inv where
  fresh x hx := by
    rcases List.mem_cons.mp hx with rfl | hx
    · exact Nat.lt_succ_self _
    · exact Nat.lt_succ_of_lt (h.fresh x hx)
  finished x hx := Nat.lt_succ_of_lt (h.finished x hx)
  running run hrun := by
    cases hrun
    exact ⟨List.mem_cons_self, fun x hx => Nat.ne_of_lt (h.finished x hx), trivial⟩
  opened run hrun hopened := by
    cases hrun
    cases hopened
  checkpoint aug haug := (h.checkpoint aug haug).mono _
  out report hreport := by
    obtain ⟨writer, hwriter, hseptember, hfits⟩ := h.out report hreport
    exact ⟨writer, hwriter, hseptember, hfits.mono _⟩
  untouched := h.untouched
  written := h.written

theorem goto (h : w.Inv) (hrun : w.run = some run) {phase : RunPhase}
    (hfits : PhaseFits w.started { run with phase })
    (hopened : phase.opened = true → w.writer = some (run.id, run.args)) : (w.goto run phase).Inv :=
  { h with
    running := fun run' hrun' => by
      cases hrun'
      obtain ⟨hstarted, hnew, _⟩ := h.running run hrun
      exact ⟨hstarted, hnew, hfits⟩
    opened := fun run' hrun' => by
      cases hrun'
      exact hopened }

theorem openOut (h : w.Inv) (hrun : w.run = some run) : (w.openOut run).Inv := by
  obtain ⟨_, hnew, _⟩ := h.running run hrun
  exact { h with
    opened := fun run' hrun' _ => by
      cases hrun.symm.trans hrun'
      rfl
    out := fun report hreport => by cases hreport
    untouched := fun hnone => by cases hnone
    written := fun writer hwriter => by
      cases hwriter
      exact Or.inl ⟨fun hmem => hnew _ hmem rfl, rfl, fun report hreport => by cases hreport⟩ }

theorem save (h : w.Inv) (checkpoint : TextFile Measured)
    (haug : ∀ aug, checkpoint = .whole aug → FromRun w.started aug) :
    { w with checkpoint }.Inv :=
  { h with checkpoint := haug }

theorem reportFirst (h : w.Inv) (hrun : w.run = some run) {aug : Option Measured}
    (hphase : run.phase = .reportingFirst aug) :
    { w with out := .whole ⟨aug, ⟨run.args.sept, run.id⟩, some true⟩ }.Inv := by
  obtain ⟨_, hnew, hfits⟩ := h.running run hrun
  have hwriter := h.opened run hrun (by rw [hphase]; rfl)
  unfold PhaseFits at hfits
  rw [hphase] at hfits
  exact { h with
    out := fun report hreport => by
      cases hreport
      exact ⟨_, hwriter, rfl, hfits⟩
    untouched := fun hnone => by
      dsimp only at hnone
      rw [hwriter] at hnone
      cases hnone
    written := fun writer hwriter' => by
      cases hwriter.symm.trans hwriter'
      refine Or.inl ⟨fun hmem => hnew _ hmem rfl, rfl, ?_⟩
      intro report hreport
      cases hreport
      rfl }

theorem reportLast (h : w.Inv) (hrun : w.run = some run) {aug : Option Measured}
    (hphase : run.phase = .reportingLast aug) : { w with
      out := .whole ⟨aug, ⟨run.args.sept, run.id⟩, if run.args.skipAnnChurn then some false else none⟩
      run := none
      finished := (run.id, run.args) :: w.finished }.Inv := by
  obtain ⟨hstarted, _, hfits⟩ := h.running run hrun
  have hwriter := h.opened run hrun (by rw [hphase]; rfl)
  unfold PhaseFits at hfits
  rw [hphase] at hfits
  exact { h with
    finished := fun x hx => by
      rcases List.mem_cons.mp hx with rfl | hx
      · exact h.fresh _ hstarted
      · exact h.finished x hx
    running := fun _ hnone => by cases hnone
    opened := fun _ hnone => by cases hnone
    out := fun report hreport => by
      cases hreport
      exact ⟨_, hwriter, rfl, hfits⟩
    untouched := fun hnone => by
      dsimp only at hnone
      rw [hwriter] at hnone
      cases hnone
    written := fun writer hwriter' => by
      cases hwriter.symm.trans hwriter'
      exact Or.inr ⟨List.mem_cons_self, _, rfl, rfl⟩ }

theorem proceed (h : w.Inv) (hrun : w.run = some run) : (w.proceed run).Inv := by
  obtain ⟨hstarted, _, hfits⟩ := h.running run hrun
  unfold PhaseFits at hfits
  unfold World.proceed
  cases hphase : run.phase with
  | begun =>
    dsimp only
    split_ifs with hskip
    · exact h.goto hrun hskip fun hopened => by cases hopened
    · have hfull : run.args.skipAnnChurn = false := by simpa using hskip
      cases hload : loadCheckpoint w.checkpoint run.args.aug with
      | none => exact h.idle
      | some found =>
        cases found with
        | none => exact h.goto hrun hfull fun hopened => by cases hopened
        | some aug =>
          obtain ⟨hcheckpoint, hversion⟩ := loadCheckpoint_some hload
          refine h.goto hrun ?_ fun hopened => by cases hopened
          exact ⟨hfull, hversion, h.checkpoint aug hcheckpoint⟩
  | august =>
    rw [hphase] at hfits
    refine (h.save .torn fun aug haug => by cases haug).goto hrun ?_ fun hopened => by cases hopened
    exact ⟨hfits, rfl, run.args, hstarted, hfits, rfl⟩
  | saving aug =>
    rw [hphase] at hfits
    refine (h.save (.whole aug) ?_).goto hrun hfits fun hopened => by cases hopened
    intro aug' haug
    cases haug
    exact hfits.2.2
  | september aug =>
    rw [hphase] at hfits
    exact (h.openOut hrun).goto hrun hfits fun _ => rfl
  | reportingFirst aug =>
    have hwriter := h.opened run hrun (by rw [hphase]; rfl)
    rw [hphase] at hfits
    exact (h.reportFirst hrun hphase).goto hrun hfits fun _ => hwriter
  | larger aug =>
    rw [hphase] at hfits
    exact (h.openOut hrun).goto hrun hfits fun _ => rfl
  | reportingLast aug => exact h.reportLast hrun hphase

theorem step (h : w.Inv) {action : Action} {w' : World} (hstep : w.step action = some w') : w'.Inv := by
  cases action with
  | start args =>
    unfold World.step at hstep
    cases hrun : w.run with
    | none =>
      rw [hrun] at hstep
      cases hstep
      exact h.start args
    | some run =>
      rw [hrun] at hstep
      cases hstep
  | proceed =>
    obtain ⟨run, hrun, rfl⟩ := Option.map_eq_some_iff.mp hstep
    exact h.proceed hrun
  | fail =>
    obtain ⟨run, hrun, rfl⟩ := Option.map_eq_some_iff.mp hstep
    exact h.idle

theorem reachable (h : Reachable World.step World.initial w) : w.Inv :=
  h.invariant initial fun _ _ _ hinv hstep => hinv.step hstep

end World.Inv

/-- The result counts as complete exactly if the run that opened it last finished and was a trimmed
one: after a full run, finished or not, it never does. -/
theorem isResultComplete_iff (h : Reachable World.step World.initial w) :
    isResultComplete w.out = true ↔
      ∃ id args, w.writer = some (id, args) ∧ (id, args) ∈ w.finished ∧ args.skipAnnChurn = true := by
  have hinv := World.Inv.reachable h
  cases hwriter : w.writer with
  | none =>
    rw [hinv.untouched hwriter]
    simp [isResultComplete]
  | some writer =>
    obtain ⟨id, args⟩ := writer
    rcases hinv.written _ hwriter with ⟨hrunning, hcomplete, _⟩ | ⟨hfinished, report, hout, hkey⟩
    · rw [hcomplete]
      constructor
      · intro hfalse
        cases hfalse
      · rintro ⟨_, _, hsame, hmem, _⟩
        cases hsame
        exact absurd hmem hrunning
    · unfold isResultComplete
      rw [hout]
      dsimp only
      rw [hkey]
      cases hskip : args.skipAnnChurn with
      | false =>
        simp [hskip]
      | true =>
        simp [hskip, hfinished]

/-- Whatever stopped before, a checkpoint holds what a full run on the version it names measured, and
a result what its own run measured for September and, if it is a full one, for August what a full
run on that very version did. -/
theorem report_measured (h : Reachable World.step World.initial w) :
    (∀ aug, w.checkpoint = .whole aug →
      ∃ args, (aug.run, args) ∈ w.started ∧ args.skipAnnChurn = false ∧ args.aug = aug.modelVersion) ∧
    ∀ report, w.out = .whole report →
      ∃ id args, w.writer = some (id, args) ∧ report.september = ⟨args.sept, id⟩ ∧
        match report.august with
        | none => args.skipAnnChurn = true
        | some aug => args.skipAnnChurn = false ∧ aug.modelVersion = args.aug ∧
            ∃ args', (aug.run, args') ∈ w.started ∧ args'.skipAnnChurn = false ∧
              args'.aug = args.aug := by
  have hinv := World.Inv.reachable h
  refine ⟨hinv.checkpoint, ?_⟩
  intro report hreport
  obtain ⟨⟨id, args⟩, hwriter, hseptember, hfits⟩ := hinv.out report hreport
  refine ⟨id, args, hwriter, hseptember, ?_⟩
  cases haugust : report.august with
  | none =>
    rw [haugust] at hfits
    exact hfits
  | some aug =>
    rw [haugust] at hfits
    obtain ⟨hfull, hversion, args', hstarted, hfull', haug⟩ := hfits
    exact ⟨hfull, hversion, args', hstarted, hfull', haug.trans hversion⟩

/-! ### A torn checkpoint -/

/-- Where a run can be while the checkpoint does not load. -/
structure Stuck (before w : World) : Prop where
  torn : w.checkpoint = .torn
  running : ∀ run, w.run = some run → run.phase = .begun ∨
    run.args.skipAnnChurn = true ∧ run.phase ≠ .august ∧ ∀ aug, run.phase ≠ .saving aug
  finished : ∀ x ∈ w.finished, x ∈ before.finished ∨ x.2.skipAnnChurn = true

theorem Stuck.goto {before : World} (h : Stuck before w) {phase : RunPhase}
    (hskip : run.args.skipAnnChurn = true) (haugust : phase ≠ .august)
    (hsaving : ∀ aug, phase ≠ .saving aug) : Stuck before (w.goto run phase) where
  torn := h.torn
  running run' hrun' := by
    cases hrun'
    exact Or.inr ⟨hskip, haugust, hsaving⟩
  finished := h.finished

theorem Stuck.openOut {before : World} (h : Stuck before w) : Stuck before (w.openOut run) :=
  ⟨h.torn, h.running, h.finished⟩

theorem Stuck.idle {before : World} (h : Stuck before w) : Stuck before { w with run := none } where
  torn := h.torn
  running _ hrun := by cases hrun
  finished := h.finished

theorem Stuck.proceed {before : World} (h : Stuck before w) (hrun : w.run = some run) :
    Stuck before (w.proceed run) := by
  have hrunning := h.running run hrun
  unfold World.proceed
  cases hphase : run.phase with
  | begun =>
    dsimp only
    split_ifs with hskip
    · exact h.goto hskip (fun h => by cases h) fun aug h => by cases h
    · have hload : loadCheckpoint w.checkpoint run.args.aug = none := by
        rw [h.torn]
        rfl
      rw [hload]
      exact h.idle
  | august => simp [hphase] at hrunning
  | saving aug => simp [hphase] at hrunning
  | september aug =>
    have hskip : run.args.skipAnnChurn = true := by simpa [hphase] using hrunning
    exact h.openOut.goto hskip (fun h => by cases h) fun aug h => by cases h
  | reportingFirst aug =>
    have hskip : run.args.skipAnnChurn = true := by simpa [hphase] using hrunning
    have hout : Stuck before
        { w with out := .whole ⟨aug, ⟨run.args.sept, run.id⟩, some true⟩ } :=
      ⟨h.torn, h.running, h.finished⟩
    exact hout.goto hskip (fun h => by cases h) fun aug h => by cases h
  | larger aug =>
    have hskip : run.args.skipAnnChurn = true := by simpa [hphase] using hrunning
    exact h.openOut.goto hskip (fun h => by cases h) fun aug h => by cases h
  | reportingLast aug =>
    have hskip : run.args.skipAnnChurn = true := by simpa [hphase] using hrunning
    refine ⟨h.torn, fun _ hnone => (by cases hnone), ?_⟩
    intro x hx
    rcases List.mem_cons.mp hx with rfl | hx
    · exact Or.inr hskip
    · exact h.finished x hx

theorem Stuck.step {before w' : World} (h : Stuck before w) {action : Action}
    (hstep : w.step action = some w') : Stuck before w' := by
  cases action with
  | start args =>
    unfold World.step at hstep
    cases hrun : w.run with
    | none =>
      rw [hrun] at hstep
      cases hstep
      refine ⟨h.torn, ?_, h.finished⟩
      intro run hrun
      cases hrun
      exact Or.inl rfl
    | some run =>
      rw [hrun] at hstep
      cases hstep
  | proceed =>
    obtain ⟨run, hrun, rfl⟩ := Option.map_eq_some_iff.mp hstep
    exact h.proceed hrun
  | fail =>
    obtain ⟨run, hrun, rfl⟩ := Option.map_eq_some_iff.mp hstep
    exact h.idle

/-- A full run goes through from a checkpoint that loads. -/
theorem full_run_finishes {w : World} (hidle : w.run = none) (hload : w.checkpoint ≠ .torn) :
    ∃ later args, Reachable World.step w later ∧ (w.nextRun, args) ∈ later.finished ∧
      args.skipAnnChurn = false := by
  obtain ⟨checkpoint, out, run, nextRun, started, finished, writer⟩ := w
  cases hidle
  cases checkpoint with
  | torn => exact absurd rfl hload
  | absent =>
    refine ⟨_, ⟨false, "", ""⟩, exec_reachable World.step _
      (.start ⟨false, "", ""⟩ :: List.replicate 7 .proceed), ?_, rfl⟩
    exact List.mem_cons_self
  | whole aug =>
    let run : Run := ⟨nextRun, ⟨false, aug.modelVersion, ""⟩, .begun⟩
    let begun : World := ⟨.whole aug, out, some run, nextRun + 1, (nextRun, run.args) :: started,
      finished, writer⟩
    have hfound : begun.step .proceed = some (begun.goto run (.september (some aug))) := by
      simp [World.step, World.proceed, loadCheckpoint, begun, run]
    refine ⟨_, run.args, ((Reachable.start.step (a := .start run.args) rfl).step hfound).trans
      (exec_reachable World.step _ (List.replicate 4 .proceed)), ?_, rfl⟩
    exact List.mem_cons_self

/-- With no run under way, a full run can finish again exactly if the checkpoint loads: one run that
is stopped while it saves ends them all. -/
theorem torn_checkpoint_iff (h : Reachable World.step World.initial w) (hidle : w.run = none) :
    (∃ later, Reachable World.step w later ∧
      ∃ x ∈ later.finished, x ∉ w.finished ∧ x.2.skipAnnChurn = false) ↔ w.checkpoint ≠ .torn := by
  constructor
  · rintro ⟨later, hlater, x, hx, hnew, hfull⟩ htorn
    have hstart : Stuck w w := by
      refine ⟨htorn, ?_, fun x hx => Or.inl hx⟩
      intro run hrun
      rw [hidle] at hrun
      cases hrun
    have hstuck : Stuck w later := hlater.invariant hstart fun _ _ _ hs hstep => hs.step hstep
    rcases hstuck.finished x hx with hold | hskip
    · exact hnew hold
    · rw [hfull] at hskip
      cases hskip
  · intro hload
    obtain ⟨later, args, hlater, hmem, hfull⟩ := full_run_finishes hidle hload
    refine ⟨later, hlater, _, hmem, ?_, hfull⟩
    intro hold
    exact Nat.lt_irrefl _ ((World.Inv.reachable h).finished _ hold)

end

/-! ### Runs -/

/- A full run. -/
def fullRun : List Action := .start ⟨false, "aug", "sept"⟩ :: List.replicate 7 .proceed

theorem isResultComplete_iff_fullRun :
    ¬isResultComplete (exec World.step World.initial fullRun).out = true := by
  intro hcomplete
  obtain ⟨id, args, hwriter, _, hskip⟩ :=
    (isResultComplete_iff (exec_reachable World.step World.initial fullRun)).mp hcomplete
  have hfull : (exec World.step World.initial fullRun).writer = some (0, ⟨false, "aug", "sept"⟩) := rfl
  rw [hfull] at hwriter
  cases hwriter
  cases hskip

theorem report_measured_fullRun :
    (∃ args, args.aug = "aug" ∧ args.skipAnnChurn = false ∧
      (0, args) ∈ (exec World.step World.initial fullRun).started) ∧
    ∃ id args, (exec World.step World.initial fullRun).writer = some (id, args) ∧
      args.sept = "sept" := by
  have hcheckpoint : (exec World.step World.initial fullRun).checkpoint = .whole ⟨"aug", 0⟩ := rfl
  have hout : (exec World.step World.initial fullRun).out =
      .whole ⟨some ⟨"aug", 0⟩, ⟨"sept", 0⟩, none⟩ := rfl
  obtain ⟨hsaved, hreports⟩ := report_measured (exec_reachable World.step World.initial fullRun)
  obtain ⟨args, hstarted, hfull, haug⟩ := hsaved _ hcheckpoint
  obtain ⟨id, args', hwriter, hseptember, _⟩ := hreports _ hout
  exact ⟨⟨args, haug, hfull, hstarted⟩, id, args', hwriter, (Measured.mk.inj hseptember).1.symm⟩

/- A full run that is stopped while it saves. -/
def stoppedSaving : List Action := [.start ⟨false, "aug", "sept"⟩, .proceed, .proceed, .fail]

theorem torn_checkpoint_iff_stopped : ¬∃ later,
    Reachable World.step (exec World.step World.initial stoppedSaving) later ∧
      ∃ x ∈ later.finished, x ∉ (exec World.step World.initial stoppedSaving).finished ∧
        x.2.skipAnnChurn = false := by
  intro hlater
  exact (torn_checkpoint_iff (exec_reachable World.step World.initial stoppedSaving) rfl).mp hlater rfl

end AnalyticsEngine.RecallChurn
