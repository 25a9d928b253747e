import AnalyticsEngine.Library.Transition
import AnalyticsEngine.StyleAtlas.Store
import Mathlib.Logic.Function.Basic

/-!
# Concurrent atlas runs (insights/computations.py, `compute_and_store_style_atlas`)

Runs for any months take their steps in any order and may stop at each. A statement sees what is
committed as it starts; the advisory lock is the transaction's, released as it ends. A month's
rows are stored by the run that found none under the lock, and never change again.
-/

namespace AnalyticsEngine.StyleAtlas
open Library

variable {K F : Type*} [Field K] [LinearOrder K] [LinearOrder F]

/- Where a run is, with what it holds there. The rows of the two inserts are uncommitted. -/
inductive AtlasStage (K : Type*) where
  | checking
  | pinning
  | fetching (pinned : List (Sector K))
  | waiting
  | locked
  | inserting
  | sectorsInserted (sectors : List (Sector K))
  | nodesInserted (sectors : List (Sector K)) (nodes : List (Node K))
  | committed (count : ℕ)
  | returned (count : ℕ)
  | stopped

/- `layout` is the run's complete output, from the producer read on. -/
structure AtlasRun (K : Type*) where
  month : AtlasMonth
  layout : Option (AtlasLayout K)
  stage : AtlasStage K

structure AtlasState (K : Type*) where
  tables : AtlasTables K
  holder : Option ℕ
  runs : ℕ → Option (AtlasRun K)

def AtlasState.initial : AtlasState K where
  tables := ⟨[], []⟩
  holder := none
  runs := fun _ => none

inductive AtlasAction (K : Type*) where
  | start (id : ℕ) (month : AtlasMonth)
  | check (id : ℕ)
  | pin (id : ℕ)
  | fetch (id : ℕ) (data : StyleYearCounts K)
  | lock (id : ℕ)
  | recheck (id : ℕ)
  | insertSectors (id : ℕ)
  | insertNodes (id : ℕ)
  | commit (id : ℕ)
  | answer (id : ℕ)
  | stop (id : ℕ)

def AtlasState.put (s : AtlasState K) (id : ℕ) (run : AtlasRun K) : AtlasState K :=
  { s with runs := Function.update s.runs id (some run) }

/- The end of a transaction, or of the connection it was on. -/
def AtlasState.release (s : AtlasState K) (id : ℕ) : AtlasState K :=
  { s with holder := if s.holder = some id then none else s.holder }

/-- The steps, `none` where an action is not enabled. -/
def AtlasState.step (circle : Circle K) (ar : YearArithmetic F) (s : AtlasState K) :
    AtlasAction K → Option (AtlasState K)
  | .start id month =>
    match s.runs id with
    | some _ => none
    | none => some (s.put id ⟨month, none, .checking⟩)
  | .check id =>
    match s.runs id with
    | some ⟨month, layout, .checking⟩ =>
      some (s.put id ⟨month, layout,
        if s.tables.monthExists month then .returned 0 else .pinning⟩)
    | _ => none
  | .pin id =>
    match s.runs id with
    | some ⟨month, layout, .pinning⟩ =>
      some (s.put id ⟨month, layout, .fetching (s.tables.pinnedSectors month)⟩)
    | _ => none
  | .fetch id data =>
    match s.runs id with
    | some ⟨month, layout, .fetching pinned⟩ =>
      match layOut circle ar data month pinned with
      | none => some (s.put id ⟨month, layout, .returned 0⟩)
      | some (.error _) => some (s.put id ⟨month, layout, .stopped⟩)
      | some (.ok layout) => some (s.put id ⟨month, some layout, .waiting⟩)
    | _ => none
  | .lock id =>
    match s.runs id, s.holder with
    | some ⟨month, layout, .waiting⟩, none =>
      some { s.put id ⟨month, layout, .locked⟩ with holder := some id }
    | _, _ => none
  | .recheck id =>
    match s.runs id with
    | some ⟨month, layout, .locked⟩ =>
      if s.tables.monthExists month then
        some ((s.release id).put id ⟨month, layout, .returned 0⟩)
      else some (s.put id ⟨month, layout, .inserting⟩)
    | _ => none
  | .insertSectors id =>
    match s.runs id with
    | some ⟨month, some layout, .inserting⟩ =>
      some (s.put id ⟨month, some layout, .sectorsInserted layout.sectors⟩)
    | _ => none
  -- With no node rows the source leaves the statement out.
  | .insertNodes id =>
    match s.runs id with
    | some ⟨month, some layout, .sectorsInserted sectors⟩ =>
      some (s.put id ⟨month, some layout, .nodesInserted sectors layout.nodes⟩)
    | _ => none
  | .commit id =>
    match s.runs id with
    | some ⟨month, layout, .nodesInserted sectors nodes⟩ =>
      some (({ s with tables := s.tables.insert month sectors nodes }.release id).put id
        ⟨month, layout, .committed (sectors.length + nodes.length)⟩)
    | _ => none
  | .answer id =>
    match s.runs id with
    | some ⟨month, layout, .committed count⟩ => some (s.put id ⟨month, layout, .returned count⟩)
    | _ => none
  | .stop id =>
    match s.runs id with
    | none => none
    | some ⟨_, _, .returned _⟩ => none
    | some run => some ((s.release id).put id { run with stage := .stopped })

/-! ### The invariant -/

/- The month's committed rows are the layout. -/
def Stored (tables : AtlasTables K) (month : AtlasMonth) (layout : AtlasLayout K) : Prop :=
  tables.sectorsOf month = layout.sectors ∧ tables.nodesOf month = layout.nodes

/- The run has an output that can be stored. -/
def AtlasRun.Holds (run : AtlasRun K) (layout : AtlasLayout K) : Prop :=
  run.layout = some layout ∧ (layout.sectors.map Sector.genre).Nodup ∧ layout.sectors ≠ []

/- From the lock on, the run is its holder; from the re-check on, its month has no rows. -/
def AtlasRun.Sound (tables : AtlasTables K) (holder : Option ℕ) (id : ℕ) (run : AtlasRun K) : Prop :=
  match run.stage with
  | .checking | .pinning => run.layout = none
  | .fetching pinned => run.layout = none ∧ (pinned.map Sector.genre).Nodup
  | .waiting => ∃ layout, run.Holds layout
  | .locked => (∃ layout, run.Holds layout) ∧ holder = some id
  | .inserting => (∃ layout, run.Holds layout) ∧ holder = some id ∧ tables.sectorsOf run.month = []
  | .sectorsInserted sectors => ∃ layout, run.Holds layout ∧ sectors = layout.sectors ∧
      holder = some id ∧ tables.sectorsOf run.month = []
  | .nodesInserted sectors nodes => ∃ layout, run.Holds layout ∧ sectors = layout.sectors ∧
      nodes = layout.nodes ∧ holder = some id ∧ tables.sectorsOf run.month = []
  | .committed count | .returned count => count ≠ 0 → ∃ layout, run.Holds layout ∧
      Stored tables run.month layout ∧ count = layout.sectors.length + layout.nodes.length
  | .stopped => True

structure AtlasInv (s : AtlasState K) : Prop where
  nodup : ∀ month, ((s.tables.sectorsOf month).map Sector.genre).Nodup
  rows : ∀ month, (s.tables.sectorsOf month = [] ∧ s.tables.nodesOf month = []) ∨
    ∃ id run layout, s.runs id = some run ∧ run.month = month ∧ run.Holds layout ∧
      Stored s.tables month layout
  sound : ∀ id run, s.runs id = some run → run.Sound s.tables s.holder id

/- What a step leaves of the tables: the rows of a month that has any. -/
def Keeps (before after : AtlasTables K) : Prop :=
  ∀ month, before.sectorsOf month ≠ [] →
    after.sectorsOf month = before.sectorsOf month ∧ after.nodesOf month = before.nodesOf month

/- What a step does besides moving one run. -/
inductive Effect (s t : AtlasState K) (id : ℕ) (run : AtlasRun K) : Prop where
  | quiet (htables : t.tables = s.tables) (hholder : t.holder = s.holder)
  | locks (htables : t.tables = s.tables) (hfree : s.holder = none)
  | releases (htables : t.tables = s.tables) (hheld : s.holder = some id)
  | commits (layout : AtlasLayout K) (hheld : s.holder = some id) (hholds : run.Holds layout)
      (hempty : s.tables.sectorsOf run.month = [])
      (htables : t.tables = s.tables.insert run.month layout.sectors layout.nodes)

/- One run moved, keeping its month and its output. -/
structure Moves (s t : AtlasState K) (id : ℕ) (run : AtlasRun K) : Prop where
  runs : t.runs = Function.update s.runs id (some run)
  same : ∀ before, s.runs id = some before → run.month = before.month ∧
    ∀ layout, before.layout = some layout → run.layout = some layout
  sound : run.Sound t.tables t.holder id
  effect : Effect s t id run

section Moves
omit [Field K] [LinearOrder K]
variable {s t : AtlasState K} {id : ℕ}

/-- A month without sectors has no nodes either. -/
theorem AtlasInv.nodes_nil (hinv : AtlasInv s) {month : AtlasMonth}
    (hempty : s.tables.sectorsOf month = []) : s.tables.nodesOf month = [] := by
  rcases hinv.rows month with ⟨-, hnodes⟩ | ⟨_, _, layout, _, _, hholds, hstored⟩
  · exact hnodes
  · exact absurd (hstored.1.symm.trans hempty) hholds.2.2

theorem stored_insert (hinv : AtlasInv s) {month : AtlasMonth} {layout : AtlasLayout K}
    (hempty : s.tables.sectorsOf month = []) :
    Stored (s.tables.insert month layout.sectors layout.nodes) month layout := by
  refine ⟨?_, ?_⟩
  · rw [insert_sectorsOf, hempty, if_pos rfl, List.nil_append]
  · rw [insert_nodesOf, hinv.nodes_nil hempty, if_pos rfl, List.nil_append]

theorem moves_put {run before : AtlasRun K} (hbefore : s.runs id = some before)
    (hmonth : run.month = before.month)
    (hlayout : ∀ layout, before.layout = some layout → run.layout = some layout)
    (hsound : run.Sound s.tables s.holder id) : Moves s (s.put id run) id run where
  runs := rfl
  same other hother := by
    obtain rfl := Option.some.inj (hbefore.symm.trans hother)
    exact ⟨hmonth, hlayout⟩
  sound := hsound
  effect := .quiet rfl rfl

theorem moves_release {run before : AtlasRun K} (hbefore : s.runs id = some before)
    (hmonth : run.month = before.month) (hlayout : run.layout = before.layout)
    (hsound : ∀ holder, run.Sound s.tables holder id) :
    Moves s ((s.release id).put id run) id run where
  runs := rfl
  same other hother := by
    obtain rfl := Option.some.inj (hbefore.symm.trans hother)
    exact ⟨hmonth, fun layout h => hlayout.trans h⟩
  sound := hsound _
  effect := by
    by_cases hheld : s.holder = some id
    · exact .releases rfl hheld
    · exact .quiet rfl (if_neg hheld)

/-- No step touches the rows of a month that has some. -/
theorem Moves.keeps {run : AtlasRun K} (h : Moves s t id run) : Keeps s.tables t.tables := by
  intro month hmonth
  cases h.effect with
  | quiet htables => rw [htables]; exact ⟨rfl, rfl⟩
  | locks htables => rw [htables]; exact ⟨rfl, rfl⟩
  | releases htables => rw [htables]; exact ⟨rfl, rfl⟩
  | commits layout _ _ hempty htables =>
    have hne : run.month ≠ month := by
      intro heq
      rw [heq] at hempty
      exact hmonth hempty
    rw [htables, insert_sectorsOf, insert_nodesOf, if_neg hne, if_neg hne]
    exact ⟨List.append_nil _, List.append_nil _⟩

theorem Stored.keeps {before after : AtlasTables K} {month : AtlasMonth} {layout : AtlasLayout K}
    (h : Stored before month layout) (hne : layout.sectors ≠ []) (hkeeps : Keeps before after) :
    Stored after month layout := by
  obtain ⟨hsectors, hnodes⟩ := hkeeps month (h.1 ▸ hne)
  exact ⟨hsectors.trans h.1, hnodes.trans h.2⟩

/-- A run that has the lock keeps it, with its month as it is, while another one moves. -/
theorem Moves.held {run : AtlasRun K} {other : ℕ} (h : Moves s t id run) (hne : other ≠ id)
    (hheld : s.holder = some other) : t.holder = some other ∧ t.tables = s.tables := by
  have hid : s.holder ≠ some id := by
    rw [hheld]
    exact fun heq => hne (Option.some.inj heq)
  cases h.effect with
  | quiet htables hholder => exact ⟨hholder.trans hheld, htables⟩
  | locks htables hfree =>
    rw [hheld] at hfree
    cases hfree
  | releases _ hself => exact absurd hself hid
  | commits _ hself => exact absurd hself hid

/-- The runs that do not move stay sound. -/
theorem Moves.sound_other {run other : AtlasRun K} {otherId : ℕ} (h : Moves s t id run)
    (hne : otherId ≠ id) (hsound : other.Sound s.tables s.holder otherId) :
    other.Sound t.tables t.holder otherId := by
  obtain ⟨month, layout, stage⟩ := other
  cases stage with
  | checking => exact hsound
  | pinning => exact hsound
  | fetching pinned => exact hsound
  | waiting => exact hsound
  | locked => exact ⟨hsound.1, (h.held hne hsound.2).1⟩
  | inserting =>
    obtain ⟨houtput, hheld, hempty⟩ := hsound
    obtain ⟨hholder, htables⟩ := h.held hne hheld
    exact ⟨houtput, hholder, htables ▸ hempty⟩
  | sectorsInserted sectors =>
    obtain ⟨output, houtput, hsectors, hheld, hempty⟩ := hsound
    obtain ⟨hholder, htables⟩ := h.held hne hheld
    exact ⟨output, houtput, hsectors, hholder, htables ▸ hempty⟩
  | nodesInserted sectors nodes =>
    obtain ⟨output, houtput, hsectors, hnodes, hheld, hempty⟩ := hsound
    obtain ⟨hholder, htables⟩ := h.held hne hheld
    exact ⟨output, houtput, hsectors, hnodes, hholder, htables ▸ hempty⟩
  | committed count =>
    intro hcount
    obtain ⟨output, houtput, hstored, hsum⟩ := hsound hcount
    exact ⟨output, houtput, hstored.keeps houtput.2.2 h.keeps, hsum⟩
  | returned count =>
    intro hcount
    obtain ⟨output, houtput, hstored, hsum⟩ := hsound hcount
    exact ⟨output, houtput, hstored.keeps houtput.2.2 h.keeps, hsum⟩
  | stopped => trivial

/-- A run's output outlives its steps. -/
theorem Moves.output {run before : AtlasRun K} {other : ℕ} {layout : AtlasLayout K}
    (h : Moves s t id run) (hbefore : s.runs other = some before) (hholds : before.Holds layout) :
    ∃ after, t.runs other = some after ∧ after.month = before.month ∧ after.Holds layout := by
  rw [h.runs]
  by_cases hid : other = id
  · subst hid
    obtain ⟨hmonth, hlayout⟩ := h.same before hbefore
    exact ⟨run, Function.update_self .., hmonth, hlayout layout hholds.1, hholds.2⟩
  · exact ⟨before, by rw [Function.update_of_ne hid]; exact hbefore, rfl, hholds⟩

theorem atlasInv_step (hinv : AtlasInv s) {run : AtlasRun K} (h : Moves s t id run) :
    AtlasInv t := by
  have hrows : ∀ month, s.tables.sectorsOf month ≠ [] → ∃ id run layout, t.runs id = some run ∧
      run.month = month ∧ run.Holds layout ∧ Stored t.tables month layout := by
    intro month hmonth
    rcases hinv.rows month with ⟨hnone, -⟩ | ⟨other, before, layout, hbefore, rfl, hholds, hstored⟩
    · exact absurd hnone hmonth
    · obtain ⟨after, hafter, hmonth', hholds'⟩ := h.output hbefore hholds
      exact ⟨other, after, layout, hafter, hmonth', hholds', hstored.keeps hholds.2.2 h.keeps⟩
  refine ⟨?_, ?_, ?_⟩
  · intro month
    cases h.effect with
    | quiet htables => rw [htables]; exact hinv.nodup month
    | locks htables => rw [htables]; exact hinv.nodup month
    | releases htables => rw [htables]; exact hinv.nodup month
    | commits layout _ hholds hempty htables =>
      rw [htables, insert_sectorsOf]
      by_cases hmonth : run.month = month
      · rw [← hmonth, hempty, if_pos rfl]
        exact hholds.2.1
      · rw [if_neg hmonth, List.append_nil]
        exact hinv.nodup month
  · intro month
    by_cases hmonth : s.tables.sectorsOf month = []
    · cases h.effect with
      | quiet htables => rw [htables]; exact Or.inl ⟨hmonth, hinv.nodes_nil hmonth⟩
      | locks htables => rw [htables]; exact Or.inl ⟨hmonth, hinv.nodes_nil hmonth⟩
      | releases htables => rw [htables]; exact Or.inl ⟨hmonth, hinv.nodes_nil hmonth⟩
      | commits layout _ hholds hempty htables =>
        by_cases heq : run.month = month
        · have hrun : t.runs id = some run := by
            rw [h.runs]
            exact Function.update_self ..
          refine Or.inr ⟨id, run, layout, hrun, heq, hholds, ?_⟩
          rw [htables, heq]
          exact stored_insert hinv hmonth
        · rw [htables, insert_sectorsOf, insert_nodesOf, if_neg heq, if_neg heq, hmonth,
            hinv.nodes_nil hmonth]
          exact Or.inl ⟨rfl, rfl⟩
    · exact Or.inr (hrows month hmonth)
  · rw [h.runs]
    refine forall_update h.sound fun other hid otherRun hother => ?_
    exact h.sound_other hid (hinv.sound other otherRun hother)

theorem atlasInv_initial : AtlasInv (AtlasState.initial : AtlasState K) where
  nodup _ := List.nodup_nil
  rows _ := Or.inl ⟨rfl, rfl⟩
  sound _ _ h := by cases h

end Moves

section Steps
variable {circle : Circle K} {ar : YearArithmetic F} {s t : AtlasState K} {id : ℕ}

/-- What any step does. -/
theorem step_moves {a : AtlasAction K} (hinv : AtlasInv s) (h : s.step circle ar a = some t) :
    ∃ id run, Moves s t id run := by
  cases a with
  | start id month =>
    simp only [AtlasState.step] at h
    cases hrun : s.runs id with
    | some before =>
      simp only [hrun] at h
      cases h
    | none =>
      simp only [hrun] at h
      cases h
      refine ⟨id, ⟨month, none, .checking⟩, rfl, ?_, rfl, .quiet rfl rfl⟩
      intro before hbefore
      rw [hrun] at hbefore
      cases hbefore
  | check id =>
    simp only [AtlasState.step] at h
    split at h
    · rename_i month layout hrun
      cases h
      have hsound := hinv.sound id _ hrun
      refine ⟨id, _, moves_put hrun rfl (fun _ h => h) ?_⟩
      split
      · exact fun hcount => absurd rfl hcount
      · exact hsound
    · cases h
  | pin id =>
    simp only [AtlasState.step] at h
    split at h
    · rename_i month layout hrun
      cases h
      have hsound := hinv.sound id _ hrun
      exact ⟨id, _, moves_put hrun rfl (fun _ h => h)
        ⟨hsound, pinnedSectors_nodup hinv.nodup month⟩⟩
    · cases h
  | fetch id data =>
    simp only [AtlasState.step] at h
    split at h
    · rename_i month layout pinned hrun
      obtain ⟨hnone, hpinned⟩ := hinv.sound id _ hrun
      split at h
      · cases h
        exact ⟨id, _, moves_put hrun rfl (fun _ h => h) fun hcount => absurd rfl hcount⟩
      · cases h
        exact ⟨id, _, moves_put hrun rfl (fun _ h => h) trivial⟩
      · rename_i output houtput
        cases h
        refine ⟨id, _, moves_put hrun rfl ?_ ⟨output, rfl, layOut_sectors hpinned houtput⟩⟩
        intro other hother
        rw [hnone] at hother
        cases hother
    · cases h
  | lock id =>
    simp only [AtlasState.step] at h
    split at h
    · rename_i month layout hrun hfree
      cases h
      obtain ⟨output, houtput⟩ := hinv.sound id _ hrun
      refine ⟨id, ⟨month, layout, .locked⟩, rfl, ?_, ⟨⟨output, houtput⟩, rfl⟩, .locks rfl hfree⟩
      intro before hbefore
      obtain rfl := Option.some.inj (hrun.symm.trans hbefore)
      exact ⟨rfl, fun _ h => h⟩
    · cases h
  | recheck id =>
    simp only [AtlasState.step] at h
    split at h
    · rename_i month layout hrun
      obtain ⟨houtput, hheld⟩ := hinv.sound id _ hrun
      split at h
      · cases h
        exact ⟨id, _, moves_release hrun rfl rfl fun _ hcount => absurd rfl hcount⟩
      · rename_i hnone
        cases h
        refine ⟨id, _, moves_put hrun rfl (fun _ h => h) ⟨houtput, hheld, ?_⟩⟩
        exact not_not.mp (mt monthExists_iff.mpr hnone)
    · cases h
  | insertSectors id =>
    simp only [AtlasState.step] at h
    split at h
    · rename_i month layout hrun
      cases h
      obtain ⟨⟨output, houtput⟩, hheld, hempty⟩ := hinv.sound id _ hrun
      obtain rfl := Option.some.inj houtput.1
      exact ⟨id, _, moves_put hrun rfl (fun _ h => h) ⟨layout, houtput, rfl, hheld, hempty⟩⟩
    · cases h
  | insertNodes id =>
    simp only [AtlasState.step] at h
    split at h
    · rename_i month layout sectors hrun
      cases h
      obtain ⟨output, houtput, hsectors, hheld, hempty⟩ := hinv.sound id _ hrun
      obtain rfl := Option.some.inj houtput.1
      exact ⟨id, _, moves_put hrun rfl (fun _ h => h)
        ⟨layout, houtput, hsectors, rfl, hheld, hempty⟩⟩
    · cases h
  | commit id =>
    simp only [AtlasState.step] at h
    split at h
    · rename_i month layout sectors nodes hrun
      cases h
      obtain ⟨output, houtput, rfl, rfl, hheld, hempty⟩ := hinv.sound id _ hrun
      refine ⟨id, ⟨month, layout, .committed (output.sectors.length + output.nodes.length)⟩, rfl, ?_,
        fun _ => ⟨output, houtput, stored_insert hinv hempty, rfl⟩,
        .commits output hheld houtput hempty rfl⟩
      intro before hbefore
      obtain rfl := Option.some.inj (hrun.symm.trans hbefore)
      exact ⟨rfl, fun _ h => h⟩
    · cases h
  | answer id =>
    simp only [AtlasState.step] at h
    split at h
    · rename_i month layout count hrun
      cases h
      have hsound := hinv.sound id ⟨month, layout, .committed count⟩ hrun
      exact ⟨id, _, moves_put hrun rfl (fun _ h => h) hsound⟩
    · cases h
  | stop id =>
    simp only [AtlasState.step] at h
    split at h
    · cases h
    · cases h
    · rename_i run hrun
      cases h
      exact ⟨id, _, moves_release hrun rfl rfl fun _ => trivial⟩

/-- Over any steps from a sound state: it stays sound, and stored rows stay as they are. -/
theorem atlas_run (hinv : AtlasInv s) (h : Reachable (AtlasState.step circle ar) s t) :
    AtlasInv t ∧ Keeps s.tables t.tables := by
  refine h.invariant (I := fun u => AtlasInv u ∧ Keeps s.tables u.tables)
    ⟨hinv, fun _ _ => ⟨rfl, rfl⟩⟩ ?_
  intro u a v ⟨hu, hkeeps⟩ hstep
  obtain ⟨id, run, hmoves⟩ := step_moves hu hstep
  refine ⟨atlasInv_step hu hmoves, fun month hmonth => ?_⟩
  obtain ⟨hsectors, hnodes⟩ := hkeeps month hmonth
  obtain ⟨hsectors', hnodes'⟩ := hmoves.keeps month (by rw [hsectors]; exact hmonth)
  exact ⟨hsectors'.trans hsectors, hnodes'.trans hnodes⟩

end Steps

/-- After any steps of any runs, a month has no rows or exactly the output of one run for it, what
it has stays under all later steps, and a run that returns a count stored its own output. -/
theorem one_layout_per_month (circle : Circle K) (ar : YearArithmetic F)
    (earlier later : List (AtlasAction K)) :
    let s := exec (AtlasState.step circle ar) AtlasState.initial earlier
    let t := exec (AtlasState.step circle ar) s later
    (∀ month, (s.tables.sectorsOf month = [] ∧ s.tables.nodesOf month = []) ∨
      ∃ id run layout, s.runs id = some run ∧ run.month = month ∧ run.layout = some layout ∧
        layout.sectors ≠ [] ∧ Stored s.tables month layout) ∧
    (∀ month, ¬ (s.tables.sectorsOf month = [] ∧ s.tables.nodesOf month = []) →
      t.tables.sectorsOf month = s.tables.sectorsOf month ∧
        t.tables.nodesOf month = s.tables.nodesOf month) ∧
    ∀ id month layout count, s.runs id = some ⟨month, layout, .returned count⟩ → count ≠ 0 →
      ∃ output, layout = some output ∧ Stored s.tables month output ∧
        count = output.sectors.length + output.nodes.length := by
  intro s t
  obtain ⟨hinv, -⟩ := atlas_run atlasInv_initial
    (exec_reachable (AtlasState.step circle ar) AtlasState.initial earlier)
  obtain ⟨-, hkeeps⟩ := atlas_run hinv (exec_reachable (AtlasState.step circle ar) s later)
  refine ⟨fun month => ?_, fun month hrows => ?_, fun id month layout count hrun hcount => ?_⟩
  · rcases hinv.rows month with hnone | ⟨id, run, layout, hrun, hmonth, hholds, hstored⟩
    · exact Or.inl hnone
    · exact Or.inr ⟨id, run, layout, hrun, hmonth, hholds.1, hholds.2.2, hstored⟩
  · exact hkeeps month fun hnone => hrows ⟨hnone, hinv.nodes_nil hnone⟩
  · obtain ⟨output, hholds, hstored, hsum⟩ := hinv.sound id _ hrun hcount
    exact ⟨output, hholds.1, hstored, hsum⟩

end AnalyticsEngine.StyleAtlas
