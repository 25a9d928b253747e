import AnalyticsEngine.Library.Transition
import AnalyticsEngine.SimilarArtists.Releases

/-!
# The rollback target (insights/similar_artists.py, `run_similar_artists`)

Runs for any versions take their steps in any order, with direct calls of `publish_and_rotate`
between them, and any of them may stop at any step. The lists of the current release and of the one
it displaced stay as they were written.
-/

namespace AnalyticsEngine.SimilarArtists
open Library ExactTopK

variable {α : Type*}

structure SimilarArtistsResult where
  modelVersion : String
  artists : ℕ
  rowsWritten : ℕ
  skipped : Bool
  rotation : Option RotateResult

inductive SimilarStage (α : Type*) where
  | checking
  | reading
  | computing (artistIds : List String)
  | writing (artistIds : List String) (spool : Spool α)
  | publishing (artistIds : List String) (rows : ℕ)
  | returned (result : SimilarArtistsResult)
  | raised

/- `written` is what the write transaction has committed. -/
structure SimilarRun (α : Type*) where
  modelVersion : String
  sourceDumpId : String
  sourceDumpDate : Date
  k : ℕ
  written : Option (List String × Spool α)
  stage : SimilarStage α

/- `displaced` is what the latest change of the current release displaced; no step reads it. -/
structure ReleaseState (α : Type*) where
  tables : ReleaseTables α
  displaced : Option String
  runs : ℕ → Option (SimilarRun α)

inductive ReleaseAction (α : Type*) where
  | start (id : ℕ) (modelVersion sourceDumpId : String) (sourceDumpDate : Date) (k : ℕ)
  | check (id : ℕ)
  | read (id : ℕ) (artistIds : List String)
  | compute (id : ℕ) (files : Files α)
  | write (id : ℕ) (registry : ReleaseRegistry α)
  | publish (id : ℕ) (registry : ReleaseRegistry α)
  | rotate (registry : ReleaseRegistry α) (modelVersion : String) (artists : ℤ)
  | stop (id : ℕ)

namespace ReleaseState

def initial : ReleaseState α := ⟨ReleaseTables.empty, none, fun _ => none⟩

def put (s : ReleaseState α) (id : ℕ) (run : SimilarRun α) : ReleaseState α :=
  { s with runs := Function.update s.runs id (some run) }

def withTables (s : ReleaseState α) (t : ReleaseTables α) : ReleaseState α :=
  { s with
    tables := t
    displaced := if t.current = s.tables.current then s.displaced else s.tables.current }

/-- The steps, `none` where an action is not enabled. A transaction that raises is rolled back. -/
def step (s : ReleaseState α) : ReleaseAction α → Option (ReleaseState α)
  | .start id modelVersion sourceDumpId sourceDumpDate k =>
    match s.runs id with
    | some _ => none
    | none => some (s.put id ⟨modelVersion, sourceDumpId, sourceDumpDate, k, none, .checking⟩)
  | .check id =>
    match s.runs id with
    | some ⟨version, dumpId, dumpDate, k, written, .checking⟩ =>
      some (s.put id ⟨version, dumpId, dumpDate, k, written,
        if s.tables.published version then .returned ⟨version, 0, 0, true, none⟩ else .reading⟩)
    | _ => none
  | .read id artistIds =>
    match s.runs id with
    | some ⟨version, dumpId, dumpDate, k, written, .reading⟩ =>
      some (s.put id ⟨version, dumpId, dumpDate, k, written,
        if artistIds = [] then .raised else .computing artistIds⟩)
    | _ => none
  | .compute id files =>
    match s.runs id with
    | some ⟨version, dumpId, dumpDate, k, written, .computing artistIds⟩ =>
      some (s.put id ⟨version, dumpId, dumpDate, k, written,
        .writing artistIds ⟨files, artistIds.length, k⟩⟩)
    | _ => none
  | .write id registry =>
    match s.runs id with
    | some ⟨version, dumpId, dumpDate, k, written, .writing artistIds spool⟩ =>
      match writeSimilarArtists registry s.tables spool version artistIds dumpId dumpDate with
      | .error _ => some (s.put id ⟨version, dumpId, dumpDate, k, written, .raised⟩)
      | .ok (t, rows) => some ((s.withTables t).put id
          ⟨version, dumpId, dumpDate, k, some (artistIds, spool), .publishing artistIds rows⟩)
    | _ => none
  | .publish id registry =>
    match s.runs id with
    | some ⟨version, dumpId, dumpDate, k, written, .publishing artistIds rows⟩ =>
      match publishAndRotate registry s.tables version artistIds.length with
      | .error _ => some (s.put id ⟨version, dumpId, dumpDate, k, written, .raised⟩)
      | .ok (t, rotation) => some ((s.withTables t).put id ⟨version, dumpId, dumpDate, k, written,
          .returned ⟨version, artistIds.length, rows, false, some rotation⟩⟩)
    | _ => none
  | .rotate registry version artists =>
    match publishAndRotate registry s.tables version artists with
    | .error _ => none
    | .ok (t, _) => some (s.withTables t)
  | .stop id =>
    match s.runs id with
    | none => none
    | some ⟨_, _, _, _, _, .returned _⟩ => none
    | some ⟨_, _, _, _, _, .raised⟩ => none
    | some run => some (s.put id { run with stage := .raised })

/-- The lists are what a run for the version has written: a row for each of its artists. -/
def CompleteLists (s : ReleaseState α) (version : String) (releaseId : ℤ) : Prop :=
  ∃ id run artistIds spool, s.runs id = some run ∧ run.modelVersion = version ∧
    run.written = some (artistIds, spool) ∧
    copyRows spool.files spool.nArtists spool.k artistIds releaseId =
      some (s.tables.listsOf releaseId) ∧
    (s.tables.listsOf releaseId).map CopyRow.artistId = artistIds ∧ artistIds.Nodup

end ReleaseState

/-! ### The invariant -/

/- The write is still to come. -/
def SimilarStage.Unwritten : SimilarStage α → Prop
  | .checking | .reading | .computing _ | .writing _ _ => True
  | .publishing _ _ | .returned _ | .raised => False

structure ReleaseInv (s : ReleaseState α) : Prop where
  sound : s.tables.Sound
  stored : s.tables.CurrentStored
  displaced : ∀ version, s.displaced = some version → s.tables.Displaced version
  complete : ∀ r ∈ s.tables.releases, s.tables.listsOf r.releaseId = [] ∨
    s.CompleteLists r.modelVersion r.releaseId
  unwritten : ∀ id run, s.runs id = some run → run.stage.Unwritten → run.written = none

/- What the runs keep. -/
def KeepsRuns (s t : ReleaseState α) : Prop :=
  ∀ id run, s.runs id = some run → ∃ run', t.runs id = some run' ∧
    run'.modelVersion = run.modelVersion ∧ ∀ w, run.written = some w → run'.written = some w

/- A successful `publish_and_rotate`, by a run or called directly. -/
def Rotates (s : ReleaseState α) (a : ReleaseAction α) (t : ReleaseTables α)
    (result : RotateResult) : Prop :=
  ∃ registry version artists, publishAndRotate registry s.tables version artists = .ok (t, result) ∧
    (a = .rotate registry version artists ∨ ∃ id run, a = .publish id registry ∧
      s.runs id = some run ∧ run.modelVersion = version)

/- What a step does to the tables. -/
inductive Effect (s : ReleaseState α) (a : ReleaseAction α) (t : ReleaseState α) : Prop where
  | quiet (htables : t.tables = s.tables) (hdisplaced : t.displaced = s.displaced)
  | writes {id : ℕ} {run : SimilarRun α} {artistIds : List String} {spool : Spool α} {r : Release}
      (hrun : t.runs id = some run) (hwritten : run.written = some (artistIds, spool))
      (hwrites : Written s.tables t.tables spool run.modelVersion artistIds r)
      (hdisplaced : t.displaced = (s.withTables t.tables).displaced)
  | rotates {result : RotateResult} (hrotates : Rotates s a t.tables result)
      (hdisplaced : t.displaced = (s.withTables t.tables).displaced)

section
variable {s t : ReleaseState α} {a : ReleaseAction α} {id : ℕ}

theorem releaseInv_initial : ReleaseInv (ReleaseState.initial : ReleaseState α) where
  sound := sound_empty
  stored _ h := by cases h
  displaced _ h := by cases h
  complete _ h := by cases h
  unwritten _ _ h := by cases h

theorem KeepsRuns.complete (h : KeepsRuns s t) {version : String} {releaseId : ℤ}
    (hlists : t.tables.listsOf releaseId = s.tables.listsOf releaseId)
    (hcomplete : s.CompleteLists version releaseId) : t.CompleteLists version releaseId := by
  obtain ⟨id, run, artistIds, spool, hrun, hversion, hwritten, hrest⟩ := hcomplete
  obtain ⟨run', hrun', hversion', hkept⟩ := h id run hrun
  unfold ReleaseState.CompleteLists
  rw [hlists]
  exact ⟨id, run', artistIds, spool, hrun', hversion'.trans hversion, hkept _ hwritten, hrest⟩

theorem keepsRuns_update {before run : SimilarRun α} (hbefore : s.runs id = some before)
    (hruns : t.runs = Function.update s.runs id (some run))
    (hversion : run.modelVersion = before.modelVersion)
    (hwritten : ∀ w, before.written = some w → run.written = some w) : KeepsRuns s t := by
  intro other otherRun hother
  rw [hruns]
  by_cases hid : other = id
  · subst hid
    obtain rfl := Option.some.inj (hbefore.symm.trans hother)
    exact ⟨run, Function.update_self .., hversion, hwritten⟩
  · exact ⟨otherRun, by rw [Function.update_of_ne hid]; exact hother, rfl, fun _ h => h⟩

theorem unwritten_update (hinv : ReleaseInv s) {run : SimilarRun α}
    (hruns : t.runs = Function.update s.runs id (some run))
    (hwritten : run.stage.Unwritten → run.written = none) :
    ∀ other otherRun, t.runs other = some otherRun → otherRun.stage.Unwritten →
      otherRun.written = none := by
  rw [hruns]
  exact forall_update hwritten fun other _ => hinv.unwritten other

/-- A run goes on with the tables as they are. -/
theorem put_effect (hinv : ReleaseInv s) {before run : SimilarRun α}
    (hbefore : s.runs id = some before) (hversion : run.modelVersion = before.modelVersion)
    (hwritten : run.written = before.written)
    (hstage : run.stage.Unwritten → before.stage.Unwritten) :
    KeepsRuns s (s.put id run) ∧ Effect s a (s.put id run) ∧
      ∀ id' run', (s.put id run).runs id' = some run' → run'.stage.Unwritten →
        run'.written = none := by
  refine ⟨keepsRuns_update hbefore rfl hversion ?_, .quiet rfl rfl, unwritten_update hinv rfl ?_⟩
  · intro w hw
    exact hwritten.trans hw
  · intro h
    exact hwritten.trans (hinv.unwritten id before hbefore (hstage h))

/-- What any step does. -/
theorem step_effect (hinv : ReleaseInv s) (h : s.step a = some t) :
    KeepsRuns s t ∧ Effect s a t ∧
      ∀ id run, t.runs id = some run → run.stage.Unwritten → run.written = none := by
  cases a with
  | start id modelVersion sourceDumpId sourceDumpDate k =>
    simp only [ReleaseState.step] at h
    split at h
    · cases h
    · rename_i hnone
      cases h
      refine ⟨?_, .quiet rfl rfl, unwritten_update hinv rfl fun _ => rfl⟩
      intro other run hrun
      have hid : other ≠ id := by
        intro heq
        rw [heq, hnone] at hrun
        cases hrun
      exact ⟨run, (Function.update_of_ne hid ..).trans hrun, rfl, fun _ h => h⟩
  | check id =>
    simp only [ReleaseState.step] at h
    split at h
    · rename_i version dumpId dumpDate k written hrun
      cases h
      exact put_effect hinv hrun rfl rfl fun _ => trivial
    · cases h
  | read id artistIds =>
    simp only [ReleaseState.step] at h
    split at h
    · rename_i version dumpId dumpDate k written hrun
      cases h
      exact put_effect hinv hrun rfl rfl fun _ => trivial
    · cases h
  | compute id files =>
    simp only [ReleaseState.step] at h
    split at h
    · rename_i version dumpId dumpDate k written artistIds hrun
      cases h
      exact put_effect hinv hrun rfl rfl fun _ => trivial
    · cases h
  | write id registry =>
    simp only [ReleaseState.step] at h
    split at h
    · rename_i version dumpId dumpDate k written artistIds spool hrun
      have hnone : written = none := hinv.unwritten id _ hrun trivial
      split at h
      · cases h
        exact put_effect hinv hrun rfl rfl fun h => h.elim
      · rename_i u rows hwrite
        cases h
        obtain ⟨r, hwrites, _⟩ := writeSimilarArtists_ok registry hinv.sound hwrite
        refine ⟨keepsRuns_update hrun rfl rfl ?_, .writes (Function.update_self ..) rfl hwrites rfl,
          unwritten_update hinv rfl fun h => h.elim⟩
        intro w hw
        rw [hnone] at hw
        cases hw
    · cases h
  | publish id registry =>
    simp only [ReleaseState.step] at h
    split at h
    · rename_i version dumpId dumpDate k written artistIds rows hrun
      split at h
      · cases h
        exact put_effect hinv hrun rfl rfl fun h => h.elim
      · rename_i u rotation hrotate
        cases h
        exact ⟨keepsRuns_update hrun rfl rfl fun _ h => h,
          .rotates ⟨registry, version, artistIds.length, hrotate, Or.inr ⟨id, _, rfl, hrun, rfl⟩⟩ rfl,
          unwritten_update hinv rfl fun h => h.elim⟩
    · cases h
  | rotate registry version artists =>
    simp only [ReleaseState.step] at h
    split at h
    · cases h
    · rename_i u rotation hrotate
      cases h
      exact ⟨fun _ run hrun => ⟨run, hrun, rfl, fun _ h => h⟩,
        .rotates ⟨registry, version, artists, hrotate, Or.inl rfl⟩ rfl, hinv.unwritten⟩
  | stop id =>
    simp only [ReleaseState.step] at h
    split at h
    · cases h
    · cases h
    · cases h
    · rename_i run _ _ hrun
      cases h
      exact put_effect hinv hrun rfl rfl fun h => h.elim

/-! ### The two transactions -/

section
variable {spool : Spool α} {version : String} {artistIds : List String} {r : Release}
  {before after : ReleaseTables α}

theorem Written.mem_before (h : Written before after spool version artistIds r) {r' : Release}
    (hr' : r' ∈ after.releases) (hne : r' ≠ r) : r' ∈ before.releases := by
  rcases h.created with hsame | hadded
  · exact hsame ▸ hr'
  · rw [hadded, List.mem_append, List.mem_singleton] at hr'
    exact hr'.resolve_right hne

/-- A write leaves every published release as it is. -/
theorem Written.published (h : Written before after spool version artistIds r) {r' : Release}
    (hr' : r' ∈ after.releases) (hpublished : 0 < r'.artists) :
    r' ∈ before.releases ∧ r' ≠ r ∧ after.listsOf r'.releaseId = before.listsOf r'.releaseId := by
  have hne : r' ≠ r := fun heq => h.pending (heq ▸ hpublished)
  refine ⟨h.mem_before hr' hne, hne, h.others _ fun heq => ?_⟩
  exact hne (h.sound.id_inj r' hr' r h.mem heq)

theorem Written.mem_after (h : Written before after spool version artistIds r) {r' : Release}
    (hr' : r' ∈ before.releases) : r' ∈ after.releases := by
  rcases h.created with hsame | hadded
  · exact hsame ▸ hr'
  · exact hadded ▸ List.mem_append_left _ hr'

theorem Written.current (h : Written before after spool version artistIds r)
    (hbefore : before.Sound) : after.current = before.current := by
  apply Option.ext
  intro other
  rw [current_eq_some h.sound, current_eq_some hbefore]
  constructor
  · intro hcurrent
    obtain ⟨c, hc, hiscurrent, hversion⟩ := hcurrent
    exact ⟨c, (h.published hc (h.sound.current_published c hc hiscurrent)).1, hiscurrent, hversion⟩
  · intro hcurrent
    obtain ⟨c, hc, hiscurrent, hversion⟩ := hcurrent
    exact ⟨c, h.mem_after hc, hiscurrent, hversion⟩

theorem Written.displaced (h : Written before after spool version artistIds r) {other : String}
    (hother : before.Displaced other) : after.Displaced other := by
  obtain ⟨c, hc, d, hd, hiscurrent, hne, hversion, hpublished, hlists, hlatest⟩ := hother
  refine ⟨c, h.mem_after hc, d, h.mem_after hd, hiscurrent, hne, hversion, hpublished, ?_, ?_⟩
  · rw [(h.published (h.mem_after hd) hpublished).2.2]
    exact hlists
  · intro r' hr' hpublished'
    exact hlatest r' (h.published hr' hpublished').1 hpublished'

/-- A rotation leaves the lists of a release or removes them all. -/
theorem Rotated.left {retired : List String} {u : ReleaseTables α}
    (hpublished : Published before version u) (h : Rotated u after retired) {r' : Release}
    (hr' : r' ∈ after.releases) : ∃ r ∈ before.releases, r.modelVersion = r'.modelVersion ∧
      r.releaseId = r'.releaseId := by
  obtain ⟨p, _, _, _, artists, time, _, _, rfl⟩ := hpublished
  rw [h.releases] at hr'
  obtain ⟨r, hr, rfl⟩ := List.mem_map.mp hr'
  exact ⟨r, hr, publish_modelVersion.symm, publish_releaseId.symm⟩

theorem Rotated.lists_before {retired : List String} {u : ReleaseTables α}
    (hpublished : Published before version u) (h : Rotated u after retired) {r : Release}
    (hr : r ∈ before.releases) : after.listsOf r.releaseId =
      if r.modelVersion ∈ retired then [] else before.listsOf r.releaseId := by
  obtain ⟨p, _, _, _, artists, time, _, _, rfl⟩ := hpublished
  have hlists := h.lists _ (List.mem_map.mpr ⟨r, hr, rfl⟩)
  rw [publish_releaseId, publish_modelVersion] at hlists
  exact hlists

end

theorem releaseInv_step (hinv : ReleaseInv s) (h : s.step a = some t) : ReleaseInv t := by
  obtain ⟨hkeeps, heffect, hunwritten⟩ := step_effect hinv h
  cases heffect with
  | quiet htables hdisplaced =>
    refine ⟨htables ▸ hinv.sound, htables ▸ hinv.stored, ?_, ?_, hunwritten⟩
    · intro version hversion
      rw [htables]
      exact hinv.displaced version (hdisplaced ▸ hversion)
    · intro r hr
      rw [htables] at hr
      rcases hinv.complete r hr with hempty | hcomplete
      · exact Or.inl (htables ▸ hempty)
      · exact Or.inr (hkeeps.complete (by rw [htables]) hcomplete)
  | writes hrun hwritten hwrites hdisplaced =>
    rename_i writer run artistIds spool target
    refine ⟨hwrites.sound, ?_, ?_, ?_, hunwritten⟩
    · intro c hc hiscurrent
      obtain ⟨hbefore, _, hlists⟩ :=
        hwrites.published hc (hwrites.sound.current_published c hc hiscurrent)
      rw [hlists]
      exact hinv.stored c hbefore hiscurrent
    · intro version hversion
      rw [hdisplaced] at hversion
      unfold ReleaseState.withTables at hversion
      rw [if_pos (hwrites.current hinv.sound)] at hversion
      exact hwrites.displaced (hinv.displaced version hversion)
    · intro r hr
      by_cases heq : r = target
      · right
        rw [heq]
        exact ⟨writer, run, artistIds, spool, hrun, hwrites.version.symm, hwritten, hwrites.rows,
          copyRows_artistIds hwrites.length hwrites.rows, hwrites.nodup⟩
      · have hid : r.releaseId ≠ target.releaseId := fun hid =>
          heq (hwrites.sound.id_inj r hr target hwrites.mem hid)
        have hlists := hwrites.others _ hid
        rcases hinv.complete r (hwrites.mem_before hr heq) with hempty | hcomplete
        · exact Or.inl (hlists.trans hempty)
        · exact Or.inr (hkeeps.complete hlists hcomplete)
  | rotates hrotates hdisplaced =>
    obtain ⟨registry, version, artists, hrotate, _⟩ := hrotates
    obtain ⟨hsound, _, hstored, hkept, u, _, hpublished, hrotated⟩ :=
      publishAndRotate_keeps registry hinv.sound hinv.stored hinv.displaced hrotate
    refine ⟨hsound, hstored, ?_, ?_, hunwritten⟩
    · intro other hother
      rw [hdisplaced] at hother
      exact hkept other hother
    · intro r' hr'
      obtain ⟨r, hr, hversion, hid⟩ := hrotated.left hpublished hr'
      have hlists := hrotated.lists_before hpublished hr
      rw [← hid, ← hversion]
      split_ifs at hlists with hretired
      · exact Or.inl hlists
      · rcases hinv.complete r hr with hempty | hcomplete
        · exact Or.inl (hlists.trans hempty)
        · exact Or.inr (hkeeps.complete hlists hcomplete)

/-- No step touches the lists of a published release but a rotation that retires it. -/
theorem step_lists (hinv : ReleaseInv s) (h : s.step a = some t) {r : Release}
    (hr : r ∈ s.tables.releases) (hpublished : 0 < r.artists) :
    t.tables.listsOf r.releaseId = s.tables.listsOf r.releaseId ∨
      (t.tables.listsOf r.releaseId = [] ∧
        ∃ result, Rotates s a t.tables result ∧ r.modelVersion ∈ result.retired) := by
  obtain ⟨_, heffect, _⟩ := step_effect hinv h
  cases heffect with
  | quiet htables _ => exact Or.inl (by rw [htables])
  | writes _ _ hwrites _ => exact Or.inl (hwrites.published (hwrites.mem_after hr) hpublished).2.2
  | rotates hrotates hdisplaced =>
    have hresult := hrotates
    obtain ⟨registry, version, artists, hrotate, _⟩ := hrotates
    obtain ⟨_, _, _, _, u, _, hpublish, hrotated⟩ :=
      publishAndRotate_keeps registry hinv.sound hinv.stored hinv.displaced hrotate
    have hlists := hrotated.lists_before hpublish hr
    split_ifs at hlists with hretired
    · exact Or.inr ⟨hlists, _, hresult, hretired⟩
    · exact Or.inl hlists

/-- The current release and the displaced one have the lists that a run has written. -/
theorem kept_lists (hinv : ReleaseInv s) {version : String}
    (h : s.tables.current = some version ∨ s.displaced = some version) :
    ∃ r ∈ s.tables.releases, r.modelVersion = version ∧ 0 < r.artists ∧
      s.tables.listsOf r.releaseId ≠ [] ∧ s.CompleteLists version r.releaseId := by
  have hkept : ∃ r ∈ s.tables.releases, r.modelVersion = version ∧ 0 < r.artists ∧
      s.tables.listsOf r.releaseId ≠ [] := by
    rcases h with hcurrent | hdisplaced
    · obtain ⟨c, hc, hiscurrent, hversion⟩ := (current_eq_some hinv.sound).mp hcurrent
      exact ⟨c, hc, hversion, hinv.sound.current_published c hc hiscurrent, hinv.stored c hc hiscurrent⟩
    · obtain ⟨_, _, d, hd, _, _, hversion, hpublished, hlists, _⟩ :=
        hinv.displaced version hdisplaced
      exact ⟨d, hd, hversion, hpublished, hlists⟩
  obtain ⟨r, hr, rfl, hpublished, hlists⟩ := hkept
  rcases hinv.complete r hr with hempty | hcomplete
  · exact absurd hempty hlists
  · exact ⟨r, hr, rfl, hpublished, hlists, hcomplete⟩

theorem step_displaced (hinv : ReleaseInv s) (h : s.step a = some t) :
    t.displaced = (s.withTables t.tables).displaced := by
  obtain ⟨_, heffect, _⟩ := step_effect hinv h
  cases heffect with
  | quiet htables hdisplaced =>
    rw [hdisplaced]
    exact (if_pos (by rw [htables])).symm
  | writes _ _ _ hdisplaced => exact hdisplaced
  | rotates _ hdisplaced => exact hdisplaced

/-- A successful rotation keeps the lists of the release it publishes and of the displaced one. -/
theorem rotation_keeps (hinv : ReleaseInv s) (h : s.step a = some t) {result : RotateResult}
    (hrotates : Rotates s a t.tables result) : t.tables.current = some result.published ∧
      ∀ r ∈ s.tables.releases, r.modelVersion = result.published ∨
        t.displaced = some r.modelVersion →
          t.tables.listsOf r.releaseId = s.tables.listsOf r.releaseId ∧
            t.tables.listsOf r.releaseId ≠ [] := by
  obtain ⟨registry, version, artists, hrotate, _⟩ := hrotates
  obtain ⟨_, hcurrent, _, _, u, rfl, hpublish, hrotated⟩ :=
    publishAndRotate_keeps registry hinv.sound hinv.stored hinv.displaced hrotate
  refine ⟨hcurrent, fun r hr hkept => ?_⟩
  have hkept : t.tables.current = some r.modelVersion ∨ t.displaced = some r.modelVersion := by
    rcases hkept with hversion | hdisplaced
    · exact Or.inl (hversion ▸ hcurrent)
    · exact Or.inr hdisplaced
  obtain ⟨r', hr', hversion, _, hstored, _⟩ := kept_lists (releaseInv_step hinv h) hkept
  obtain ⟨before, hbefore, hversion', hid⟩ := hrotated.left hpublish hr'
  have heq := hinv.sound.version_inj before hbefore r hr (hversion'.trans hversion)
  rw [← hid, heq] at hstored
  have hlists := hrotated.lists_before hpublish hr
  split_ifs at hlists with hretired
  · exact absurd hlists hstored
  · exact ⟨hlists, hstored⟩

/-- After any steps of any runs and calls: the lists of the current release and of the one that the
latest change of it displaced are stored as written, a step changes those of a published release
only by retiring it, and a successful `publish_and_rotate` retires neither. -/
theorem rollback_target (actions : List (ReleaseAction α)) :
    let s := exec ReleaseState.step ReleaseState.initial actions
    (∀ version, s.tables.current = some version ∨ s.displaced = some version →
      ∃ r ∈ s.tables.releases, r.modelVersion = version ∧ 0 < r.artists ∧
        s.tables.listsOf r.releaseId ≠ [] ∧ s.CompleteLists version r.releaseId) ∧
    (∀ a t, s.step a = some t → ∀ r ∈ s.tables.releases, 0 < r.artists →
      t.tables.listsOf r.releaseId = s.tables.listsOf r.releaseId ∨
        (t.tables.listsOf r.releaseId = [] ∧
          ∃ result, Rotates s a t.tables result ∧ r.modelVersion ∈ result.retired)) ∧
    ∀ a t, s.step a = some t → ∀ result, Rotates s a t.tables result →
      t.displaced = (if t.tables.current = s.tables.current then s.displaced
        else s.tables.current) ∧ t.tables.current = some result.published ∧
        ∀ r ∈ s.tables.releases, r.modelVersion = result.published ∨
          t.displaced = some r.modelVersion →
            t.tables.listsOf r.releaseId = s.tables.listsOf r.releaseId ∧
              t.tables.listsOf r.releaseId ≠ [] := by
  intro s
  have hinv : ReleaseInv s := by
    refine (exec_reachable _ _ actions).invariant releaseInv_initial ?_
    exact fun _ _ _ hs hstep => releaseInv_step hs hstep
  refine ⟨fun version h => kept_lists hinv h, fun a t hstep r hr hpublished =>
    step_lists hinv hstep hr hpublished, ?_⟩
  intro a t hstep result hrotates
  exact ⟨step_displaced hinv hstep, rotation_keeps hinv hstep hrotates⟩

end

/-! ### Three months and a rollback -/

def twoArtists : Files ℕ :=
  { Files.empty with positions := some [1, 0], scores := some [real 9, real 9] }

def month (id : ℕ) (version : String) : List (ReleaseAction ℕ) :=
  [.start id version "dump" ⟨2026, 9, 1⟩ 1, .check id, .read id ["7", "8"],
    .compute id twoArtists, .write id memoryRegistry, .publish id memoryRegistry]

/- The third month goes bad, and the second is published again. -/
def rolledBack : List (ReleaseAction ℕ) :=
  month 0 "m1" ++ month 1 "m2" ++ month 2 "m3" ++ [.rotate memoryRegistry "m2" 2]

theorem rollback_target_months :
    let s := exec ReleaseState.step ReleaseState.initial rolledBack
    s.displaced = some "m3" ∧ ∃ r ∈ s.tables.releases, r.modelVersion = "m3" ∧ 0 < r.artists ∧
      s.tables.listsOf r.releaseId ≠ [] ∧ s.CompleteLists "m3" r.releaseId := by
  intro s
  have hdisplaced : s.displaced = some "m3" := by decide +kernel
  exact ⟨hdisplaced, (rollback_target rolledBack).1 "m3" (Or.inr hdisplaced)⟩

example : (exec ReleaseState.step ReleaseState.initial rolledBack).tables.lists.map
    (fun row => (row.releaseId, row.artistId)) = [(1, "7"), (1, "8"), (2, "7"), (2, "8")] := by
  decide +kernel

end AnalyticsEngine.SimilarArtists
