import Mathlib.Data.List.Nodup
import Mathlib.Logic.Function.Basic

/-!
# Row versions under READ COMMITTED

A table is the list of its row versions, each with the transaction that wrote it and the last one
that deleted it; to commit is to change a status. A statement sees what was committed as it
started, and waits where an open transaction deletes the same row or inserts the same key.
-/

namespace AnalyticsEngine.Library

inductive TxnStatus where
  | inProgress
  | committed
  | aborted
deriving DecidableEq

structure RowVersion (R : Type*) where
  xmin : ℕ
  xmax : Option ℕ
  row : R

structure Heap (R : Type*) where
  versions : List (RowVersion R)
  status : ℕ → TxnStatus

namespace Heap

variable {R κ G : Type*}

def empty : Heap R := ⟨[], fun _ => .inProgress⟩

def committed (h : Heap R) (t : ℕ) : Bool := h.status t = .committed

def openElsewhere (h : Heap R) (t u : ℕ) : Bool := u ≠ t ∧ h.status u = .inProgress

def deleted (h : Heap R) (v : RowVersion R) : Bool := v.xmax.any h.committed

def visible (h : Heap R) (v : RowVersion R) : Bool := h.committed v.xmin && !h.deleted v

/- The committed rows, each with its writer. -/
def rows (h : Heap R) : List (ℕ × R) :=
  (h.versions.filter h.visible).map fun v => (v.xmin, v.row)

/- What a transaction has inserted, committed or not. -/
def written (h : Heap R) (t : ℕ) : List R :=
  (h.versions.filter fun v => v.xmin = t).map RowVersion.row

/-! ### Statements -/

/- A `DELETE` that saw `seen` committed as it started leaves out what is deleted by now. -/
def targets [DecidableEq G] (h : Heap R) (seen : ℕ → Bool) (group : R → G) (g : G)
    (v : RowVersion R) : Bool :=
  seen v.xmin && group v.row = g && !h.deleted v

def deleteWaits [DecidableEq G] (h : Heap R) (t : ℕ) (seen : ℕ → Bool) (group : R → G) (g : G) : Bool :=
  h.versions.any fun v => h.targets seen group g v && v.xmax.any (h.openElsewhere t)

def mark [DecidableEq G] (h : Heap R) (t : ℕ) (seen : ℕ → Bool) (group : R → G) (g : G) (v : RowVersion R) :
    RowVersion R :=
  if h.targets seen group g v then { v with xmax := some t } else v

def delete [DecidableEq G] (h : Heap R) (t : ℕ) (seen : ℕ → Bool) (group : R → G) (g : G) : Heap R :=
  { h with versions := h.versions.map (h.mark t seen group g) }

/- The check of a unique key, against what is committed and what may be. -/
def insertWaits [DecidableEq κ] (h : Heap R) (key : R → κ) (t : ℕ) (row : R) : Bool :=
  h.versions.any fun v => key v.row = key row &&
    (h.openElsewhere t v.xmin || (h.committed v.xmin && v.xmax.any (h.openElsewhere t)))

def violates [DecidableEq κ] (h : Heap R) (key : R → κ) (t : ℕ) (row : R) : Bool :=
  h.versions.any fun v => key v.row = key row && (v.xmin = t || h.committed v.xmin) &&
    !h.deleted v && v.xmax ≠ some t

def insert (h : Heap R) (t : ℕ) (row : R) : Heap R :=
  { h with versions := h.versions ++ [⟨t, none, row⟩] }

def commit (h : Heap R) (t : ℕ) : Heap R :=
  { h with status := Function.update h.status t .committed }

def abort (h : Heap R) (t : ℕ) : Heap R :=
  { h with status := Function.update h.status t .aborted }

/-! ### What a statement leaves alone -/

section
variable {h : Heap R} {t : ℕ} {seen : ℕ → Bool} {group : R → G} {g : G}

theorem committed_iff {u : ℕ} : h.committed u = true ↔ h.status u = .committed := by
  unfold committed
  exact decide_eq_true_iff

theorem committed_inProgress (ht : h.status t = .inProgress) : h.committed t = false := by
  unfold committed
  rw [ht]
  rfl

theorem deleted_iff {v : RowVersion R} :
    h.deleted v = true ↔ ∃ u, v.xmax = some u ∧ h.committed u = true := by
  unfold deleted
  rw [Option.any_eq_true]

theorem visible_iff {v : RowVersion R} :
    h.visible v = true ↔ h.committed v.xmin = true ∧ h.deleted v = false := by
  unfold visible
  rw [Bool.and_eq_true, Bool.not_eq_true']

theorem committed_commit (u : ℕ) : (h.commit t).committed u = (u = t || h.committed u) := by
  unfold committed commit
  simp only [Function.update_apply]
  split_ifs with hu
  · simp [hu]
  · simp [hu]

theorem committed_abort (ht : h.status t = .inProgress) (u : ℕ) :
    (h.abort t).committed u = h.committed u := by
  unfold committed abort
  simp only [Function.update_apply]
  split_ifs with hu
  · rw [hu, ht]
    rfl
  · rfl

theorem mem_rows {x : ℕ × R} :
    x ∈ h.rows ↔ ∃ v ∈ h.versions, h.visible v = true ∧ x = (v.xmin, v.row) := by
  unfold rows
  simp only [List.mem_map, List.mem_filter]
  constructor
  · intro hx
    obtain ⟨v, ⟨hv, hvisible⟩, rfl⟩ := hx
    exact ⟨v, hv, hvisible, rfl⟩
  · intro hx
    obtain ⟨v, hv, hvisible, rfl⟩ := hx
    exact ⟨v, ⟨hv, hvisible⟩, rfl⟩

theorem mem_written {row : R} : row ∈ h.written t ↔ ∃ v ∈ h.versions, v.xmin = t ∧ v.row = row := by
  unfold written
  simp [List.mem_filter, and_assoc]

theorem targets_iff [DecidableEq G] {v : RowVersion R} : h.targets seen group g v = true ↔
    seen v.xmin = true ∧ group v.row = g ∧ h.deleted v = false := by
  unfold targets
  rw [Bool.and_eq_true, Bool.and_eq_true, Bool.not_eq_true', decide_eq_true_iff, and_assoc]

@[simp] theorem mark_xmin [DecidableEq G] (v : RowVersion R) : (h.mark t seen group g v).xmin = v.xmin := by
  unfold mark
  split_ifs <;> rfl

@[simp] theorem mark_row [DecidableEq G] (v : RowVersion R) : (h.mark t seen group g v).row = v.row := by
  unfold mark
  split_ifs <;> rfl

/- Deleting in an open transaction deletes nothing yet. -/
theorem deleted_mark [DecidableEq G] (ht : h.status t = .inProgress) (v : RowVersion R) :
    (h.delete t seen group g).deleted (h.mark t seen group g v) = h.deleted v := by
  change h.deleted _ = _
  unfold mark
  split_ifs with hv
  · rw [(targets_iff.mp hv).2.2]
    exact committed_inProgress ht
  · rfl

theorem rows_delete [DecidableEq G] (ht : h.status t = .inProgress) : (h.delete t seen group g).rows = h.rows := by
  have hvisible : (h.delete t seen group g).visible ∘ h.mark t seen group g = h.visible := by
    funext v
    have hdeleted : (h.delete t seen group g).deleted (h.mark t seen group g v) = h.deleted v :=
      deleted_mark ht v
    change ((h.delete t seen group g).committed _ && !(h.delete t seen group g).deleted _) = _
    rw [hdeleted, mark_xmin]
    rfl
  have hversions : (h.delete t seen group g).versions = h.versions.map (h.mark t seen group g) := rfl
  unfold rows
  rw [hversions, List.filter_map, hvisible, List.map_map]
  simp [Function.comp_def]

theorem written_delete [DecidableEq G] (u : ℕ) : (h.delete t seen group g).written u = h.written u := by
  have hversions : (h.delete t seen group g).versions = h.versions.map (h.mark t seen group g) := rfl
  unfold written
  rw [hversions, List.filter_map, List.map_map]
  simp [Function.comp_def]

theorem rows_insert (ht : h.status t = .inProgress) (row : R) : (h.insert t row).rows = h.rows := by
  have hnew : h.visible ⟨t, none, row⟩ = false := by
    unfold visible
    rw [committed_inProgress ht, Bool.false_and]
  unfold rows
  change (List.filter h.visible (h.versions ++ [_])).map _ = _
  rw [List.filter_append, List.filter_singleton, hnew]
  simp

theorem written_insert (u : ℕ) (row : R) :
    (h.insert t row).written u = h.written u ++ if t = u then [row] else [] := by
  unfold written
  change (List.filter _ (h.versions ++ [_])).map _ = _
  rw [List.filter_append, List.map_append, List.filter_singleton]
  by_cases hu : t = u
  · simp [hu]
  · simp [hu]

theorem rows_abort (ht : h.status t = .inProgress) : (h.abort t).rows = h.rows := by
  have hsame : (h.abort t).committed = h.committed := funext (committed_abort ht)
  unfold rows visible deleted
  rw [hsame]
  rfl

end

/-! ### What holds of a table with a unique key -/

/- What can still become visible, or stay so. -/
def alive (h : Heap R) (v : RowVersion R) : Prop := h.status v.xmin ≠ .aborted ∧ h.deleted v = false

/- Every transaction works on the rows of one group, which it deletes as a whole. -/
structure Sound (key : R → κ) (group : R → G) (scope : ℕ → Option G) (h : Heap R) : Prop where
  writes : ∀ v ∈ h.versions, scope v.xmin = some (group v.row)
  deletes : ∀ v ∈ h.versions, ∀ t, v.xmax = some t → scope t = some (group v.row)
  undeleted : ∀ v ∈ h.versions, h.committed v.xmin = false → v.xmax = none
  together : ∀ v ∈ h.versions, ∀ w ∈ h.versions, v.xmin = w.xmin → v.xmax = w.xmax
  unique : h.versions.Pairwise fun v w =>
    key v.row = key w.row → h.alive v → h.alive w → v.xmax = some w.xmin

section
variable {key : R → κ} {group : R → G} {scope : ℕ → Option G} {h : Heap R} {t : ℕ} {g : G}

theorem sound_empty (key : R → κ) (group : R → G) (scope : ℕ → Option G) :
    Sound key group scope (Heap.empty : Heap R) where
  writes _ hv := by cases hv
  deletes _ hv := by cases hv
  undeleted _ hv := by cases hv
  together _ hv := by cases hv
  unique := List.Pairwise.nil

theorem Sound.mono {scope' : ℕ → Option G} (hs : Sound key group scope h)
    (hscope : ∀ u g, scope u = some g → scope' u = some g) : Sound key group scope' h where
  writes v hv := hscope _ _ (hs.writes v hv)
  deletes v hv u hu := hscope _ _ (hs.deletes v hv u hu)
  undeleted := hs.undeleted
  together := hs.together
  unique := hs.unique

/-- A `DELETE` that waits for nothing overrides no deleter but an aborted one. -/
theorem aborted_target [DecidableEq G] {seen : ℕ → Bool} {v : RowVersion R} {u : ℕ}
    (hwaits : h.deleteWaits t seen group g = false) (hv : v ∈ h.versions)
    (htarget : h.targets seen group g v = true) (hxmax : v.xmax = some u) (hu : u ≠ t) :
    h.status u = .aborted := by
  cases hstatus : h.status u with
  | inProgress =>
    have hwait : h.deleteWaits t seen group g = true := by
      unfold deleteWaits
      refine List.any_eq_true.mpr ⟨v, hv, ?_⟩
      rw [htarget, hxmax]
      unfold openElsewhere
      simp [hu, hstatus]
    rw [hwaits] at hwait
    cases hwait
  | committed =>
    have hdeleted := deleted_iff.mpr ⟨u, hxmax, committed_iff.mpr hstatus⟩
    rw [(targets_iff.mp htarget).2.2] at hdeleted
    cases hdeleted
  | aborted => rfl

theorem Sound.delete [DecidableEq G] {seen : ℕ → Bool} (hs : Sound key group scope h) (hscope : scope t = some g)
    (ht : h.status t = .inProgress) (hwritten : h.written t = [])
    (hseen : ∀ u, seen u = true → h.committed u = true)
    (hwaits : h.deleteWaits t seen group g = false) :
    Sound key group scope (h.delete t seen group g) := by
  have hxmin : ∀ v ∈ h.versions, v.xmin ≠ t := by
    intro v hv heq
    have hmem := mem_written.mpr ⟨v, hv, heq, rfl⟩
    rw [hwritten] at hmem
    cases hmem
  have hmem : ∀ v' ∈ (h.delete t seen group g).versions,
      ∃ v ∈ h.versions, h.mark t seen group g v = v' :=
    fun v' hv' => List.mem_map.mp hv'
  constructor
  · intro v' hv'
    obtain ⟨v, hv, rfl⟩ := hmem v' hv'
    rw [mark_xmin, mark_row]
    exact hs.writes v hv
  · intro v' hv' u hu
    obtain ⟨v, hv, rfl⟩ := hmem v' hv'
    rw [mark_row]
    unfold mark at hu
    split_ifs at hu with htarget
    · cases hu
      rw [hscope, (targets_iff.mp htarget).2.1]
    · exact hs.deletes v hv u hu
  · intro v' hv' huncommitted
    obtain ⟨v, hv, rfl⟩ := hmem v' hv'
    rw [mark_xmin] at huncommitted
    unfold mark
    split_ifs with htarget
    · exact absurd (hseen _ (targets_iff.mp htarget).1) (Bool.not_eq_true _ ▸ huncommitted)
    · exact hs.undeleted v hv huncommitted
  · intro v' hv' w' hw' heq
    obtain ⟨v, hv, rfl⟩ := hmem v' hv'
    obtain ⟨w, hw, rfl⟩ := hmem w' hw'
    rw [mark_xmin, mark_xmin] at heq
    have hxmax := hs.together v hv w hw heq
    have hgroup : group v.row = group w.row :=
      Option.some.inj ((hs.writes v hv).symm.trans (heq ▸ hs.writes w hw))
    have htarget : h.targets seen group g v =
        h.targets seen group g w := by
      unfold targets deleted
      rw [heq, hxmax, hgroup]
    unfold mark
    rw [htarget]
    split_ifs
    · rfl
    · exact hxmax
  · apply List.pairwise_map.mpr
    refine hs.unique.imp_of_mem ?_
    intro v w hv hw hunique hkey halive halive'
    rw [mark_row, mark_row] at hkey
    unfold alive at halive halive'
    rw [deleted_mark ht, mark_xmin] at halive halive'
    have hxmax := hunique hkey halive halive'
    rw [mark_xmin]
    unfold mark
    split_ifs with htarget
    · -- the deleter is the writer of the other version, which is alive
      exact absurd (aborted_target hwaits hv htarget hxmax (hxmin w hw)) halive'.1
    · exact hxmax

theorem Sound.insert [DecidableEq κ] {row : R} (hs : Sound key group scope h)
    (hscope : scope t = some (group row)) (ht : h.status t = .inProgress)
    (hwaits : h.insertWaits key t row = false) (hviolates : h.violates key t row = false) :
    Sound key group scope (h.insert t row) := by
  have hmem : ∀ v ∈ (h.insert t row).versions, v ∈ h.versions ∨ v = ⟨t, none, row⟩ := by
    intro v hv
    rcases List.mem_append.mp hv with hv | hv
    · exact Or.inl hv
    · exact Or.inr (List.mem_singleton.mp hv)
  have hown : ∀ v ∈ h.versions, v.xmin = t → v.xmax = none := by
    intro v hv heq
    exact hs.undeleted v hv (heq ▸ committed_inProgress ht)
  constructor
  · intro v hv
    rcases hmem v hv with hv | rfl
    · exact hs.writes v hv
    · exact hscope
  · intro v hv u hu
    rcases hmem v hv with hv | rfl
    · exact hs.deletes v hv u hu
    · cases hu
  · intro v hv huncommitted
    rcases hmem v hv with hv | rfl
    · exact hs.undeleted v hv huncommitted
    · rfl
  · intro v hv w hw heq
    rcases hmem v hv with hv | rfl
    · rcases hmem w hw with hw | rfl
      · exact hs.together v hv w hw heq
      · exact hown v hv heq
    · rcases hmem w hw with hw | rfl
      · exact (hown w hw heq.symm).symm
      · rfl
  · refine List.pairwise_append.mpr ⟨hs.unique, List.pairwise_singleton _ _, ?_⟩
    intro v hv w hw hkey halive _
    rw [List.mem_singleton.mp hw] at hkey ⊢
    have hwait := List.any_eq_false.mp hwaits v hv
    have hviolate := List.any_eq_false.mp hviolates v hv
    have hdeleted : h.deleted v = false := halive.2
    have hwriter : v.xmin = t ∨ h.committed v.xmin = true := by
      cases hstatus : h.status v.xmin with
      | inProgress =>
        by_contra hne
        unfold openElsewhere at hwait
        simp [hkey, hstatus, not_or.mp hne] at hwait
      | committed => exact Or.inr (committed_iff.mpr hstatus)
      | aborted => exact absurd hstatus halive.1
    by_contra hxmax
    simp [hkey, hdeleted, hxmax, hwriter] at hviolate

theorem Sound.commit (hs : Sound key group scope h) (ht : h.status t = .inProgress) :
    Sound key group scope (h.commit t) := by
  have hmono : ∀ u, h.committed u = true → (h.commit t).committed u = true := by
    intro u hu
    rw [committed_commit, hu, Bool.or_true]
  refine ⟨hs.writes, hs.deletes, ?_, hs.together, ?_⟩
  · intro v hv huncommitted
    apply hs.undeleted v hv
    by_contra hne
    rw [hmono _ (eq_true_of_ne_false hne)] at huncommitted
    cases huncommitted
  · have halive : ∀ v, (h.commit t).alive v → h.alive v := by
      intro v hv
      refine ⟨?_, ?_⟩
      · intro hstatus
        have hne : v.xmin ≠ t := by
          intro heq
          rw [heq, ht] at hstatus
          cases hstatus
        exact hv.1 ((Function.update_of_ne hne ..).trans hstatus)
      · by_contra hne
        obtain ⟨u, hu, hcommitted⟩ := deleted_iff.mp (eq_true_of_ne_false hne)
        have := deleted_iff.mpr ⟨u, hu, hmono u hcommitted⟩
        rw [hv.2] at this
        cases this
    refine hs.unique.imp ?_
    intro v w hunique hkey hv hw
    exact hunique hkey (halive v hv) (halive w hw)

theorem Sound.abort (hs : Sound key group scope h) (ht : h.status t = .inProgress) :
    Sound key group scope (h.abort t) := by
  have hsame := committed_abort ht
  refine ⟨hs.writes, hs.deletes, ?_, hs.together, ?_⟩
  · intro v hv huncommitted
    rw [hsame] at huncommitted
    exact hs.undeleted v hv huncommitted
  · have halive : ∀ v, (h.abort t).alive v → h.alive v := by
      intro v hv
      refine ⟨?_, ?_⟩
      · intro hstatus
        apply hv.1
        by_cases heq : v.xmin = t
        · rw [heq]
          exact Function.update_self ..
        · exact (Function.update_of_ne heq ..).trans hstatus
      · have hdeleted := hv.2
        unfold deleted at hdeleted ⊢
        rwa [funext hsame] at hdeleted
    refine hs.unique.imp ?_
    intro v w hunique hkey hv hw
    exact hunique hkey (halive v hv) (halive w hw)

theorem visible_alive {v : RowVersion R} (hv : h.visible v = true) : h.alive v := by
  obtain ⟨hcommitted, hdeleted⟩ := visible_iff.mp hv
  refine ⟨?_, hdeleted⟩
  rw [committed_iff.mp hcommitted]
  decide

/-- The key is unique among the committed rows. -/
theorem Sound.rows_nodup (hs : Sound key group scope h) : (h.rows.map fun x => key x.2).Nodup := by
  unfold rows
  rw [List.map_map]
  apply List.pairwise_map.mpr
  refine (hs.unique.filter h.visible).imp_of_mem ?_
  intro v w hv hw hunique hkey
  have hv' := (List.mem_filter.mp hv).2
  have hw' := (List.mem_filter.mp hw).2
  have hxmax := hunique hkey (visible_alive hv') (visible_alive hw')
  have := deleted_iff.mpr ⟨w.xmin, hxmax, (visible_iff.mp hw').1⟩
  rw [(visible_iff.mp hv').2] at this
  cases this

/-- With one of its rows, everything that a transaction wrote is committed. -/
theorem Sound.whole (hs : Sound key group scope h) {x : ℕ × R} (hx : x ∈ h.rows) :
    h.rows.filter (fun y => y.1 = x.1) = (h.written x.1).map fun row => (x.1, row) := by
  obtain ⟨v, hv, hvisible, rfl⟩ := mem_rows.mp hx
  have hsame : ∀ w ∈ h.versions, w.xmin = v.xmin → h.visible w = true := by
    intro w hw heq
    have hxmax := hs.together w hw v hv heq
    unfold visible deleted at hvisible ⊢
    rwa [heq, hxmax]
  unfold rows written
  rw [List.filter_map, List.filter_filter, List.map_map]
  have hfilter : h.versions.filter (fun w => (decide (w.xmin = v.xmin)) && h.visible w) =
      h.versions.filter fun w => w.xmin = v.xmin := by
    apply List.filter_congr
    intro w hw
    by_cases heq : w.xmin = v.xmin
    · simp [heq, hsame w hw heq]
    · simp [heq]
  refine (congrArg _ hfilter).trans ?_
  apply List.map_congr_left
  intro w hw
  have heq := of_decide_eq_true (List.mem_filter.mp hw).2
  exact Prod.ext heq rfl

/- The committed rows of a group. -/
theorem rows_filter [DecidableEq G] (h : Heap R) (group : R → G) (g : G) :
    h.rows.filter (fun x => group x.2 = g) =
      (h.versions.filter fun v => decide (group v.row = g) && h.visible v).map
        fun v => (v.xmin, v.row) := by
  unfold rows
  rw [List.filter_map, List.filter_filter]
  rfl

/-- A commit into a group without rows leaves it with what the transaction wrote. -/
theorem Sound.commit_rows [DecidableEq G] (hs : Sound key group scope h)
    (hscope : scope t = some g) (ht : h.status t = .inProgress)
    (hnone : h.rows.filter (fun x => group x.2 = g) = []) :
    (h.commit t).rows.filter (fun x => group x.2 = g) = (h.written t).map fun row => (t, row) := by
  have hhidden : ∀ v ∈ h.versions, group v.row = g → h.visible v = false := by
    intro v hv hgroup
    by_contra hvisible
    have hmem : (v.xmin, v.row) ∈ h.rows.filter fun x => group x.2 = g :=
      List.mem_filter.mpr ⟨mem_rows.mpr ⟨v, hv, eq_true_of_ne_false hvisible, rfl⟩,
        decide_eq_true hgroup⟩
    rw [hnone] at hmem
    cases hmem
  have hfilter : ∀ v ∈ h.versions,
      (decide (group v.row = g) && (h.commit t).visible v) = decide (v.xmin = t) := by
    intro v hv
    by_cases hxmin : v.xmin = t
    · have hgroup : group v.row = g :=
        Option.some.inj ((hs.writes v hv).symm.trans (hxmin ▸ hscope))
      have hxmax := hs.undeleted v hv (hxmin ▸ committed_inProgress ht)
      unfold visible deleted
      simp [hgroup, hxmin, hxmax, committed_commit]
    · by_cases hgroup : group v.row = g
      · have hvisible := hhidden v hv hgroup
        unfold visible at hvisible ⊢
        rw [committed_commit, decide_eq_false hxmin, Bool.false_or, Bool.and_eq_false_iff]
        right
        rcases Bool.and_eq_false_iff.mp hvisible with hwriter | hdeleted
        · rw [hwriter, Bool.false_and]
        · obtain ⟨u, hu, hcommitted⟩ := deleted_iff.mp ((Bool.not_eq_false' _).mp hdeleted)
          have hdeleted' : (h.commit t).deleted v = true :=
            deleted_iff.mpr ⟨u, hu, by rw [committed_commit, hcommitted, Bool.or_true]⟩
          rw [hdeleted', Bool.not_true, Bool.and_false]
      · simp [hgroup, hxmin]
  rw [rows_filter]
  change (h.versions.filter _).map _ = _
  rw [List.filter_congr hfilter]
  unfold written
  rw [List.map_map]
  apply List.map_congr_left
  intro v hv
  exact Prod.ext (of_decide_eq_true (List.mem_filter.mp hv).2) rfl

/-- The other groups stay as they are. -/
theorem Sound.commit_other [DecidableEq G] {g' : G} (hs : Sound key group scope h)
    (hscope : scope t = some g) (hne : g' ≠ g) :
    (h.commit t).rows.filter (fun x => group x.2 = g') =
      h.rows.filter fun x => group x.2 = g' := by
  rw [rows_filter, rows_filter]
  change (h.versions.filter _).map _ = _
  congr 1
  apply List.filter_congr
  intro v hv
  by_cases hgroup : group v.row = g'
  · have hscope' : scope t ≠ some (group v.row) := by
      rw [hscope, hgroup]
      exact fun heq => hne (Option.some.inj heq).symm
    have hxmin : v.xmin ≠ t := fun heq => hscope' (heq ▸ hs.writes v hv)
    have hxmax : v.xmax ≠ some t := fun heq => hscope' (hs.deletes v hv t heq)
    have hdeleted : (h.commit t).deleted v = h.deleted v := by
      unfold deleted
      cases hv : v.xmax with
      | none => rfl
      | some u =>
        have hu : u ≠ t := by
          intro heq
          rw [hv, heq] at hxmax
          exact hxmax rfl
        change (h.commit t).committed u = h.committed u
        rw [committed_commit, decide_eq_false hu, Bool.false_or]
    unfold visible
    rw [hdeleted, committed_commit, decide_eq_false hxmin, Bool.false_or]
  · rw [decide_eq_false hgroup, Bool.false_and, Bool.false_and]

/-- What a commit has written is there, whatever it has deleted. -/
theorem Sound.mem_commit (hs : Sound key group scope h) (ht : h.status t = .inProgress)
    {row : R} (hrow : row ∈ h.written t) : (t, row) ∈ (h.commit t).rows := by
  obtain ⟨v, hv, heq, rfl⟩ := mem_written.mp hrow
  have hxmax := hs.undeleted v hv (heq ▸ committed_inProgress ht)
  refine mem_rows.mpr ⟨v, hv, visible_iff.mpr ⟨?_, ?_⟩, Prod.ext heq.symm rfl⟩
  · rw [committed_commit]
    simp [heq]
  · unfold deleted
    rw [hxmax]
    rfl

end

end Heap

end AnalyticsEngine.Library
