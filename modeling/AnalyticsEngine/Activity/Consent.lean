import Mathlib.Algebra.GroupWithZero.Nat
import Mathlib.Data.Finset.Sort
import Mathlib.Data.Finset.Lattice.Basic

/-!
# The read-time consent check of insights/activity.py

Which subjects a read may see: those with a grant in effect for every purpose asked for,
narrowed by the caller's own subjects. `eligibleForAll_ok` is the whole contract.
-/

namespace AnalyticsEngine.Activity

abbrev UUID := Fin (2 ^ 128)

instance neZero_uuid : NeZero (2 ^ 128 : ℕ) := ⟨(Nat.two_pow_pos 128).ne'⟩

/- A `datetime`: its wall clock, the identity of its zone unless it is naive, and its instant,
in microseconds. -/
structure Datetime where
  wall : ℤ
  zone : Option ℕ
  instant : ℤ

/- `d >= e`: within one zone `datetime` compares wall clocks. -/
def Datetime.ge (d e : Datetime) : Bool :=
  if d.zone = e.zone then e.wall ≤ d.wall else e.instant ≤ d.instant

/-- `ConsentPurposeError` and the `ValueError`s of the window. -/
inductive ReadError where
  | noPurpose
  | unknownPurposes (unknown published : List String)
  | naiveWindow
  | emptyWindow (since stop : Datetime)

def ReadError.message (reprOf : List String → String) (isoformat : Datetime → String) :
    ReadError → String
  | .noPurpose =>
    "at least one consent purpose is required; an unfiltered activity read is not available"
  | .unknownPurposes unknown published =>
    "unknown consent " ++ (if unknown.length > 1 then "purposes" else "purpose") ++ " " ++
      reprOf unknown ++ "; published purposes are " ++ reprOf published
  | .naiveWindow => "since and until must be timezone-aware; activity.occurred_at is TIMESTAMPTZ"
  | .emptyWindow since stop =>
    "since must be before until, got since=" ++ isoformat since ++ " until=" ++ isoformat stop

def validatedPurposes (published purposes : List String) : Except ReadError (List String) :=
  let ordered := purposes.eraseDups
  if ordered = [] then .error .noPurpose
  else
    let unknown := ordered.filter fun purpose => purpose ∉ published
    if unknown ≠ [] then .error (.unknownPurposes unknown published) else .ok ordered

def validatedWindow (since stop : Datetime) : Except ReadError Unit :=
  if since.zone = none ∨ stop.zone = none then .error .naiveWindow
  else if since.ge stop then .error (.emptyWindow since stop) else .ok ()

/-! ### Grants -/

structure UserSubject where
  userId : UUID
  subjectId : UUID

structure ConsentGrant where
  userId : UUID
  purpose : String
  grantedAt : ℤ
  revokedAt : Option ℤ

/-- The two tables and `NOW()`. -/
structure GrantTables where
  userSubjects : List UserSubject
  consentGrants : List ConsentGrant
  now : ℤ

/-- The answer to `_ELIGIBLE_SUBJECTS_SQL`. -/
def GrantTables.eligibleSubjects (tables : GrantTables) (purpose : String) : List UUID :=
  tables.userSubjects.flatMap fun subjects =>
    (tables.consentGrants.filter fun grants =>
      grants.userId = subjects.userId ∧ grants.purpose = purpose ∧ grants.revokedAt = none ∧
        grants.grantedAt ≤ tables.now).map fun _ => subjects.subjectId

def trainingEligibleSubjects (published : List String) (tables : GrantTables) (purpose : String) :
    Except ReadError (Finset UUID) :=
  match validatedPurposes published [purpose] with
  | .error e => .error e
  | .ok _ => .ok (tables.eligibleSubjects purpose).toFinset

/-- `granted if eligible is None else eligible & granted`. -/
def narrow (eligible : Option (Finset UUID)) (granted : Finset UUID) : Finset UUID :=
  match eligible with
  | none => granted
  | some eligible => eligible ∩ granted

/- The loop of `_eligible_for_all` and what follows it; `eligible` is `None` before the first
purpose. -/
def eligibleForAll (published : List String) (tables : GrantTables)
    (subjects : Option (List UUID)) : List String → Option (Finset UUID) →
    Except ReadError (List UUID)
  | [], eligible =>
    let narrowed := match subjects with
      | none => eligible.getD ∅
      | some subjects => eligible.getD ∅ ∩ subjects.toFinset
    .ok (narrowed.sort (· ≤ ·))
  | purpose :: later, eligible =>
    match trainingEligibleSubjects published tables purpose with
    | .error e => .error e
    | .ok granted =>
      if narrow eligible granted = ∅ then .ok []
      else eligibleForAll published tables subjects later (some (narrow eligible granted))

/-! ### What the checks say -/

section
variable {published purposes : List String} {tables : GrantTables} {purpose : String}
  {subjects : Option (List UUID)} {subject : UUID}

theorem eraseDups_ne_nil (hne : purposes ≠ []) : purposes.eraseDups ≠ [] := by
  intro hnil
  obtain ⟨p, hp⟩ := List.exists_mem_of_ne_nil purposes hne
  have hmem := List.mem_eraseDups.mpr hp
  rw [hnil] at hmem
  cases hmem

theorem validatedPurposes_ok (hne : purposes ≠ []) (hpublished : ∀ p ∈ purposes, p ∈ published) :
    validatedPurposes published purposes = .ok purposes.eraseDups := by
  unfold validatedPurposes
  have hordered := eraseDups_ne_nil hne
  have hunknown : (purposes.eraseDups.filter fun p => p ∉ published) = [] := by
    apply List.filter_eq_nil_iff.mpr
    intro p hp
    simpa using hpublished p (List.mem_eraseDups.mp hp)
  simp only [hordered, hunknown, ne_eq, not_true_eq_false, if_false]

theorem validatedWindow_ok {since stop : Datetime} (hsince : since.zone ≠ none)
    (hstop : stop.zone ≠ none) (hlt : since.ge stop = false) :
    validatedWindow since stop = .ok () := by
  unfold validatedWindow
  simp [hsince, hstop, hlt]

def GrantTables.Holds (tables : GrantTables) (subject : UUID) (purpose : String) : Prop :=
  ∃ row ∈ tables.userSubjects, row.subjectId = subject ∧
    ∃ grant ∈ tables.consentGrants, grant.userId = row.userId ∧ grant.purpose = purpose ∧
      grant.revokedAt = none ∧ grant.grantedAt ≤ tables.now

theorem mem_eligibleSubjects :
    subject ∈ tables.eligibleSubjects purpose ↔ tables.Holds subject purpose := by
  unfold GrantTables.eligibleSubjects GrantTables.Holds
  simp only [List.mem_flatMap, List.mem_map, List.mem_filter, decide_eq_true_eq]
  constructor
  · intro hfound
    obtain ⟨row, hrow, grant, ⟨hgrant, hholds⟩, heq⟩ := hfound
    exact ⟨row, hrow, heq, grant, hgrant, hholds⟩
  · intro hfound
    obtain ⟨row, hrow, heq, grant, hgrant, hholds⟩ := hfound
    exact ⟨row, hrow, grant, ⟨hgrant, hholds⟩, heq⟩

theorem trainingEligibleSubjects_ok (hpublished : purpose ∈ published) :
    trainingEligibleSubjects published tables purpose =
      .ok (tables.eligibleSubjects purpose).toFinset := by
  unfold trainingEligibleSubjects
  rw [validatedPurposes_ok (List.cons_ne_nil _ _) (by simpa using hpublished)]

def Narrowed (tables : GrantTables) (before : List String) (eligible : Option (Finset UUID)) :
    Prop :=
  match eligible with
  | none => before = []
  | some eligible => ∀ subject, subject ∈ eligible ↔ ∀ p ∈ before, tables.Holds subject p

theorem Narrowed.next {before : List String} {eligible : Option (Finset UUID)}
    (h : Narrowed tables before eligible) (purpose : String) :
    Narrowed tables (before ++ [purpose])
      (some (narrow eligible (tables.eligibleSubjects purpose).toFinset)) := by
  intro subject
  unfold narrow
  cases eligible with
  | none =>
    obtain rfl : before = [] := h
    simp only [List.nil_append, List.forall_mem_singleton, List.mem_toFinset,
      mem_eligibleSubjects]
  | some eligible =>
    have hbefore := h subject
    simp only [Finset.mem_inter, List.mem_toFinset, mem_eligibleSubjects, List.forall_mem_append,
      List.forall_mem_singleton, hbefore]

theorem eligibleForAll_run {before : List String} {eligible : Option (Finset UUID)}
    (h : Narrowed tables before eligible) (hsome : eligible ≠ none ∨ purposes ≠ [])
    (hpublished : ∀ p ∈ purposes, p ∈ published) :
    ∃ result, eligibleForAll published tables subjects purposes eligible = .ok result ∧
      ∀ subject, subject ∈ result ↔ (∀ p ∈ before ++ purposes, tables.Holds subject p) ∧
        ∀ listed, subjects = some listed → subject ∈ listed := by
  induction purposes generalizing before eligible with
  | nil =>
    cases eligible with
    | none => exact absurd rfl (hsome.resolve_right fun hne => hne rfl)
    | some eligible =>
      refine ⟨_, rfl, ?_⟩
      intro subject
      have hbefore := h subject
      rw [List.append_nil, ← hbefore]
      cases subjects with
      | none => simp
      | some listed => simp
  | cons purpose later ih =>
    unfold eligibleForAll
    rw [trainingEligibleSubjects_ok (hpublished purpose List.mem_cons_self)]
    have hnext := h.next purpose
    simp only
    split_ifs with hempty
    · -- nobody is left: the loop returns early, and no later purpose can add a subject
      refine ⟨[], rfl, ?_⟩
      intro subject
      constructor
      · intro hmem
        cases hmem
      · intro hfound
        obtain ⟨hholds, _⟩ := hfound
        have hmem := (hnext subject).mpr fun p hp => hholds p (by
          rw [← List.singleton_append, ← List.append_assoc]
          exact List.mem_append_left _ hp)
        rw [hempty] at hmem
        exact absurd hmem (Finset.notMem_empty subject)
    · have hlater := ih hnext (Or.inl (Option.some_ne_none _))
        fun p hp => hpublished p (List.mem_cons_of_mem _ hp)
      rwa [List.append_assoc, List.singleton_append] at hlater

/-- The eligible subjects hold a grant for every purpose and are among the caller's. -/
theorem eligibleForAll_ok (tables : GrantTables) (subjects : Option (List UUID))
    (hne : purposes ≠ []) (hpublished : ∀ p ∈ purposes, p ∈ published) :
    ∃ result, eligibleForAll published tables subjects purposes none = .ok result ∧
      ∀ subject, subject ∈ result ↔ (∀ p ∈ purposes, tables.Holds subject p) ∧
        ∀ listed, subjects = some listed → subject ∈ listed := by
  have hnone : Narrowed tables [] none := rfl
  exact eligibleForAll_run hnone (Or.inr hne) hpublished

end

end AnalyticsEngine.Activity
