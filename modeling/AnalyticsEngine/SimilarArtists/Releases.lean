import AnalyticsEngine.Library.Calendar
import AnalyticsEngine.SimilarArtists.CopyRows
import Mathlib.Order.WithBot
import Mathlib.Data.String.Basic
import Mathlib.Data.List.Sort

/-!
# Releases of the lists (insights/similar_artists.py)

`write_similar_artists` and `publish_and_rotate`, each one transaction under the release lock. The
create, publish and retire helpers are the schema's: a registry is any of them with the behaviour
that this code relies on.
-/

namespace AnalyticsEngine.SimilarArtists
open Library ExactTopK

variable {α : Type*}

/-- A row of `public.artist_embedding_releases`; a `published_at` of `NULL` is `⊤`, which is where it
sorts. -/
structure Release where
  releaseId : ℤ
  modelVersion : String
  isCurrent : Bool
  artists : ℤ
  publishedAt : WithTop ℕ
  k : ℕ
  sourceDumpId : String
  sourceDumpDate : Date

structure ReleaseTables (α : Type*) where
  releases : List Release
  lists : List (CopyRow α)

namespace ReleaseTables

def empty : ReleaseTables α := ⟨[], []⟩

def listsOf (t : ReleaseTables α) (releaseId : ℤ) : List (CopyRow α) :=
  t.lists.filter fun row => row.releaseId = releaseId

/-- `_CURRENT_RELEASE_SQL`. -/
def current (t : ReleaseTables α) : Option String :=
  (t.releases.find? Release.isCurrent).map Release.modelVersion

/-- `_RELEASE_EXISTS_SQL`. -/
def published (t : ReleaseTables α) (version : String) : Bool :=
  t.releases.any fun r => r.modelVersion = version && 0 < r.artists

/-- `_RELEASE_WRITE_GUARD_SQL`. -/
def artistsOf (t : ReleaseTables α) (releaseId : ℤ) : Option ℤ :=
  (t.releases.find? fun r => r.releaseId = releaseId).map Release.artists

end ReleaseTables

/- `ORDER BY published_at DESC, model_version DESC`. -/
def Release.Recency (r r' : Release) : Prop :=
  r'.publishedAt < r.publishedAt ∨
    (r'.publishedAt = r.publishedAt ∧ r'.modelVersion ≤ r.modelVersion)

instance : DecidableRel Release.Recency := fun _ _ => inferInstanceAs (Decidable (_ ∨ _))

/-- `_RELEASES_BY_RECENCY_SQL`. -/
def ReleaseTables.byRecency (t : ReleaseTables α) : List String :=
  ((t.releases.filter fun r => 0 < r.artists).insertionSort Release.Recency).map Release.modelVersion

/-! ### The schema's helpers -/

def Release.publish (version : String) (artists : ℤ) (time : ℕ) (r : Release) : Release :=
  if r.modelVersion = version then
    { r with isCurrent := true, artists := artists, publishedAt := time }
  else { r with isCurrent := false }

/- The release of a version, as it was or as the only one added. -/
def Created (t : ReleaseTables α) (version : String) (releaseId : ℤ) (t' : ReleaseTables α) : Prop :=
  ∃ r ∈ t'.releases, r.modelVersion = version ∧ r.releaseId = releaseId ∧
    (t' = t ∨ (r.isCurrent = false ∧ r.artists = 0 ∧
      (∀ other ∈ t.releases, other.modelVersion ≠ version ∧ other.releaseId ≠ releaseId) ∧
      t' = { t with releases := t.releases ++ [r] }))

/- A release with lists becomes the only current one, at a time later than any. -/
def Published (t : ReleaseTables α) (version : String) (t' : ReleaseTables α) : Prop :=
  ∃ r ∈ t.releases, r.modelVersion = version ∧ t.listsOf r.releaseId ≠ [] ∧
    ∃ (artists : ℤ) (time : ℕ), 0 < artists ∧
      (∀ other ∈ t.releases, other.publishedAt ≠ ⊤ → other.publishedAt < time) ∧
      t' = { t with releases := t.releases.map (Release.publish version artists time) }

def ReleaseTables.withoutLists (t : ReleaseTables α) (version : String) : ReleaseTables α :=
  { t with lists := t.lists.filter fun row =>
      !t.releases.any fun r => r.modelVersion = version && r.releaseId = row.releaseId }

/-- The helpers: `create` returns an id, or nothing when it fails, and the others the number of
their failures. One that fails has no effect. -/
structure ReleaseRegistry (α : Type*) where
  create : ReleaseTables α → String → String → Date → ℕ → ReleaseTables α × Option ℤ
  publish : ReleaseTables α → String → ℤ → ReleaseTables α × ℕ
  retire : ReleaseTables α → String → ReleaseTables α × ℕ
  create_spec : ∀ t version dumpId dumpDate k t' releaseId,
    create t version dumpId dumpDate k = (t', some releaseId) → Created t version releaseId t'
  publish_spec : ∀ t version artists t', publish t version artists = (t', 0) →
    Published t version t'
  retire_spec : ∀ t version,
    retire t version = (t.withoutLists version, 0) ∨ ((retire t version).1 = t ∧ (retire t version).2 ≠ 0)

/-! ### write_similar_artists -/

structure Spool (α : Type*) where
  files : Files α
  nArtists : ℕ
  k : ℕ

inductive ReleaseError where
  | artistIds (given spooled : ℕ)
  | create (version : String)
  | overwrite (version : String)
  | copy
  | uniqueViolation
  | publish (version : String)

def writeSimilarArtists (registry : ReleaseRegistry α) (t : ReleaseTables α) (spool : Spool α)
    (version : String) (artistIds : List String) (dumpId : String) (dumpDate : Date) :
    Except ReleaseError (ReleaseTables α × ℕ) :=
  if artistIds.length ≠ spool.nArtists then .error (.artistIds artistIds.length spool.nArtists)
  else
    match registry.create t version dumpId dumpDate spool.k with
    | (_, none) => .error (.create version)
    | (t, some releaseId) =>
      match t.artistsOf releaseId with
      | none => .error (.overwrite version)
      | some artists =>
        if 0 < artists then .error (.overwrite version)
        else
          match copyRows spool.files spool.nArtists spool.k artistIds releaseId with
          | none => .error .copy
          | some rows =>
            -- the primary key of the lists
            if (rows.map CopyRow.artistId).Nodup then
              .ok ({ t with lists := (t.lists.filter fun row => row.releaseId ≠ releaseId) ++ rows },
                rows.length)
            else .error .uniqueViolation

/-! ### publish_and_rotate -/

structure RotateResult where
  published : String
  keptPrevious : Option String
  retired : List String
  retireFailures : List String

structure Rotation (α : Type*) where
  tables : ReleaseTables α
  retired : List String
  failures : List String

def Rotation.retire (registry : ReleaseRegistry α) (rotation : Rotation α) (version : String) :
    Rotation α :=
  match registry.retire rotation.tables version with
  | (t, 0) => ⟨t, rotation.retired ++ [version], rotation.failures⟩
  | (t, _) => ⟨t, rotation.retired, rotation.failures ++ [version]⟩

def publishAndRotate (registry : ReleaseRegistry α) (t : ReleaseTables α) (version : String)
    (artists : ℤ) : Except ReleaseError (ReleaseTables α × RotateResult) :=
  let current := t.current
  let previous := if current = some version then none else current
  match registry.publish t version artists with
  | (t, 0) =>
    let older := t.byRecency.filter fun other => other ≠ version
    let previous := if current = some version ∧ older ≠ [] then older.head? else previous
    let toRetire := older.filter fun other => some other ≠ previous
    let rotation := toRetire.foldl (Rotation.retire registry) ⟨t, [], []⟩
    .ok (rotation.tables, ⟨version, previous, rotation.retired, rotation.failures⟩)
  | _ => .error (.publish version)

/-! ### What the tables keep -/

structure ReleaseTables.Sound (t : ReleaseTables α) : Prop where
  version_inj : ∀ r ∈ t.releases, ∀ r' ∈ t.releases, r.modelVersion = r'.modelVersion → r = r'
  id_inj : ∀ r ∈ t.releases, ∀ r' ∈ t.releases, r.releaseId = r'.releaseId → r = r'
  current_inj : ∀ r ∈ t.releases, ∀ r' ∈ t.releases, r.isCurrent = true → r'.isCurrent = true → r = r'
  current_published : ∀ r ∈ t.releases, r.isCurrent = true → 0 < r.artists
  timed : ∀ r ∈ t.releases, 0 < r.artists → r.publishedAt ≠ ⊤
  latest : ∀ c ∈ t.releases, c.isCurrent = true → ∀ r ∈ t.releases, 0 < r.artists → r ≠ c →
    r.publishedAt < c.publishedAt
  owned : ∀ row ∈ t.lists, ∃ r ∈ t.releases, r.releaseId = row.releaseId

section
variable {t t' : ReleaseTables α} {version : String} {artists : ℤ} {time : ℕ} {r : Release}

theorem sound_empty : (ReleaseTables.empty : ReleaseTables α).Sound where
  version_inj _ h := by cases h
  id_inj _ h := by cases h
  current_inj _ h := by cases h
  current_published _ h := by cases h
  timed _ h := by cases h
  latest _ h := by cases h
  owned _ h := by cases h

@[simp] theorem publish_modelVersion :
    (r.publish version artists time).modelVersion = r.modelVersion := by
  unfold Release.publish
  split_ifs <;> rfl

@[simp] theorem publish_releaseId :
    (r.publish version artists time).releaseId = r.releaseId := by
  unfold Release.publish
  split_ifs <;> rfl

theorem publish_isCurrent :
    (r.publish version artists time).isCurrent = true ↔ r.modelVersion = version := by
  unfold Release.publish
  split_ifs with hversion
  · simp [hversion]
  · simp [hversion]

theorem publish_of_ne (h : r.modelVersion ≠ version) :
    r.publish version artists time = { r with isCurrent := false } :=
  if_neg h

theorem publish_self (h : r.modelVersion = version) : r.publish version artists time =
    { r with isCurrent := true, artists := artists, publishedAt := time } :=
  if_pos h

theorem current_eq_some (ht : t.Sound) : t.current = some version ↔
    ∃ r ∈ t.releases, r.isCurrent = true ∧ r.modelVersion = version := by
  unfold ReleaseTables.current
  rw [Option.map_eq_some_iff]
  constructor
  · intro hcurrent
    obtain ⟨r, hr, hversion⟩ := hcurrent
    exact ⟨r, List.mem_of_find?_eq_some hr, List.find?_some hr, hversion⟩
  · intro hcurrent
    obtain ⟨r, hr, hiscurrent, hversion⟩ := hcurrent
    cases hfind : t.releases.find? Release.isCurrent with
    | none => exact absurd hiscurrent (List.find?_eq_none.mp hfind r hr)
    | some found =>
      have heq : found = r := ht.current_inj found (List.mem_of_find?_eq_some hfind) r hr
        (List.find?_some hfind) hiscurrent
      exact ⟨found, rfl, heq ▸ hversion⟩

theorem published_sound (ht : t.Sound) (h : Published t version t') : t'.Sound := by
  obtain ⟨p, hp, hpversion, _, artists, time, hartists, htime, rfl⟩ := h
  have hmem : ∀ r' ∈ t.releases.map (Release.publish version artists time), ∃ r ∈ t.releases,
      r.publish version artists time = r' := fun r' hr' => List.mem_map.mp hr'
  have hother : ∀ r ∈ t.releases, r.modelVersion ≠ version → 0 < r.artists →
      r.publishedAt < (time : WithTop ℕ) := fun r hr _ hpublished =>
    htime r hr (ht.timed r hr hpublished)
  constructor
  · intro r₁' h₁' r₂' h₂' heq
    obtain ⟨r₁, h₁, rfl⟩ := hmem r₁' h₁'
    obtain ⟨r₂, h₂, rfl⟩ := hmem r₂' h₂'
    rw [publish_modelVersion, publish_modelVersion] at heq
    rw [ht.version_inj r₁ h₁ r₂ h₂ heq]
  · intro r₁' h₁' r₂' h₂' heq
    obtain ⟨r₁, h₁, rfl⟩ := hmem r₁' h₁'
    obtain ⟨r₂, h₂, rfl⟩ := hmem r₂' h₂'
    rw [publish_releaseId, publish_releaseId] at heq
    rw [ht.id_inj r₁ h₁ r₂ h₂ heq]
  · intro r₁' h₁' r₂' h₂' hcurrent₁ hcurrent₂
    obtain ⟨r₁, h₁, rfl⟩ := hmem r₁' h₁'
    obtain ⟨r₂, h₂, rfl⟩ := hmem r₂' h₂'
    rw [publish_isCurrent] at hcurrent₁ hcurrent₂
    rw [ht.version_inj r₁ h₁ r₂ h₂ (hcurrent₁.trans hcurrent₂.symm)]
  · intro r' hr' hcurrent
    obtain ⟨r, hr, rfl⟩ := hmem r' hr'
    rw [publish_self (publish_isCurrent.mp hcurrent)]
    exact hartists
  · intro r' hr' hpublished
    obtain ⟨r, hr, rfl⟩ := hmem r' hr'
    by_cases hversion : r.modelVersion = version
    · rw [publish_self hversion]
      exact WithTop.coe_ne_top
    · rw [publish_of_ne hversion] at hpublished ⊢
      exact ht.timed r hr hpublished
  · intro c' hc' hcurrent r' hr' hpublished hne
    obtain ⟨c, hc, rfl⟩ := hmem c' hc'
    obtain ⟨r, hr, rfl⟩ := hmem r' hr'
    have hversion := publish_isCurrent.mp hcurrent
    have hrversion : r.modelVersion ≠ version := by
      intro heq
      exact hne (congrArg _ (ht.version_inj r hr c hc (heq.trans hversion.symm)))
    rw [publish_of_ne hrversion] at hpublished ⊢
    rw [publish_self hversion]
    exact hother r hr hrversion hpublished
  · intro row hrow
    obtain ⟨r, hr, hid⟩ := ht.owned row hrow
    exact ⟨_, List.mem_map.mpr ⟨r, hr, rfl⟩, publish_releaseId.trans hid⟩

theorem published_current (ht : t.Sound) (h : Published t version t') :
    t'.current = some version := by
  apply (current_eq_some (published_sound ht h)).mpr
  obtain ⟨p, hp, hpversion, _, artists, time, _, _, rfl⟩ := h
  exact ⟨_, List.mem_map.mpr ⟨p, hp, rfl⟩, publish_isCurrent.mpr hpversion,
    publish_modelVersion.trans hpversion⟩

/-! ### Retiring -/

/- The lists of the retired versions are gone, the others as they were. -/
structure Rotated (t t' : ReleaseTables α) (retired : List String) : Prop where
  releases : t'.releases = t.releases
  subset : ∀ row ∈ t'.lists, row ∈ t.lists
  lists : ∀ r ∈ t.releases, t'.listsOf r.releaseId =
    if r.modelVersion ∈ retired then [] else t.listsOf r.releaseId

theorem Rotated.refl (t : ReleaseTables α) : Rotated t t [] where
  releases := rfl
  subset _ h := h
  lists r _ := by rw [if_neg List.not_mem_nil]

theorem listsOf_withoutLists (ht : t.Sound) (hr : r ∈ t.releases) :
    (t.withoutLists version).listsOf r.releaseId =
      if r.modelVersion = version then [] else t.listsOf r.releaseId := by
  have howner : ∀ row : CopyRow α, row.releaseId = r.releaseId →
      (t.releases.any fun r => r.modelVersion = version && r.releaseId = row.releaseId) =
        decide (r.modelVersion = version) := by
    intro row hrow
    apply Bool.eq_iff_iff.mpr
    rw [List.any_eq_true, decide_eq_true_iff]
    constructor
    · intro hany
      obtain ⟨r', hr', hmatch⟩ := hany
      rw [Bool.and_eq_true, decide_eq_true_iff, decide_eq_true_iff] at hmatch
      rw [ht.id_inj r hr r' hr' (hrow.symm.trans hmatch.2.symm)]
      exact hmatch.1
    · intro hversion
      exact ⟨r, hr, by simp [hversion, hrow]⟩
  unfold ReleaseTables.listsOf ReleaseTables.withoutLists
  simp only
  rw [List.filter_filter]
  split_ifs with hversion
  · apply List.filter_eq_nil_iff.mpr
    intro row _ hrow
    rw [Bool.and_eq_true, decide_eq_true_iff] at hrow
    rw [howner row hrow.1, decide_eq_true hversion] at hrow
    cases hrow.2
  · apply List.filter_congr
    intro row _
    by_cases hrow : row.releaseId = r.releaseId
    · rw [howner row hrow, decide_eq_false hversion, Bool.not_false, Bool.and_true]
    · rw [decide_eq_false hrow, Bool.false_and]

theorem Rotated.sound {retired : List String} (h : Rotated t t' retired) (ht : t.Sound) : t'.Sound := by
  obtain ⟨hreleases, hsubset, _⟩ := h
  constructor <;> rw [hreleases]
  · exact ht.version_inj
  · exact ht.id_inj
  · exact ht.current_inj
  · exact ht.current_published
  · exact ht.timed
  · exact ht.latest
  · exact fun row hrow => ht.owned row (hsubset row hrow)

theorem rotated_retire (registry : ReleaseRegistry α) {rotation : Rotation α}
    (hsound : rotation.tables.Sound) (version : String) :
    ∃ retired, (rotation.retire registry version).retired = rotation.retired ++ retired ∧
      (∀ other ∈ retired, other = version) ∧
      Rotated rotation.tables (rotation.retire registry version).tables retired := by
  unfold Rotation.retire
  rcases registry.retire_spec rotation.tables version with hretired | ⟨htables, hfailed⟩
  · rw [hretired]
    refine ⟨[version], rfl, fun other hother => List.mem_singleton.mp hother, rfl, ?_, ?_⟩
    · exact fun row hrow => (List.mem_filter.mp hrow).1
    · intro r hr
      simp only [List.mem_singleton]
      exact listsOf_withoutLists hsound hr
  · cases hresult : registry.retire rotation.tables version with
    | mk u failures =>
      rw [hresult] at htables hfailed
      cases failures with
      | zero => exact absurd rfl hfailed
      | succ failures =>
        refine ⟨[], (List.append_nil _).symm, fun other hother => absurd hother List.not_mem_nil, ?_⟩
        change Rotated rotation.tables u []
        rw [show u = rotation.tables from htables]
        exact Rotated.refl _

theorem Rotated.trans {u : ReleaseTables α} {retired retired' : List String}
    (h : Rotated t t' retired) (h' : Rotated t' u retired') : Rotated t u (retired ++ retired') where
  releases := h'.releases.trans h.releases
  subset row hrow := h.subset row (h'.subset row hrow)
  lists r hr := by
    rw [h'.lists r (h.releases ▸ hr), h.lists r hr]
    by_cases hlater : r.modelVersion ∈ retired'
    · rw [if_pos hlater, if_pos (List.mem_append_right _ hlater)]
    · rw [if_neg hlater]
      simp only [List.mem_append, hlater, or_false]

theorem rotated_foldl (registry : ReleaseRegistry α) (versions : List String)
    (rotation : Rotation α) (hsound : rotation.tables.Sound) :
    ∃ retired, (versions.foldl (Rotation.retire registry) rotation).retired =
        rotation.retired ++ retired ∧ (∀ other ∈ retired, other ∈ versions) ∧
      Rotated rotation.tables (versions.foldl (Rotation.retire registry) rotation).tables retired := by
  induction versions generalizing rotation with
  | nil => exact ⟨[], (List.append_nil _).symm, fun _ h => h, Rotated.refl _⟩
  | cons version later ih =>
    obtain ⟨first, hfirst, hversion, hrotated⟩ := rotated_retire registry hsound version
    obtain ⟨rest, hrest, hlater, hrotated'⟩ := ih _ (hrotated.sound hsound)
    refine ⟨first ++ rest, ?_, ?_, hrotated.trans hrotated'⟩
    · rw [List.foldl_cons, hrest, hfirst, List.append_assoc]
    · intro other hother
      rcases List.mem_append.mp hother with hother | hother
      · rw [hversion other hother]
        exact List.mem_cons_self
      · exact List.mem_cons_of_mem _ (hlater other hother)

/-- What a `publish_and_rotate` that returns has done. -/
theorem publishAndRotate_ok (registry : ReleaseRegistry α) (ht : t.Sound) {result : RotateResult}
    (h : publishAndRotate registry t version artists = .ok (t', result)) :
    ∃ u, result.published = version ∧ Published t version u ∧ Rotated u t' result.retired ∧
      (∀ other ∈ result.retired, other ≠ version ∧ some other ≠ result.keptPrevious) ∧
      (t.current ≠ some version → result.keptPrevious = t.current) ∧
      (t.current = some version →
        result.keptPrevious = (u.byRecency.filter fun other => other ≠ version).head?) := by
  unfold publishAndRotate at h
  simp only at h
  split at h
  · rename_i u hu
    have hpublished := registry.publish_spec t version artists u hu
    generalize holder : (u.byRecency.filter fun other => other ≠ version) = older at h
    generalize hprevious : (if t.current = some version ∧ older ≠ [] then older.head?
      else if t.current = some version then none else t.current) = previous at h
    cases h
    obtain ⟨retired, hretired, hmem, hrotated⟩ := rotated_foldl registry
      (older.filter fun other => some other ≠ previous) ⟨u, [], []⟩
      (published_sound ht hpublished)
    rw [List.nil_append] at hretired
    refine ⟨u, rfl, hpublished, hretired ▸ hrotated, ?_, ?_, ?_⟩
    · intro other hother
      rw [hretired] at hother
      obtain ⟨hother, hkept⟩ := List.mem_filter.mp (hmem other hother)
      rw [← holder] at hother
      exact ⟨of_decide_eq_true (List.mem_filter.mp hother).2, of_decide_eq_true hkept⟩
    · intro hcurrent
      rw [← hprevious, if_neg fun h => hcurrent h.1, if_neg hcurrent]
    · intro hcurrent
      rw [← hprevious, holder]
      split_ifs with hempty
      · rfl
      · rw [not_and_not_right.mp hempty hcurrent]
        rfl
  · cases h

/-! ### The release that was current before -/

/- The latest published release but for the current one. -/
def ReleaseTables.Displaced (t : ReleaseTables α) (version : String) : Prop :=
  ∃ c ∈ t.releases, ∃ d ∈ t.releases, c.isCurrent = true ∧ d ≠ c ∧ d.modelVersion = version ∧
    0 < d.artists ∧ t.listsOf d.releaseId ≠ [] ∧
      ∀ r ∈ t.releases, 0 < r.artists → r ≠ c → r ≠ d → r.publishedAt < d.publishedAt

def ReleaseTables.CurrentStored (t : ReleaseTables α) : Prop :=
  ∀ c ∈ t.releases, c.isCurrent = true → t.listsOf c.releaseId ≠ []

theorem published_currentStored (ht : t.Sound) (h : Published t version t') : t'.CurrentStored := by
  obtain ⟨p, hp, hpversion, hlists, artists, time, _, _, rfl⟩ := h
  intro c' hc' hcurrent
  obtain ⟨c, hc, rfl⟩ := List.mem_map.mp hc'
  have heq := ht.version_inj c hc p hp ((publish_isCurrent.mp hcurrent).trans hpversion.symm)
  rw [publish_releaseId, heq]
  exact hlists

/-- Publishing the current release again leaves the displaced one where it is. -/
theorem published_displaced (ht : t.Sound) (h : Published t version t')
    (hcurrent : t.current = some version) {other : String} (hother : t.Displaced other) :
    t'.Displaced other := by
  obtain ⟨p, hp, hpversion, _, artists, time, _, _, rfl⟩ := h
  obtain ⟨c, hc, d, hd, hiscurrent, hne, hversion, hpublished, hlists, hlatest⟩ := hother
  obtain ⟨c', hc', hiscurrent', hcversion⟩ := (current_eq_some ht).mp hcurrent
  obtain rfl := ht.current_inj c hc c' hc' hiscurrent hiscurrent'
  have hnot : ∀ r ∈ t.releases, r ≠ c → r.modelVersion ≠ version := by
    intro r hr hrc heq
    exact hrc (ht.version_inj r hr c hc (heq.trans hcversion.symm))
  refine ⟨_, List.mem_map.mpr ⟨c, hc, rfl⟩, _, List.mem_map.mpr ⟨d, hd, rfl⟩,
    publish_isCurrent.mpr hcversion, ?_, publish_modelVersion.trans hversion, ?_, ?_, ?_⟩
  · intro heq
    have hsame := congrArg Release.modelVersion heq
    rw [publish_modelVersion, publish_modelVersion] at hsame
    exact hne (ht.version_inj d hd c hc hsame)
  · rw [publish_of_ne (hnot d hd hne)]
    exact hpublished
  · rw [publish_releaseId]
    exact hlists
  · intro r' hr' hrpublished hrc hrd
    obtain ⟨r, hr, rfl⟩ := List.mem_map.mp hr'
    have hrc : r ≠ c := fun heq => hrc (congrArg _ heq)
    have hrd : r ≠ d := fun heq => hrd (congrArg _ heq)
    rw [publish_of_ne (hnot r hr hrc)] at hrpublished ⊢
    rw [publish_of_ne (hnot d hd hne)]
    exact hlatest r hr hrpublished hrc hrd

/-- Publishing another release displaces the current one. -/
theorem published_displaces (ht : t.Sound) (hstored : t.CurrentStored)
    (h : Published t version t') {other : String} (hcurrent : t.current = some other)
    (hne : other ≠ version) : t'.Displaced other := by
  obtain ⟨p, hp, hpversion, _, artists, time, _, _, rfl⟩ := h
  obtain ⟨c, hc, hiscurrent, hcversion⟩ := (current_eq_some ht).mp hcurrent
  have hcne : c.modelVersion ≠ version := hcversion ▸ hne
  refine ⟨_, List.mem_map.mpr ⟨p, hp, rfl⟩, _, List.mem_map.mpr ⟨c, hc, rfl⟩,
    publish_isCurrent.mpr hpversion, ?_, publish_modelVersion.trans hcversion, ?_, ?_, ?_⟩
  · intro heq
    have hsame := congrArg Release.modelVersion heq
    rw [publish_modelVersion, publish_modelVersion] at hsame
    exact hcne (hsame.trans hpversion)
  · rw [publish_of_ne hcne]
    exact ht.current_published c hc hiscurrent
  · rw [publish_releaseId]
    exact hstored c hc hiscurrent
  · intro r' hr' hrpublished hrp hrc
    obtain ⟨r, hr, rfl⟩ := List.mem_map.mp hr'
    have hrversion : r.modelVersion ≠ version := fun heq =>
      hrp (congrArg _ (ht.version_inj r hr p hp (heq.trans hpversion.symm)))
    have hrc : r ≠ c := fun heq => hrc (congrArg _ heq)
    rw [publish_of_ne hrversion] at hrpublished ⊢
    rw [publish_of_ne hcne]
    exact ht.latest c hc hiscurrent r hr hrpublished hrc

theorem recency_total (r r' : Release) : r.Recency r' ∨ r'.Recency r := by
  unfold Release.Recency
  rcases lt_trichotomy r.publishedAt r'.publishedAt with hlt | heq | hgt
  · exact Or.inr (Or.inl hlt)
  · rcases le_total r.modelVersion r'.modelVersion with hle | hle
    · exact Or.inr (Or.inr ⟨heq, hle⟩)
    · exact Or.inl (Or.inr ⟨heq.symm, hle⟩)
  · exact Or.inl (Or.inl hgt)

theorem recency_trans (r₁ r₂ r₃ : Release) (h₁₂ : r₁.Recency r₂) (h₂₃ : r₂.Recency r₃) :
    r₁.Recency r₃ := by
  rcases h₁₂ with hlt | ⟨heq, hle⟩
  · rcases h₂₃ with hlt' | ⟨heq', _⟩
    · exact Or.inl (hlt'.trans hlt)
    · exact Or.inl (heq' ▸ hlt)
  · rcases h₂₃ with hlt' | ⟨heq', hle'⟩
    · exact Or.inl (heq ▸ hlt')
    · exact Or.inr ⟨heq'.trans heq, hle'.trans hle⟩

instance : Std.Total Release.Recency := ⟨recency_total⟩

instance : IsTrans Release Release.Recency := ⟨recency_trans⟩

/-- The first of the other releases by recency is the displaced one. -/
theorem head_byRecency (ht : t.Sound) (hcurrent : t.current = some version) {other : String}
    (hother : t.Displaced other) :
    (t.byRecency.filter fun v => v ≠ version).head? = some other := by
  obtain ⟨c, hc, d, hd, hiscurrent, hne, rfl, hpublished, _, hlatest⟩ := hother
  obtain ⟨c', hc', hiscurrent', hcversion⟩ := (current_eq_some ht).mp hcurrent
  obtain rfl := ht.current_inj c hc c' hc' hiscurrent hiscurrent'
  unfold ReleaseTables.byRecency
  rw [List.filter_map]
  generalize hsorted : (t.releases.filter fun r => 0 < r.artists).insertionSort Release.Recency =
    sorted
  have hmem : ∀ r, r ∈ sorted ↔ r ∈ t.releases ∧ 0 < r.artists := by
    intro r
    rw [← hsorted, List.mem_insertionSort, List.mem_filter, decide_eq_true_iff]
  have hordered : sorted.Pairwise Release.Recency := by
    rw [← hsorted]
    exact List.pairwise_insertionSort _ _
  have hnot : d.modelVersion ≠ version := fun heq =>
    hne (ht.version_inj d hd c hc (heq.trans hcversion.symm))
  have hkept : d ∈ sorted.filter ((fun v => decide (v ≠ version)) ∘ Release.modelVersion) :=
    List.mem_filter.mpr ⟨(hmem d).mpr ⟨hd, hpublished⟩, decide_eq_true hnot⟩
  have hfiltered := hordered.filter ((fun v => decide (v ≠ version)) ∘ Release.modelVersion)
  cases hlist : sorted.filter ((fun v => decide (v ≠ version)) ∘ Release.modelVersion) with
  | nil =>
    rw [hlist] at hkept
    cases hkept
  | cons first later =>
    rw [hlist] at hkept hfiltered
    have hfirst : first ∈ sorted.filter ((fun v => decide (v ≠ version)) ∘ Release.modelVersion) := by
      rw [hlist]
      exact List.mem_cons_self
    obtain ⟨hfirst, hfirstVersion⟩ := List.mem_filter.mp hfirst
    obtain ⟨hfirst, hfirstPublished⟩ := (hmem first).mp hfirst
    have heq : first = d := by
      by_contra hfd
      have hfc : first ≠ c := fun heq => of_decide_eq_true hfirstVersion (heq ▸ hcversion)
      have hlt := hlatest first hfirst hfirstPublished hfc hfd
      rcases List.mem_cons.mp hkept with hd | hd
      · exact hfd hd.symm
      · have hrecency := (List.pairwise_cons.mp hfiltered).1 d hd
        rcases hrecency with hlt' | ⟨hsame, _⟩
        · exact lt_asymm hlt hlt'
        · exact absurd hlt (hsame ▸ lt_irrefl _)
    rw [List.map_cons, List.head?_cons, heq]

theorem Rotated.displaced {retired : List String} (h : Rotated t t' retired) {other : String}
    (hkept : other ∉ retired) (hother : t.Displaced other) : t'.Displaced other := by
  obtain ⟨c, hc, d, hd, hiscurrent, hne, rfl, hpublished, hlists, hlatest⟩ := hother
  unfold ReleaseTables.Displaced
  rw [h.releases]
  refine ⟨c, hc, d, hd, hiscurrent, hne, rfl, hpublished, ?_, hlatest⟩
  rw [h.lists d hd, if_neg hkept]
  exact hlists

/-- One `publish_and_rotate` that returns: the release is current, and neither its lists nor those
of the release it displaced, now or before, are retired. -/
theorem publishAndRotate_keeps (registry : ReleaseRegistry α) (ht : t.Sound)
    (hstored : t.CurrentStored) {displaced : Option String}
    (hdisplaced : ∀ other, displaced = some other → t.Displaced other) {result : RotateResult}
    (h : publishAndRotate registry t version artists = .ok (t', result)) :
    t'.Sound ∧ t'.current = some version ∧ t'.CurrentStored ∧
      (∀ other, (if t'.current = t.current then displaced else t.current) = some other →
        t'.Displaced other) ∧
      ∃ u, result.published = version ∧ Published t version u ∧ Rotated u t' result.retired := by
  obtain ⟨u, hresult, hpublished, hrotated, hretired, hreplaced, hagain⟩ :=
    publishAndRotate_ok registry ht h
  have hu := published_sound ht hpublished
  have ht' := hrotated.sound hu
  have hcurrentOf : t'.current = u.current := by
    unfold ReleaseTables.current
    rw [hrotated.releases]
  have hcurrent : t'.current = some version := hcurrentOf.trans (published_current ht hpublished)
  refine ⟨ht', hcurrent, ?_, ?_, u, hresult, hpublished, hrotated⟩
  · intro c hc hiscurrent
    rw [hrotated.releases] at hc
    obtain ⟨c', hc', hiscurrent', hversion⟩ := (current_eq_some ht').mp hcurrent
    rw [hrotated.releases] at hc'
    obtain rfl := hu.current_inj c hc c' hc' hiscurrent hiscurrent'
    rw [hrotated.lists c hc, if_neg fun hmem => (hretired _ hmem).1 hversion]
    exact published_currentStored ht hpublished c hc hiscurrent
  · intro other hother
    rw [hcurrent] at hother
    by_cases hsame : t.current = some version
    · rw [if_pos hsame.symm] at hother
      have hbefore := published_displaced ht hpublished hsame (hdisplaced other hother)
      have hkept := hagain hsame
      rw [head_byRecency hu (published_current ht hpublished) hbefore] at hkept
      exact hrotated.displaced (fun hmem => (hretired _ hmem).2 hkept.symm) hbefore
    · rw [if_neg (Ne.symm hsame)] at hother
      have hne : other ≠ version := fun heq => hsame (heq ▸ hother)
      have hbefore := published_displaces ht hstored hpublished hother hne
      have hkept := (hreplaced hsame).trans hother
      exact hrotated.displaced (fun hmem => (hretired _ hmem).2 hkept.symm) hbefore

theorem inj_append {β : Type*} {f : Release → β} {releases : List Release} {r : Release}
    (hinj : ∀ r₁ ∈ releases, ∀ r₂ ∈ releases, f r₁ = f r₂ → r₁ = r₂)
    (hnew : ∀ r' ∈ releases, f r' ≠ f r) :
    ∀ r₁ ∈ releases ++ [r], ∀ r₂ ∈ releases ++ [r], f r₁ = f r₂ → r₁ = r₂ := by
  intro r₁ h₁ r₂ h₂ heq
  rw [List.mem_append, List.mem_singleton] at h₁ h₂
  rcases h₁ with hold₁ | rfl
  · rcases h₂ with hold₂ | rfl
    · exact hinj r₁ hold₁ r₂ hold₂ heq
    · exact absurd heq (hnew r₁ hold₁)
  · rcases h₂ with hold₂ | rfl
    · exact absurd heq.symm (hnew r₂ hold₂)
    · rfl

theorem created_sound (ht : t.Sound) {releaseId : ℤ} (h : Created t version releaseId t') :
    t'.Sound := by
  obtain ⟨r, _, hversion, hid, rfl | ⟨hiscurrent, hartists, hfresh, rfl⟩⟩ := h
  · exact ht
  have hmem : ∀ r' ∈ t.releases ++ [r], r' ∈ t.releases ∨ r' = r := by
    intro r' hr'
    rcases List.mem_append.mp hr' with hr' | hr'
    · exact Or.inl hr'
    · exact Or.inr (List.mem_singleton.mp hr')
  have hnew : ∀ r' ∈ t.releases, r'.modelVersion ≠ r.modelVersion ∧ r'.releaseId ≠ r.releaseId := by
    rw [hversion, hid]
    exact hfresh
  have hpending : ∀ r' ∈ t.releases ++ [r], 0 < r'.artists → r' ∈ t.releases := by
    intro r' hr' hpublished
    rcases hmem r' hr' with hr' | rfl
    · exact hr'
    · omega
  have hcurrent : ∀ r' ∈ t.releases ++ [r], r'.isCurrent = true → r' ∈ t.releases := by
    intro r' hr' hr'current
    rcases hmem r' hr' with hr' | rfl
    · exact hr'
    · rw [hiscurrent] at hr'current
      cases hr'current
  constructor
  · exact inj_append ht.version_inj fun r' hr' => (hnew r' hr').1
  · exact inj_append ht.id_inj fun r' hr' => (hnew r' hr').2
  · intro r₁ h₁ r₂ h₂ hcurrent₁ hcurrent₂
    exact ht.current_inj r₁ (hcurrent r₁ h₁ hcurrent₁) r₂ (hcurrent r₂ h₂ hcurrent₂) hcurrent₁
      hcurrent₂
  · intro r' hr' hr'current
    exact ht.current_published r' (hcurrent r' hr' hr'current) hr'current
  · intro r' hr' hpublished
    exact ht.timed r' (hpending r' hr' hpublished) hpublished
  · intro c hc hccurrent r' hr' hpublished hne
    exact ht.latest c (hcurrent c hc hccurrent) hccurrent r' (hpending r' hr' hpublished) hpublished
      hne
  · intro row hrow
    obtain ⟨owner, howner, heq⟩ := ht.owned row hrow
    exact ⟨owner, List.mem_append_left _ howner, heq⟩

/- The lists of one release are replaced by the rows of a COPY. -/
structure Written (t t' : ReleaseTables α) (spool : Spool α) (version : String)
    (artistIds : List String) (r : Release) : Prop where
  sound : t'.Sound
  version : r.modelVersion = version
  mem : r ∈ t'.releases
  pending : ¬0 < r.artists
  length : artistIds.length = spool.nArtists
  nodup : artistIds.Nodup
  rows : copyRows spool.files spool.nArtists spool.k artistIds r.releaseId =
    some (t'.listsOf r.releaseId)
  created : t'.releases = t.releases ∨ t'.releases = t.releases ++ [r]
  others : ∀ id, id ≠ r.releaseId → t'.listsOf id = t.listsOf id

theorem listsOf_copied {rows : List (CopyRow α)} {releaseId : ℤ}
    (hrows : ∀ row ∈ rows, row.releaseId = releaseId) (id : ℤ) :
    ({ t with lists := (t.lists.filter fun row => row.releaseId ≠ releaseId) ++ rows } :
      ReleaseTables α).listsOf id = if id = releaseId then rows else t.listsOf id := by
  unfold ReleaseTables.listsOf
  rw [List.filter_append, List.filter_filter]
  split_ifs with hid
  · rw [List.filter_eq_self.mpr fun row hrow => decide_eq_true ((hrows row hrow).trans hid.symm)]
    simp [hid]
  · have hnone : rows.filter (fun row => row.releaseId = id) = [] := by
      apply List.filter_eq_nil_iff.mpr
      intro row hrow heq
      exact hid ((of_decide_eq_true heq).symm.trans (hrows row hrow))
    rw [hnone, List.append_nil]
    apply List.filter_congr
    intro row _
    by_cases hrow : row.releaseId = id
    · simp [hrow, hid]
    · simp [hrow]

theorem writeSimilarArtists_ok (registry : ReleaseRegistry α) (ht : t.Sound) {spool : Spool α}
    {artistIds : List String} {dumpId : String} {dumpDate : Date} {count : ℕ}
    (h : writeSimilarArtists registry t spool version artistIds dumpId dumpDate = .ok (t', count)) :
    ∃ r, Written t t' spool version artistIds r ∧ count = artistIds.length := by
  unfold writeSimilarArtists at h
  split at h
  · cases h
  rename_i hlength
  have hlength := not_not.mp hlength
  split at h
  · cases h
  rename_i u releaseId hcreate
  have hcreated := registry.create_spec t version dumpId dumpDate spool.k u releaseId hcreate
  have hu := created_sound ht hcreated
  obtain ⟨r, hr, hversion, rfl, hnew⟩ := hcreated
  split at h
  · cases h
  rename_i found hfound
  split at h
  · cases h
  rename_i hguard
  split at h
  · cases h
  rename_i rows hrows
  split at h
  swap
  · cases h
  rename_i hnodup
  cases h
  have hrowIds := copyRows_releaseId hlength hrows
  have hartists := copyRows_artistIds hlength hrows
  have hpending : ¬0 < r.artists := by
    unfold ReleaseTables.artistsOf at hfound
    obtain ⟨r', hr', rfl⟩ := Option.map_eq_some_iff.mp hfound
    have hsame := hu.id_inj r' (List.mem_of_find?_eq_some hr') r hr
      (of_decide_eq_true (List.find?_some hr' :))
    exact hsame ▸ hguard
  have hlists : u.lists = t.lists := by
    rcases hnew with rfl | ⟨_, _, _, rfl⟩
    · rfl
    · rfl
  refine ⟨r, ⟨?_, hversion, hr, hpending, hlength, hartists ▸ hnodup, ?_, ?_, ?_⟩, ?_⟩
  · refine ⟨hu.version_inj, hu.id_inj, hu.current_inj, hu.current_published, hu.timed, hu.latest, ?_⟩
    intro row hrow
    rcases List.mem_append.mp hrow with hrow | hrow
    · exact hu.owned row (List.mem_filter.mp hrow).1
    · exact ⟨r, hr, (hrowIds row hrow).symm⟩
  · rw [hrows, listsOf_copied hrowIds, if_pos rfl]
  · rcases hnew with rfl | ⟨_, _, _, rfl⟩
    · exact Or.inl rfl
    · exact Or.inr rfl
  · intro id hid
    rw [listsOf_copied hrowIds, if_neg hid]
    unfold ReleaseTables.listsOf
    rw [hlists]
  · rw [← hartists, List.length_map]

end

/-! ### A registry in memory -/

def ReleaseTables.nextId (t : ReleaseTables α) : ℤ :=
  t.releases.foldr (fun r id => max (r.releaseId + 1) id) 0

def ReleaseTables.nextTime (t : ReleaseTables α) : ℕ :=
  t.releases.foldr (fun r time => max (r.publishedAt.untopD 0 + 1) time) 0

theorem lt_nextId {t : ReleaseTables α} {r : Release} (hr : r ∈ t.releases) :
    r.releaseId < t.nextId := by
  unfold ReleaseTables.nextId
  obtain ⟨releases, _⟩ := t
  simp only at hr ⊢
  induction releases with
  | nil => cases hr
  | cons first later ih =>
    rw [List.foldr_cons]
    rcases List.mem_cons.mp hr with rfl | hr
    · omega
    · have := ih hr
      omega

theorem lt_nextTime {t : ReleaseTables α} {r : Release} (hr : r ∈ t.releases)
    (htime : r.publishedAt ≠ ⊤) : r.publishedAt < (t.nextTime : WithTop ℕ) := by
  obtain ⟨time, htime⟩ := WithTop.ne_top_iff_exists.mp htime
  have hlt : time < t.nextTime := by
    unfold ReleaseTables.nextTime
    obtain ⟨releases, _⟩ := t
    simp only at hr ⊢
    induction releases with
    | nil => cases hr
    | cons first later ih =>
      rw [List.foldr_cons]
      rcases List.mem_cons.mp hr with rfl | hr
      · rw [← htime, WithTop.untopD_coe]
        omega
      · have := ih hr
        omega
  rw [← htime]
  exact WithTop.coe_lt_coe.mpr hlt

def memoryRegistry : ReleaseRegistry α where
  create t version dumpId dumpDate k :=
    match t.releases.find? fun r => r.modelVersion = version with
    | some r =>
      if r.k = k ∧ r.sourceDumpId = dumpId ∧ r.sourceDumpDate = dumpDate then (t, some r.releaseId)
      else (t, none)
    | none =>
      ({ t with releases := t.releases ++ [⟨t.nextId, version, false, 0, ⊤, k, dumpId, dumpDate⟩] },
        some t.nextId)
  publish t version artists :=
    match t.releases.find? fun r => r.modelVersion = version with
    | none => (t, 1)
    | some r =>
      if 0 < artists ∧ (t.listsOf r.releaseId).isEmpty = false then
        ({ t with releases := t.releases.map (Release.publish version artists t.nextTime) }, 0)
      else (t, 1)
  retire t version := (t.withoutLists version, 0)
  create_spec t version dumpId dumpDate k t' releaseId h := by
    split at h
    · rename_i r hr
      split at h
      · cases h
        exact ⟨r, List.mem_of_find?_eq_some hr, of_decide_eq_true (List.find?_some hr :), rfl,
          Or.inl rfl⟩
      · cases h
    · rename_i hnone
      cases h
      refine ⟨_, List.mem_append_right _ (List.mem_singleton_self _), rfl, rfl,
        Or.inr ⟨rfl, rfl, ?_, rfl⟩⟩
      intro other hother
      refine ⟨fun heq => List.find?_eq_none.mp hnone other hother (decide_eq_true heq), ?_⟩
      exact (lt_nextId hother).ne
  publish_spec t version artists t' h := by
    split at h
    · cases h
    · rename_i r hr
      split at h
      · rename_i hpublish
        cases h
        refine ⟨r, List.mem_of_find?_eq_some hr, of_decide_eq_true (List.find?_some hr :), ?_,
          artists, t.nextTime, hpublish.1, fun other hother htime => lt_nextTime hother htime, rfl⟩
        intro hempty
        rw [hempty] at hpublish
        cases hpublish.2
      · cases h
  retire_spec t version := Or.inl rfl

end AnalyticsEngine.SimilarArtists
