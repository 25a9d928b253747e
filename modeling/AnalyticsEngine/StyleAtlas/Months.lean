import AnalyticsEngine.StyleAtlas.Layout
import Mathlib.Analysis.SpecialFunctions.Trigonometric.Basic

/-!
# The ring over the months

Each month is pinned to the sectors of the month before it. A month's sectors tile the circle and
that is all the next month needs of them (`buildLayout_spec`), so every month of a history holds
the survivors in place (`runMonths_stable`).
-/

namespace AnalyticsEngine.StyleAtlas
open Library

section
variable {K : Type*} [Field K] [LinearOrder K]

/-- The layouts of a history, each month pinned to the sectors before it. -/
def runMonths (circle : Circle K) (pinned : List (Sector K)) :
    List (Month K) → Except AtlasError (List (AtlasLayout K))
  | [] => .ok []
  | month :: later =>
    match buildLayout circle month pinned with
    | .error e => .error e
    | .ok layout =>
      match runMonths circle layout.sectors later with
      | .error e => .error e
      | .ok layouts => .ok (layout :: layouts)

/-- The sectors that pinned the layout at an index. -/
def pinnedAt (layouts : List (AtlasLayout K)) : ℕ → List (Sector K)
  | 0 => []
  | k + 1 => (layouts[k]?.map AtlasLayout.sectors).getD []

/- A month that starts a ring, the first (`fresh`) or one after a month with no genres, has few
enough genres for the exact ring. -/
def RingsFit (fresh : Prop) : List (Month K) → Prop
  | [] => True
  | month :: later =>
    (fresh → month.genres.length ≤ ringExactMaxGenres) ∧ RingsFit (month.genres = []) later

/-- What a month keeps of the sectors before it. -/
structure Stable (circle : Circle K) (month : Month K) (pinned sectors : List (Sector K)) : Prop where
  order : sectors.map Sector.ringOrder = List.range sectors.length
  nodup : (sectors.map Sector.genre).Nodup
  genres : ∀ genre, genre ∈ sectors.map Sector.genre ↔
    (∃ e ∈ month.shares.entries, genre ∈ e.2.keys) ∨ ∃ row ∈ month.parents, row.genre = genre
  survivors : (sectors.map Sector.genre).filter (fun genre => genre ∈ pinned.map Sector.genre) =
    (pinned.map Sector.genre).filter fun genre => genre ∈ sectors.map Sector.genre
  contiguous : ∀ p ∈ pairwise sectors, p.1.stop = p.2.start
  closed : sectors ≠ [] → (sectors.map Sector.width).sum = circle.tau
  first : ∀ s ∈ pinned, s.genre ∈ sectors.map Sector.genre →
    ∃ t ∈ sectors.head?, ∃ u ∈ pinned, u.genre = t.genre ∧ u.start = t.start

theorem mem_genres {L : Type*} {month : Month L} {genre : String} : genre ∈ month.genres ↔
    (∃ e ∈ month.shares.entries, genre ∈ e.2.keys) ∨ ∃ row ∈ month.parents, row.genre = genre := by
  unfold Month.genres entriesOf
  rw [Finset.mem_sort, List.mem_toFinset, List.mem_append, List.mem_flatMap, List.map_map,
    List.mem_map]
  rfl

theorem nodup_genres {L : Type*} (month : Month L) : month.genres.Nodup := Finset.sort_nodup _ _

/-- The ring of a month holds its genres once, the survivors in their order and first. -/
theorem monthRing_spec {circle : Circle K} {month : Month K} {pinned : List (Sector K)}
    (hpinned : Tiled circle pinned)
    (hfit : pinned = [] → month.genres.length ≤ ringExactMaxGenres) :
    ∃ ring, monthRing month pinned = .ok ring ∧ ring.Nodup ∧
      (∀ genre, genre ∈ ring ↔ genre ∈ month.genres) ∧
      ring.filter (fun genre => genre ∈ pinned.map Sector.genre) =
        (pinned.map Sector.genre).filter (fun genre => genre ∈ ring) ∧
      ∀ s ∈ pinned, s.genre ∈ ring → ∃ t ∈ pinned, ring.head? = some t.genre := by
  unfold monthRing
  simp only
  by_cases hfresh : pinned = []
  · subst hfresh
    obtain ⟨order, horder⟩ := ringOrder_ok (genreAffinity month.genres month.shares) (hfit rfl)
    have hperm : (order.map fun j => month.genres.getD j "").Perm month.genres := by
      conv_rhs => rw [← map_getD_range month.genres ""]
      exact (ringOrder_perm horder).map _
    rw [if_neg (by simp), horder]
    refine ⟨_, rfl, hperm.nodup_iff.mpr (nodup_genres month), fun genre => hperm.mem_iff, ?_, ?_⟩
    · simp
    · exact fun _ hs => absurd hs List.not_mem_nil
  · obtain ⟨hnodup, hmem, hfilter, hhead⟩ := pinnedRing_spec month.genres
      (genreAffinity month.genres month.shares) hpinned.nodup
    rw [if_pos hfresh, hpinned.pinnedRingOrder_eq]
    refine ⟨_, rfl, hnodup, hmem, ?_, ?_⟩
    · rw [hfilter]
      apply List.filter_congr
      intro genre _
      rw [decide_eq_decide, hmem]
    · intro s hs hsurvives
      have hne : (pinned.map Sector.genre).filter (fun genre => genre ∈ month.genres) ≠ [] := by
        apply List.ne_nil_of_mem (a := s.genre)
        rw [List.mem_filter, decide_eq_true_iff]
        exact ⟨List.mem_map.mpr ⟨s, hs, rfl⟩, (hmem _).mp hsurvives⟩
      rw [hhead hne]
      obtain ⟨genre, rest, hcons⟩ := List.exists_cons_of_ne_nil hne
      have hgenre : genre ∈ (pinned.map Sector.genre).filter fun genre => genre ∈ month.genres := by
        rw [hcons]
        exact List.mem_cons_self
      obtain ⟨t, ht, rfl⟩ := List.mem_map.mp (List.mem_filter.mp hgenre).1
      exact ⟨t, ht, by rw [hcons]; rfl⟩

/-- One month: its sectors tile the circle again and are stable. -/
theorem buildLayout_spec [IsStrictOrderedRing K] {circle : Circle K} {month : Month K}
    {pinned : List (Sector K)} (hpinned : Tiled circle pinned)
    (hfit : pinned = [] → month.genres.length ≤ ringExactMaxGenres) :
    ∃ layout, buildLayout circle month pinned = .ok layout ∧ Tiled circle layout.sectors ∧
      Stable circle month pinned layout.sectors := by
  obtain ⟨ring, hring, hnodup, hmem, hsurvivors, hfirst⟩ := monthRing_spec hpinned hfit
  obtain ⟨htiled, hstart⟩ := sectorFrames_spec hnodup
    (fun genre => ((entriesOf month.parents).map Entry.host).count genre) hpinned
  unfold buildLayout
  rw [hring]
  refine ⟨_, rfl, htiled, ?_⟩
  have hgenres := ringSectors_genre circle ring
    (sectorFrames circle ring
      (fun genre => ((entriesOf month.parents).map Entry.host).count genre) pinned).1
  refine ⟨htiled.order, htiled.nodup, ?_, ?_, htiled.contiguous, htiled.closed, ?_⟩
  · intro genre
    simp only
    rw [hgenres, hmem, mem_genres]
  · simp only
    rw [hgenres]
    exact hsurvivors
  · intro s hs hsurvives
    simp only at hsurvives ⊢
    rw [hgenres] at hsurvives
    obtain ⟨u, hu, hhead⟩ := hfirst s hs hsurvives
    cases ring with
    | nil => cases hhead
    | cons genre rest =>
      obtain rfl : genre = u.genre := Option.some.inj hhead
      exact ⟨_, rfl, u, hu, rfl, (hstart u hu rfl).symm⟩

theorem runMonths_from [IsStrictOrderedRing K] (circle : Circle K) {months : List (Month K)}
    {pinned : List (Sector K)} (hpinned : Tiled circle pinned) (hfit : RingsFit (pinned = []) months) :
    ∃ layouts, runMonths circle pinned months = .ok layouts ∧ layouts.length = months.length ∧
      ∀ k month layout, months[k]? = some month → layouts[k]? = some layout →
        Stable circle month (if k = 0 then pinned else pinnedAt layouts k) layout.sectors := by
  induction months generalizing pinned with
  | nil => exact ⟨[], rfl, rfl, fun _ _ _ h => by cases h⟩
  | cons month later ih =>
    obtain ⟨hfirst, hlater⟩ := hfit
    obtain ⟨layout, hlayout, htiled, hstable⟩ := buildLayout_spec hpinned hfirst
    -- the next month starts a ring of its own exactly when this one left no sector
    have hempty : (month.genres = []) = (layout.sectors = []) := by
      rw [← List.map_eq_nil_iff (f := Sector.genre), List.eq_nil_iff_forall_not_mem,
        List.eq_nil_iff_forall_not_mem]
      simp only [mem_genres, hstable.genres]
    rw [hempty] at hlater
    obtain ⟨layouts, hlayouts, hlength, hall⟩ := ih htiled hlater
    refine ⟨layout :: layouts, ?_, by rw [List.length_cons, List.length_cons, hlength], ?_⟩
    · unfold runMonths
      rw [hlayout]
      simp only
      rw [hlayouts]
    · intro k m l hm hl
      cases k with
      | zero =>
        cases hm
        cases hl
        exact hstable
      | succ k =>
        have hk := hall k m l hm hl
        cases k with
        | zero => exact hk
        | succ k => exact hk

theorem runMonths_stable [IsStrictOrderedRing K] (circle : Circle K) (months : List (Month K))
    (hfit : RingsFit True months) :
    ∃ layouts, runMonths circle [] months = .ok layouts ∧ layouts.length = months.length ∧
      ∀ k month layout, months[k]? = some month → layouts[k]? = some layout →
        Stable circle month (pinnedAt layouts k) layout.sectors := by
  have hfit' : RingsFit (([] : List (Sector K)) = []) months := by
    rw [eq_self_iff_true]
    exact hfit
  obtain ⟨layouts, hlayouts, hlength, hall⟩ := runMonths_from circle tiled_nil hfit'
  refine ⟨layouts, hlayouts, hlength, ?_⟩
  intro k month layout hmonth hlayout
  have hk := hall k month layout hmonth hlayout
  cases k with
  | zero => exact hk
  | succ k => exact hk

end

/-! ### The reals -/

noncomputable def realCircle : Circle ℝ where
  tau := 2 * Real.pi
  sqrt := Real.sqrt
  cos := Real.cos
  sin := Real.sin
  sqrt_pos n := Real.sqrt_pos.mpr (by positivity)

/- A month whose parents are the given styles and genres, each style fully in its genre. -/
def monthOf (pairs : List (String × String)) : Month ℝ where
  shares := ∅
  parents := pairs.map fun p => ⟨p.1, p.2, 1, true⟩
  emergence _ := none

theorem length_genres_monthOf (pairs : List (String × String)) :
    (monthOf pairs).genres.length = (pairs.map Prod.snd).toFinset.card := by
  unfold Month.genres
  rw [Finset.length_sort]
  congr 1
  ext genre
  simp [monthOf, entriesOf]

/- `Blues` vanishes, `Jazz` appears and `Rock` stays. -/
def threeMonths : List (Month ℝ) :=
  [monthOf [("Delta Blues", "Blues"), ("Punk", "Rock"), ("Bop", "Folk")],
    monthOf [("Punk", "Rock"), ("Bop", "Jazz"), ("Swing", "Jazz")],
    monthOf [("Punk", "Rock"), ("Bop", "Jazz"), ("Delta Blues", "Blues")]]

theorem runMonths_stable_threeMonths : ∃ layouts, runMonths realCircle [] threeMonths = .ok layouts ∧
    ∃ layout, layouts[2]? = some layout ∧
      (layout.sectors.map Sector.width).sum = 2 * Real.pi := by
  have hfit : RingsFit True threeMonths := by
    unfold threeMonths RingsFit RingsFit RingsFit RingsFit
    simp only [length_genres_monthOf]
    refine ⟨fun _ => ?_, fun _ => ?_, fun _ => ?_, trivial⟩ <;> decide
  obtain ⟨layouts, hrun, hlength, hstable⟩ := runMonths_stable realCircle threeMonths hfit
  have hthree : layouts.length = 3 := hlength
  have hlast := hstable 2 _ layouts[2] rfl (List.getElem?_eq_getElem (by omega))
  have hrock : "Rock" ∈ layouts[2].sectors.map Sector.genre :=
    (hlast.genres "Rock").mpr (Or.inr ⟨_, List.mem_cons_self, rfl⟩)
  refine ⟨layouts, hrun, layouts[2], List.getElem?_eq_getElem (by omega), hlast.closed ?_⟩
  intro hnone
  rw [hnone] at hrock
  cases hrock

/-- A month with no genres has no width at all, and twenty-one genres are too many to start a
ring with. -/
theorem runMonths_exceptions :
    (∃ layout : AtlasLayout ℝ, runMonths realCircle [] [monthOf []] = .ok [layout] ∧
      (layout.sectors.map Sector.width).sum ≠ 2 * Real.pi) ∧
    runMonths realCircle [] [monthOf ((List.range 21).map fun i => (Nat.repr i, Nat.repr i))] =
      .error (.exactRing 21) := by
  constructor
  · have hgenres : (monthOf []).genres = [] := by
      rw [← List.length_eq_zero_iff, length_genres_monthOf]
      rfl
    refine ⟨⟨[], [], false, false⟩, ?_, ?_⟩
    · unfold runMonths buildLayout monthRing
      simp [hgenres, ringOrder, ringExactMaxGenres, ringSectors, sectorFrames, keepsFrames, runMonths]
    · simp [Real.pi_ne_zero]
  · have hmany : (monthOf ((List.range 21).map fun i => (Nat.repr i, Nat.repr i))).genres.length =
        21 := by
      rw [length_genres_monthOf]
      decide
    unfold runMonths buildLayout monthRing
    simp [hmany, ringOrder, ringExactMaxGenres]

end AnalyticsEngine.StyleAtlas
