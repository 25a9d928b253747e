import AnalyticsEngine.StyleAtlas.Placement

/-!
# A month laid out again

A layout's own sectors keep their frames whether the layout kept or resized them
(`keepsFrames_again`), and the pinned ring of its ring is that ring, so a second run of the month
changes nothing.
-/

namespace AnalyticsEngine.StyleAtlas
open Library

variable {K : Type*} [Field K] [LinearOrder K]

/-- Sector lists that come from `build_layout`, the first of them from nothing. -/
inductive Built (circle : Circle K) : List (Sector K) → Prop
  | fresh : Built circle []
  | next {pinned : List (Sector K)} (month : Month K) {layout : AtlasLayout K} :
      Built circle pinned → buildLayout circle month pinned = .ok layout →
        Built circle layout.sectors

section
variable {circle : Circle K} {month : Month K} {pinned : List (Sector K)} {layout : AtlasLayout K}

theorem buildLayout_tiled [IsStrictOrderedRing K] (hpinned : Tiled circle pinned)
    (h : buildLayout circle month pinned = .ok layout) : Tiled circle layout.sectors := by
  unfold buildLayout at h
  split at h
  · cases h
  · rename_i ring hring
    cases h
    exact (sectorFrames_spec (monthRing_genres hpinned.nodup hring).1 _ hpinned).1

theorem Built.tiled [IsStrictOrderedRing K] (h : Built circle pinned) : Tiled circle pinned := by
  induction h with
  | fresh => exact tiled_nil
  | next month _ hlayout ih => exact buildLayout_tiled ih hlayout

omit [LinearOrder K] in
/-- Sectors that follow each other span their widths. -/
theorem contiguous_span {s : Sector K} {sectors : List (Sector K)}
    (h : ∀ p ∈ pairwise (s :: sectors), p.1.stop = p.2.start) :
    ((s :: sectors).getLast (List.cons_ne_nil _ _)).stop - s.start =
      ((s :: sectors).map Sector.width).sum := by
  induction sectors generalizing s with
  | nil =>
    simp only [List.getLast_singleton, List.map_singleton, List.sum_singleton]
    rfl
  | cons t sectors ih =>
    rw [pairwise_cons_cons] at h
    have hlater := ih fun p hp => h p (List.mem_cons_of_mem _ hp)
    have hnext : s.stop = t.start := h (s, t) List.mem_cons_self
    rw [List.getLast_cons (List.cons_ne_nil _ _), List.map_cons, List.sum_cons, ← hlater]
    unfold Sector.width
    rw [hnext]
    ring

theorem Tiled.isContiguousRing [IsStrictOrderedRing K] (h : Tiled circle pinned)
    (hne : pinned ≠ []) : isContiguousRing circle (pinned.map Sector.genre) pinned := by
  have hepsilon : (0 : K) ≤ contiguityEpsilon := by
    unfold contiguityEpsilon
    positivity
  refine ⟨?_, ?_⟩
  · intro p hp
    rw [h.pinned_contiguous hp, sub_self, abs_zero]
    exact not_lt.mpr hepsilon
  · cases pinned with
    | nil => exact absurd rfl hne
    | cons s sectors =>
      have hlast : ((s :: sectors).map Sector.genre).getLastD "" =
          ((s :: sectors).getLast (List.cons_ne_nil _ _)).genre := by
        rw [List.getLastD_eq_getLast?, List.getLast?_map, List.getLast?_eq_some_getLast
          (List.cons_ne_nil _ _)]
        rfl
      have hspan := contiguous_span h.contiguous
      rw [h.closed hne] at hspan
      rw [hlast, h.pinnedStop_eq (List.getLast_mem _), List.map_cons, List.headD_cons,
        h.pinnedStart_eq List.mem_cons_self, hspan, sub_self, abs_zero]
      exact hepsilon

variable [IsStrictOrderedRing K] {ring : List String} (members : String → ℕ)

/-- The sectors of a ring keep their frames when the ring comes again. -/
theorem keepsFrames_again (htau : 0 < circle.tau) (hring : ring.Nodup)
    (hpinned : Tiled circle pinned) (hne : ring ≠ []) :
    keepsFrames circle ring members
      (ringSectors circle ring (sectorFrames circle ring members pinned).1) := by
  have htiled := (sectorFrames_spec hring members hpinned).1
  have hgenres := ringSectors_genre circle ring (sectorFrames circle ring members pinned).1
  have hsectors : ringSectors circle ring (sectorFrames circle ring members pinned).1 ≠ [] := by
    intro hnil
    rw [hnil] at hgenres
    exact hne hgenres.symm
  have hring' := htiled.isContiguousRing hsectors
  have horder := htiled.pinnedRingOrder_eq
  rw [hgenres] at hring' horder
  refine ⟨hne, horder, hring', ?_⟩
  intro genre hgenre
  rw [← hgenres] at hgenre
  obtain ⟨s, hs, rfl⟩ := List.mem_map.mp hgenre
  obtain ⟨hstart, hstop⟩ := mem_ringSectors hs
  rw [hgenres] at hgenre
  rw [htiled.pinnedStart_eq hs, htiled.pinnedStop_eq hs, hstart, hstop]
  exact sectorFrames_near htau members hring pinned hgenre

omit [IsStrictOrderedRing K] in
theorem sectorFrames_kept (hkeep : keepsFrames circle ring members pinned) :
    (sectorFrames circle ring members pinned).1 = fun genre =>
      (pinnedStart pinned genre, pinnedStop pinned genre) := by
  unfold sectorFrames
  rw [if_pos hkeep]

theorem sectorFrames_again (htau : 0 < circle.tau) (hring : ring.Nodup)
    (hpinned : Tiled circle pinned) {genre : String} (hgenre : genre ∈ ring) :
    (sectorFrames circle ring members
      (ringSectors circle ring (sectorFrames circle ring members pinned).1)).1 genre =
        (sectorFrames circle ring members pinned).1 genre := by
  have htiled := (sectorFrames_spec hring members hpinned).1
  have hkeep := keepsFrames_again members htau hring hpinned (List.ne_nil_of_mem hgenre)
  rw [sectorFrames_kept members hkeep]
  rw [← ringSectors_genre circle ring (sectorFrames circle ring members pinned).1] at hgenre
  obtain ⟨s, hs, rfl⟩ := List.mem_map.mp hgenre
  obtain ⟨hstart, hstop⟩ := mem_ringSectors hs
  simp only
  rw [htiled.pinnedStart_eq hs, htiled.pinnedStop_eq hs, hstart, hstop]

/-! ### The ring again -/

omit [IsStrictOrderedRing K] in
theorem pinnedRing_again {genres : List String} (weight : ℕ → ℕ → K)
    (hgenres : ∀ genre, genre ∈ ring ↔ genre ∈ genres) : pinnedRing ring genres weight = ring := by
  have hkept : ring.filter (fun genre => genre ∈ genres) = ring := by
    rw [List.filter_eq_self]
    intro genre hgenre
    exact decide_eq_true ((hgenres genre).mp hgenre)
  have hnews : genres.toFinset \ ring.toFinset = ∅ := by
    rw [Finset.sdiff_eq_empty_iff_subset]
    intro genre hgenre
    rw [List.mem_toFinset] at hgenre ⊢
    exact (hgenres genre).mpr hgenre
  unfold pinnedRing
  simp only
  rw [hkept, hnews, Finset.sort_empty]
  rfl

omit [IsStrictOrderedRing K] in
theorem monthRing_again {sectors : List (Sector K)} (hnames : sectors.map Sector.genre = ring)
    (htiled : Tiled circle sectors) (hgenres : ∀ genre, genre ∈ ring ↔ genre ∈ month.genres) :
    monthRing month sectors = .ok ring := by
  unfold monthRing
  simp only
  by_cases hfresh : sectors = []
  · rw [hfresh] at hnames
    have hnone : month.genres = [] := by
      rw [List.eq_nil_iff_forall_not_mem]
      intro genre hgenre
      have hring := (hgenres genre).mpr hgenre
      rw [← hnames] at hring
      cases hring
    rw [if_neg (not_not_intro hfresh), hnone, ← hnames]
    rfl
  · rw [if_pos hfresh, htiled.pinnedRingOrder_eq, hnames, pinnedRing_again _ hgenres]

omit [IsStrictOrderedRing K] in
theorem ringSectors_congr {frames frames' : String → K × K}
    (h : ∀ genre ∈ ring, frames' genre = frames genre) :
    ringSectors circle ring frames' = ringSectors circle ring frames := by
  unfold ringSectors
  apply List.map_congr_left
  intro p hp
  have hgenre : p.1 ∈ ring := List.fst_mem_of_mem_zipIdx hp
  simp only [h p.1 hgenre]

omit [IsStrictOrderedRing K] in
theorem sectorNodes_congr {frames frames' : String → K × K} {genre : String}
    (h : frames' genre = frames genre) :
    sectorNodes circle month ring frames' genre = sectorNodes circle month ring frames genre := by
  unfold sectorNodes
  rw [h]

theorem buildLayout_again (htau : 0 < circle.tau) (hpinned : Tiled circle pinned)
    (h : buildLayout circle month pinned = .ok layout) :
    ∃ again, buildLayout circle month layout.sectors = .ok again ∧
      again.sectors = layout.sectors ∧ again.nodes = layout.nodes := by
  have htiled := buildLayout_tiled hpinned h
  unfold buildLayout at h
  split at h
  · cases h
  · rename_i ring hring
    cases h
    obtain ⟨hnodup, hgenres⟩ := monthRing_genres hpinned.nodup hring
    generalize hmembers : (fun genre => ((entriesOf month.parents).map Entry.host).count genre) =
      members at htiled ⊢
    have hagain := fun genre (hgenre : genre ∈ ring) =>
      sectorFrames_again members htau hnodup hpinned hgenre
    have hnames := ringSectors_genre circle ring (sectorFrames circle ring members pinned).1
    have hring' := monthRing_again hnames htiled hgenres
    refine ⟨_, by unfold buildLayout; rw [hring'], ?_, ?_⟩
    · simp only [hmembers]
      exact ringSectors_congr hagain
    · simp only [hmembers]
      congr 1
      apply List.flatMap_congr
      intro genre hgenre
      exact sectorNodes_congr (hagain genre hgenre)

theorem runMonths_again (htau : 0 < circle.tau) (hpinned : Tiled circle pinned)
    (h : buildLayout circle month pinned = .ok layout) (n : ℕ) :
    ∃ layouts, runMonths circle layout.sectors (List.replicate n month) = .ok layouts ∧
      layouts.length = n ∧
      ∀ again ∈ layouts, again.sectors = layout.sectors ∧ again.nodes = layout.nodes := by
  induction n generalizing pinned layout with
  | zero => exact ⟨[], rfl, rfl, fun _ hagain => absurd hagain List.not_mem_nil⟩
  | succ n ih =>
    obtain ⟨again, hagain, hsectors, hnodes⟩ := buildLayout_again htau hpinned h
    obtain ⟨layouts, hlayouts, hlength, hall⟩ := ih (buildLayout_tiled hpinned h) hagain
    refine ⟨again :: layouts, ?_, by rw [List.length_cons, hlength], ?_⟩
    · rw [List.replicate_succ]
      unfold runMonths
      rw [hagain]
      simp only
      rw [hlayouts]
    · intro later hlater
      rcases List.mem_cons.mp hlater with rfl | hlater
      · exact ⟨hsectors, hnodes⟩
      · obtain ⟨hsectors', hnodes'⟩ := hall later hlater
        exact ⟨hsectors'.trans hsectors, hnodes'.trans hnodes⟩

end

/-- A month pinned to its own layout is that layout, however often it is laid out. -/
theorem buildLayout_fixed {pinned : List (Sector ℝ)} (hpinned : Built realCircle pinned)
    {month : Month ℝ} {layout : AtlasLayout ℝ} (h : buildLayout realCircle month pinned = .ok layout)
    (n : ℕ) :
    ∃ layouts, runMonths realCircle layout.sectors (List.replicate n month) = .ok layouts ∧
      layouts.length = n ∧
      ∀ again ∈ layouts, again.sectors = layout.sectors ∧ again.nodes = layout.nodes :=
  runMonths_again Real.two_pi_pos hpinned.tiled h n

/- Two months, the second with a new genre and without an old one, and then again. -/
theorem buildLayout_fixed_insertion : ∃ first second,
    buildLayout realCircle (monthOf [("Punk", "Rock"), ("Bop", "Folk")]) [] = .ok first ∧
    buildLayout realCircle (monthOf [("Punk", "Rock"), ("Swing", "Jazz")]) first.sectors =
      .ok second ∧
    ∃ layouts, runMonths realCircle second.sectors
        (List.replicate 3 (monthOf [("Punk", "Rock"), ("Swing", "Jazz")])) = .ok layouts ∧
      layouts.length = 3 ∧
      ∀ again ∈ layouts, again.sectors = second.sectors ∧ again.nodes = second.nodes := by
  have hfew : ∀ pairs : List (String × String), pairs.length ≤ 2 →
      (monthOf pairs).genres.length ≤ ringExactMaxGenres := by
    intro pairs hpairs
    rw [length_genres_monthOf]
    have hcard := List.toFinset_card_le (pairs.map Prod.snd)
    rw [List.length_map] at hcard
    unfold ringExactMaxGenres
    omega
  have hnil : Tiled realCircle [] := tiled_nil
  obtain ⟨first, hfirst, htiled, -⟩ := buildLayout_spec hnil
    fun _ => hfew [("Punk", "Rock"), ("Bop", "Folk")] (by simp)
  obtain ⟨second, hsecond, -, -⟩ := buildLayout_spec htiled
    fun _ => hfew [("Punk", "Rock"), ("Swing", "Jazz")] (by simp)
  exact ⟨first, second, hfirst, hsecond, buildLayout_fixed (Built.fresh.next _ hfirst) hsecond 3⟩

end AnalyticsEngine.StyleAtlas
