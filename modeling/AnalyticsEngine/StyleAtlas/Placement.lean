import AnalyticsEngine.Library.Ranking
import AnalyticsEngine.StyleAtlas.Agreement

/-!
# What a layout draws, and where

A node's angle and radius are slots of two rankings of its sector's styles, and a sector has a
width whatever pinned it (`sectorFrames_width`). A share list reaches the layout through its
shares alone (`shareMonth_perm`), so the order of its rows is nowhere in it.
-/

namespace AnalyticsEngine.StyleAtlas
open Library

variable {K : Type*} [Field K] [LinearOrder K]

/-! ### Slots -/

section Slots
variable {α : Type*} [LinearOrder α]

/-- The middle of a key's slot among distinct keys. -/
def slot (keys : List α) (key : α) : K :=
  ((sortedIndices keys).idxOf (keys.idxOf key) + 1 / 2) / keys.length

omit [LinearOrder K] in
theorem ranks_eq {keys : List α} (hkeys : keys.Nodup) :
    (ranks keys : List K) = keys.map (slot keys) := by
  apply List.ext_getElem
  · rw [ranks_length, List.length_map]
  · intro i hi hi'
    rw [List.length_map] at hi'
    have hplace : keys.idxOf keys[i] = i := hkeys.idxOf_getElem i hi'
    rw [List.getElem_map]
    unfold slot
    rw [hplace]
    simp only [ranks, sortedIndices, List.getElem_map, List.getElem_range]

variable [IsStrictOrderedRing K] {keys : List α} {key key' : α}

theorem slot_pos (hkey : key ∈ keys) : (0 : K) < slot keys key := by
  have hlength : (0 : K) < keys.length := Nat.cast_pos.mpr (List.length_pos_of_mem hkey)
  unfold slot
  positivity

theorem slot_lt_one (hkey : key ∈ keys) : (slot keys key : K) < 1 := by
  have hlength : (0 : K) < keys.length := Nat.cast_pos.mpr (List.length_pos_of_mem hkey)
  have hplace := idxOf_sortedIndices_lt (List.idxOf_lt_length_iff.mpr hkey)
  have hle : ((sortedIndices keys).idxOf (keys.idxOf key) : K) + 1 ≤ keys.length := by
    exact_mod_cast hplace
  unfold slot
  rw [div_lt_one hlength]
  linarith

theorem slot_lt_iff (hkeys : keys.Nodup) (hkey : key ∈ keys) (hkey' : key' ∈ keys) :
    (slot keys key : K) < slot keys key' ↔ key < key' := by
  have hlength : (0 : K) < keys.length := Nat.cast_pos.mpr (List.length_pos_of_mem hkey)
  have hplaces := idxOf_sortedIndices_lt_iff hkeys (List.idxOf_lt_length_iff.mpr hkey)
    (List.idxOf_lt_length_iff.mpr hkey')
  rw [List.getElem_idxOf, List.getElem_idxOf] at hplaces
  unfold slot
  rw [div_lt_div_iff_of_pos_right hlength, add_lt_add_iff_right, Nat.cast_lt, hplaces]

end Slots

/-! ### The nodes of a sector -/

def followingGenre (ring : List String) (genre : String) : String :=
  ring.getD ((ring.idxOf genre + 1) % ring.length) ""

def precedingGenre (ring : List String) (genre : String) : String :=
  ring.getD ((ring.idxOf genre + ring.length - 1) % ring.length) ""

section
variable (circle : Circle K) (month : Month K) (ring : List String) (frames : String → K × K)
  (genre style : String)

def hostedStyles : List String :=
  ((entriesOf month.parents).filter fun e => e.host = genre).map Entry.style

def leanKey : K ×ₗ String :=
  toLex (shareOf month.shares style (followingGenre ring genre) -
    shareOf month.shares style (precedingGenre ring genre), style)

def ageKey : WithTop ℤ ×ₗ String := toLex (emergenceKey (month.emergence style), style)

def nodeAngle : K :=
  (frames genre).1 + ((frames genre).2 - (frames genre).1) *
    (sectorAngleMargin + (1 - 2 * sectorAngleMargin) *
      slot ((hostedStyles month genre).map (leanKey month ring genre)) (leanKey month ring genre style))

def nodeRadius : K :=
  styleRadiusMin + styleRadiusSpan *
    slot ((hostedStyles month genre).map (ageKey month)) (ageKey month style)

omit [Field K] [LinearOrder K] in
theorem zip_map_self {α β : Type*} (l : List α) (f : α → β) :
    l.zip (l.map f) = l.map fun a => (a, f a) := by
  have hzip := List.zip_map' (l := l) (f := id) (g := f)
  rw [List.map_id] at hzip
  exact hzip

variable {month genre}

omit [LinearOrder K] in
theorem leanKey_nodup (hstyles : (hostedStyles month genre).Nodup) :
    ((hostedStyles month genre).map (leanKey month ring genre)).Nodup :=
  hstyles.map fun _ _ hst => congrArg (fun key => (ofLex key).2) hst

omit [Field K] [LinearOrder K] in
theorem ageKey_nodup (hstyles : (hostedStyles month genre).Nodup) :
    ((hostedStyles month genre).map (ageKey month)).Nodup :=
  hstyles.map fun _ _ hst => congrArg (fun key => (ofLex key).2) hst

omit [Field K] [LinearOrder K] in
theorem hostedStyles_nodup
    (hpairs : ((entriesOf month.parents).map fun e => (e.style, e.host)).Nodup) (genre : String) :
    (hostedStyles month genre).Nodup := by
  unfold hostedStyles
  rw [List.nodup_map_iff_inj_on ((List.Nodup.of_map _ hpairs).filter _)]
  intro e he e' he' hstyle
  rw [List.mem_filter, decide_eq_true_iff] at he he'
  exact List.inj_on_of_nodup_map hpairs he.1 he'.1 (Prod.ext hstyle (he.2.trans he'.2.symm))

theorem sectorNodes_eq (hstyles : (hostedStyles month genre).Nodup) :
    sectorNodes circle month ring frames genre =
      ((entriesOf month.parents).filter fun e => e.host = genre).map fun e =>
        ⟨e.kind, e.style, genre,
          nodeRadius month genre e.style * circle.cos (nodeAngle month ring frames genre e.style),
          nodeRadius month genre e.style * circle.sin (nodeAngle month ring frames genre e.style)⟩ := by
  have hleans : (ranks (((entriesOf month.parents).filter fun e => e.host = genre).map fun e =>
      leanKey month ring genre e.style) : List K) =
      ((entriesOf month.parents).filter fun e => e.host = genre).map fun e =>
        slot ((hostedStyles month genre).map (leanKey month ring genre))
          (leanKey month ring genre e.style) := by
    have hranks := ranks_eq (K := K) (leanKey_nodup ring hstyles)
    simp only [hostedStyles, List.map_map] at hranks ⊢
    exact hranks
  have hages : (ranks (((entriesOf month.parents).filter fun e => e.host = genre).map fun e =>
      ageKey month e.style) : List K) =
      ((entriesOf month.parents).filter fun e => e.host = genre).map fun e =>
        slot ((hostedStyles month genre).map (ageKey month)) (ageKey month e.style) := by
    have hranks := ranks_eq (K := K) (ageKey_nodup hstyles)
    simp only [hostedStyles, List.map_map] at hranks ⊢
    exact hranks
  unfold sectorNodes
  simp only
  split
  · rename_i hnone
    rw [hnone]
    rfl
  · refine Eq.trans (congrArg₂ (fun lean age => List.map _ (List.zip _ (List.zip lean age)))
      hleans hages) ?_
    rw [List.zip_map', zip_map_self, List.map_map]
    rfl

/-! ### Inside the sector -/

variable [IsStrictOrderedRing K]

theorem squareRootWidths_pos {circle : Circle K} (htau : 0 < circle.tau) (members : String → ℕ)
    {ring : List String} (hring : ring ≠ []) (genre : String) :
    0 < squareRootWidths circle ring members genre := by
  have htotal := squareRoots_pos circle members hring
  have hraw := circle.sqrt_pos (members genre)
  unfold squareRootWidths
  simp only
  positivity

omit [IsStrictOrderedRing K] in
theorem squareRootWidths_even (circle : Circle K) {members : String → ℕ} {ring : List String} {m : ℕ}
    (heven : ∀ genre ∈ ring, members genre = m) {genre : String} (hgenre : genre ∈ ring) :
    squareRootWidths circle ring members genre = circle.tau / ring.length := by
  have hroots : ring.map (fun genre => circle.sqrt (members genre + 1)) =
      ring.map fun _ => circle.sqrt (m + 1) := by
    apply List.map_congr_left
    intro genre hgenre
    rw [heven genre hgenre]
  unfold squareRootWidths
  simp only
  rw [hroots, heven genre hgenre, List.map_const', List.sum_replicate, nsmul_eq_mul,
    mul_div_mul_right _ _ (circle.sqrt_pos m).ne']

/-- Kept frames are near their square-root widths and resized ones have them. -/
theorem sectorFrames_near {circle : Circle K} (htau : 0 < circle.tau) (members : String → ℕ)
    {ring : List String} (hring : ring.Nodup) (pinned : List (Sector K)) {genre : String}
    (hgenre : genre ∈ ring) :
    |((sectorFrames circle ring members pinned).1 genre).2 -
      ((sectorFrames circle ring members pinned).1 genre).1 -
        squareRootWidths circle ring members genre| ≤
      frameTolerance * squareRootWidths circle ring members genre := by
  have hwidth := squareRootWidths_pos htau members (List.ne_nil_of_mem hgenre) genre
  unfold sectorFrames
  split_ifs with hkeep
  · obtain ⟨-, -, -, hnear⟩ := hkeep
    exact hnear genre hgenre
  · simp only
    have hresized := fun start => (resizedFrames_spec (squareRootWidths circle ring members) hring
      start fun _ => (0, 0)).2.1 genre hgenre
    rw [hresized, add_sub_cancel_left, sub_self, abs_zero]
    unfold frameTolerance
    linarith

theorem sectorFrames_width {circle : Circle K} (htau : 0 < circle.tau) (members : String → ℕ)
    {ring : List String} (hring : ring.Nodup) (pinned : List (Sector K)) {genre : String}
    (hgenre : genre ∈ ring) :
    0 < ((sectorFrames circle ring members pinned).1 genre).2 -
      ((sectorFrames circle ring members pinned).1 genre).1 := by
  have hwidth := squareRootWidths_pos htau members (List.ne_nil_of_mem hgenre) genre
  have hnear := sectorFrames_near htau members hring pinned hgenre
  unfold frameTolerance at hnear
  linarith [(abs_le.mp hnear).1]

variable {ring : List String} {frames : String → K × K} {style style' : String}

theorem nodeAngle_inside (ring : List String) (hwidth : 0 < (frames genre).2 - (frames genre).1)
    (hstyle : style ∈ hostedStyles month genre) :
    (frames genre).1 + ((frames genre).2 - (frames genre).1) / 10 <
        nodeAngle month ring frames genre style ∧
      nodeAngle month ring frames genre style <
        (frames genre).2 - ((frames genre).2 - (frames genre).1) / 10 := by
  have hkey : leanKey month ring genre style ∈
      (hostedStyles month genre).map (leanKey month ring genre) := List.mem_map_of_mem hstyle
  have hpos := slot_pos (K := K) hkey
  have hone := slot_lt_one (K := K) hkey
  unfold nodeAngle sectorAngleMargin
  generalize hstop : (frames genre).2 - (frames genre).1 = width at hwidth ⊢
  generalize slot (K := K) ((hostedStyles month genre).map (leanKey month ring genre))
    (leanKey month ring genre style) = place at hpos hone ⊢
  have hlow := mul_pos hwidth hpos
  have hhigh := mul_pos hwidth (sub_pos.mpr hone)
  constructor <;> linarith

theorem nodeRadius_inside (hstyle : style ∈ hostedStyles month genre) :
    (35 / 100 : K) < nodeRadius month genre style ∧ nodeRadius month genre style < 95 / 100 := by
  have hkey : ageKey month style ∈ (hostedStyles month genre).map (ageKey month) :=
    List.mem_map_of_mem hstyle
  have hpos := slot_pos (K := K) hkey
  have hone := slot_lt_one (K := K) hkey
  unfold nodeRadius styleRadiusMin styleRadiusSpan
  constructor <;> linarith

theorem nodeAngle_lt_iff (hwidth : 0 < (frames genre).2 - (frames genre).1)
    (hstyles : (hostedStyles month genre).Nodup) (hstyle : style ∈ hostedStyles month genre)
    (hstyle' : style' ∈ hostedStyles month genre) :
    nodeAngle month ring frames genre style < nodeAngle month ring frames genre style' ↔
      leanKey month ring genre style < leanKey month ring genre style' := by
  have hslots := slot_lt_iff (K := K) (leanKey_nodup ring hstyles)
    (List.mem_map_of_mem hstyle) (List.mem_map_of_mem hstyle')
  have hspan : (0 : K) < 1 - 2 * sectorAngleMargin := by
    unfold sectorAngleMargin
    norm_num
  unfold nodeAngle
  rw [add_lt_add_iff_left, mul_lt_mul_iff_right₀ hwidth, add_lt_add_iff_left,
    mul_lt_mul_iff_right₀ hspan, hslots]

theorem nodeRadius_lt_iff (hstyles : (hostedStyles month genre).Nodup)
    (hstyle : style ∈ hostedStyles month genre) (hstyle' : style' ∈ hostedStyles month genre) :
    (nodeRadius month genre style : K) < nodeRadius month genre style' ↔
      ageKey month style < ageKey month style' := by
  have hslots := slot_lt_iff (K := K) (ageKey_nodup hstyles) (List.mem_map_of_mem hstyle)
    (List.mem_map_of_mem hstyle')
  have hspan : (0 : K) < styleRadiusSpan := by
    unfold styleRadiusSpan
    norm_num
  unfold nodeRadius
  rw [add_lt_add_iff_left, mul_lt_mul_iff_right₀ hspan, hslots]

/-! ### The nodes of a layout -/

/-- An entry as its host's sector draws it. -/
def placedNode (circle : Circle K) (month : Month K) (ring : List String) (frames : String → K × K)
    (e : Entry) : Node K :=
  ⟨e.kind, e.style, e.host,
    nodeRadius month e.host e.style * circle.cos (nodeAngle month ring frames e.host e.style),
    nodeRadius month e.host e.style * circle.sin (nodeAngle month ring frames e.host e.style)⟩

omit [Field K] [LinearOrder K] [IsStrictOrderedRing K] in
theorem flatMap_filter_perm {α β : Type*} [DecidableEq β] (f : α → β) {groups : List β}
    (hgroups : groups.Nodup) (l : List α) :
    (groups.flatMap fun b => l.filter fun a => f a = b).Perm (l.filter fun a => f a ∈ groups) := by
  induction groups with
  | nil => simp
  | cons b groups ih =>
    obtain ⟨hb, hgroups'⟩ := List.nodup_cons.mp hgroups
    have hsplit := List.filter_append_perm (fun a => decide (f a = b))
      (l.filter fun a => f a ∈ b :: groups)
    rw [List.filter_filter, List.filter_filter] at hsplit
    have hown : (l.filter fun a => decide (f a = b) && decide (f a ∈ b :: groups)) =
        l.filter fun a => f a = b := by
      apply List.filter_congr
      intro a _
      by_cases hab : f a = b <;> simp [hab]
    have hother : (l.filter fun a => !decide (f a = b) && decide (f a ∈ b :: groups)) =
        l.filter fun a => f a ∈ groups := by
      apply List.filter_congr
      intro a _
      by_cases hab : f a = b
      · simp [hab, hb]
      · simp [hab]
    rw [hown, hother] at hsplit
    rw [List.flatMap_cons]
    exact (List.Perm.append_left _ (ih hgroups')).trans hsplit

/-- Every entry is drawn once, where its host's sector places it. -/
theorem buildLayout_nodes {circle : Circle K} (htau : 0 < circle.tau) {pinned : List (Sector K)}
    {layout : AtlasLayout K} (hpinned : (pinned.map Sector.genre).Nodup)
    (h : buildLayout circle month pinned = .ok layout)
    (hpairs : ((entriesOf month.parents).map fun e => (e.style, e.host)).Nodup) :
    ∃ frames : String → K × K,
      (∀ s ∈ layout.sectors, s.start = (frames s.genre).1 ∧ s.stop = (frames s.genre).2) ∧
      (∀ s ∈ layout.sectors, s.start < s.stop) ∧
      layout.nodes.Perm ((entriesOf month.parents).map
        (placedNode circle month (layout.sectors.map Sector.genre) frames)) := by
  unfold buildLayout at h
  split at h
  · cases h
  · rename_i ring hring
    cases h
    obtain ⟨hnodup, hgenres⟩ := monthRing_genres hpinned hring
    simp only [ringSectors_genre]
    generalize hframes : (sectorFrames circle ring
      (fun genre => ((entriesOf month.parents).map Entry.host).count genre) pinned).1 = frames
    refine ⟨frames, fun s hs => mem_ringSectors hs, ?_, ?_⟩
    · intro s hs
      obtain ⟨hstart, hstop⟩ := mem_ringSectors hs
      have hgenre : s.genre ∈ ring := by
        rw [← ringSectors_genre circle ring frames]
        exact List.mem_map_of_mem hs
      have hwidth := sectorFrames_width htau
        (fun genre => ((entriesOf month.parents).map Entry.host).count genre) hnodup pinned hgenre
      rw [hframes] at hwidth
      rw [hstart, hstop]
      exact sub_pos.mp hwidth
    · apply (List.perm_insertionSort _ _).trans
      have hsector : ∀ genre, sectorNodes circle month ring frames genre =
          ((entriesOf month.parents).filter fun e => e.host = genre).map
            (placedNode circle month ring frames) := by
        intro genre
        rw [sectorNodes_eq circle ring frames (hostedStyles_nodup hpairs genre)]
        apply List.map_congr_left
        intro e he
        rw [List.mem_filter, decide_eq_true_iff] at he
        unfold placedNode
        rw [he.2]
      rw [funext hsector, ← List.map_flatMap]
      refine ((flatMap_filter_perm Entry.host hnodup _).trans ?_).map _
      rw [List.filter_eq_self.mpr]
      intro e he
      rw [decide_eq_true_iff, hgenres, mem_genres]
      obtain ⟨row, hrow, rfl⟩ := List.mem_map.mp he
      exact Or.inr ⟨row, hrow, rfl⟩

/-- Genres of equally many members share the circle evenly, up to the tolerance. -/
theorem buildLayout_even {circle : Circle K} (htau : 0 < circle.tau) {pinned : List (Sector K)}
    (hpinned : (pinned.map Sector.genre).Nodup) {layout : AtlasLayout K}
    (h : buildLayout circle month pinned = .ok layout) {m : ℕ}
    (heven : ∀ genre ∈ month.genres, ((entriesOf month.parents).map Entry.host).count genre = m)
    {s : Sector K} (hs : s ∈ layout.sectors) :
    |s.width - circle.tau / month.genres.length| ≤
      frameTolerance * (circle.tau / month.genres.length) := by
  unfold buildLayout at h
  split at h
  · cases h
  · rename_i ring hring
    cases h
    obtain ⟨hnodup, hgenres⟩ := monthRing_genres hpinned hring
    have hlength : month.genres.length = ring.length :=
      ((List.perm_ext_iff_of_nodup (nodup_genres _) hnodup).mpr fun g => (hgenres g).symm).length_eq
    have hgenre : s.genre ∈ ring := by
      have hmem := List.mem_map_of_mem (f := Sector.genre) hs
      rw [ringSectors_genre] at hmem
      exact hmem
    have hnear := sectorFrames_near htau
      (fun genre => ((entriesOf month.parents).map Entry.host).count genre) hnodup pinned hgenre
    rw [squareRootWidths_even circle (fun g hg => heven g ((hgenres g).mp hg)) hgenre] at hnear
    obtain ⟨hstart, hstop⟩ := mem_ringSectors hs
    rw [Sector.width, hstart, hstop, hlength]
    exact hnear

end

end AnalyticsEngine.StyleAtlas
