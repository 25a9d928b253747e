import AnalyticsEngine.Library.Slices
import AnalyticsEngine.StyleAtlas.Ring
import Mathlib.Algebra.BigOperators.Ring.List
import Mathlib.Algebra.Order.Field.Basic
import Mathlib.Data.Prod.Lex

/-!
# insights/style_atlas.py: sectors and nodes

Sectors that tile the circle (`Tiled`) stay a tiling whether a month keeps their frames or resizes
every sector, and the first sector of a resized ring starts where it did (`sectorFrames_spec`).
-/

namespace AnalyticsEngine.StyleAtlas
open Library

/- Shortcut instances for the numerals of the layout. -/
instance atLeastTwo_two : Nat.AtLeastTwo 2 := ⟨le_rfl⟩

instance atLeastTwo_five : Nat.AtLeastTwo 5 := ⟨by decide⟩

variable {K : Type*} [Field K] [LinearOrder K]

/-- `math.tau`, `math.sqrt`, `math.cos` and `math.sin` in exact arithmetic. -/
structure Circle (K : Type*) [Field K] [LinearOrder K] where
  tau : K
  sqrt : K → K
  cos : K → K
  sin : K → K
  sqrt_pos : ∀ n : ℕ, 0 < sqrt (n + 1)

/-- A row of `insights.genre_atlas_sectors`. -/
structure Sector (K : Type*) where
  genre : String
  ringOrder : ℕ
  start : K
  stop : K
  x : K
  y : K

def Sector.width (s : Sector K) : K := s.stop - s.start

inductive NodeKind where
  | style
  | ghost
deriving DecidableEq

def NodeKind.text : NodeKind → String
  | .style => "style"
  | .ghost => "ghost"

/-- A row of `insights.style_atlas_layout`. -/
structure Node (K : Type*) where
  kind : NodeKind
  style : String
  genre : String
  x : K
  y : K

structure AtlasLayout (K : Type*) where
  sectors : List (Sector K)
  nodes : List (Node K)
  ringPinned : Bool
  framesPinned : Bool

/-! ### Sector frames -/

def squareRootWidths (circle : Circle K) (ring : List String) (members : String → ℕ) (genre : String) :
    K :=
  let raw := fun genre => circle.sqrt (members genre + 1)
  circle.tau * raw genre / (ring.map raw).sum

def frameTolerance : K := 1 / 10

def contiguityEpsilon : K := 1 / 10 ^ 9

/- `by_genre`, of which the last sector of a genre stays. -/
def byGenre (pinned : List (Sector K)) (genre : String) : Option (Sector K) :=
  pinned.reverse.find? fun s => s.genre = genre

def pinnedStart (pinned : List (Sector K)) (genre : String) : K :=
  ((byGenre pinned genre).map Sector.start).getD 0

def pinnedStop (pinned : List (Sector K)) (genre : String) : K :=
  ((byGenre pinned genre).map Sector.stop).getD 0

def isContiguousRing (circle : Circle K) (ring : List String) (pinned : List (Sector K)) : Prop :=
  (∀ p ∈ pairwise ring, ¬contiguityEpsilon < |pinnedStop pinned p.1 - pinnedStart pinned p.2|) ∧
    |pinnedStop pinned (ring.getLastD "") - pinnedStart pinned (ring.headD "") - circle.tau| ≤
      contiguityEpsilon

/- `sorted(pinned, key=lambda sector: sector.ring_order)`, the genres. -/
def pinnedRingOrder (pinned : List (Sector K)) : List String :=
  (pinned.insertionSort fun s t => s.ringOrder ≤ t.ringOrder).map Sector.genre

def keepsFrames (circle : Circle K) (ring : List String) (members : String → ℕ)
    (pinned : List (Sector K)) : Prop :=
  ring ≠ [] ∧ pinnedRingOrder pinned = ring ∧ isContiguousRing circle ring pinned ∧
    ∀ genre ∈ ring, |pinnedStop pinned genre - pinnedStart pinned genre -
      squareRootWidths circle ring members genre| ≤
        frameTolerance * squareRootWidths circle ring members genre

instance (circle : Circle K) (ring : List String) (members : String → ℕ) (pinned : List (Sector K)) :
    Decidable (keepsFrames circle ring members pinned) :=
  inferInstanceAs (Decidable (_ ∧ _ ∧ (_ ∧ _) ∧ _))

def resizedFrames (widths : String → K) (ring : List String) (start : K)
    (frames : String → K × K) : String → K × K :=
  (ring.foldl (fun state genre =>
    (state.1 + widths genre,
      Function.update state.2 genre (state.1, state.1 + widths genre))) (start, frames)).2

def sectorFrames (circle : Circle K) (ring : List String) (members : String → ℕ)
    (pinned : List (Sector K)) : (String → K × K) × Bool :=
  if keepsFrames circle ring members pinned then
    (fun genre => (pinnedStart pinned genre, pinnedStop pinned genre), true)
  else
    let start := match ring.head? with
      | none => 0
      | some genre => pinnedStart pinned genre
    (resizedFrames (squareRootWidths circle ring members) ring start fun _ => (0, 0), false)

/-! ### Placement -/

/-- A drawn copy of a style and its host. -/
structure Entry where
  kind : NodeKind
  style : String
  host : String

structure ParentRow (K : Type*) where
  style : String
  genre : String
  share : K
  isDominant : Bool

def entriesOf (parents : List (ParentRow K)) : List Entry :=
  parents.map fun row => ⟨if row.isDominant then .style else .ghost, row.style, row.genre⟩

def emergenceKey (year : Option ℤ) : WithTop ℤ :=
  match year with
  | none => ⊤
  | some year => (year : WithTop ℤ)

def ranks {α : Type*} [LinearOrder α] (keys : List α) : List K :=
  let order := (keys.zipIdx.insertionSort fun p q => p.1 ≤ q.1).map Prod.snd
  (List.range keys.length).map fun i => ((order.idxOf i : K) + 1 / 2) / keys.length

def sectorAngleMargin : K := 1 / 10

def styleRadiusMin : K := 35 / 100

def styleRadiusSpan : K := 60 / 100

def genreNodeRadius : K := 65 / 100

/-- The inputs of a month. -/
structure Month (K : Type*) where
  shares : Shares K
  parents : List (ParentRow K)
  emergence : String → Option ℤ

def Month.genres (month : Month K) : List String :=
  ((month.shares.entries.flatMap fun e => e.2.keys) ++
    (entriesOf month.parents).map Entry.host).toFinset.sort (· ≤ ·)

/-- The nodes of one genre's sector. -/
def sectorNodes (circle : Circle K) (month : Month K) (ring : List String)
    (frames : String → K × K) (genre : String) : List (Node K) :=
  let hosted := (entriesOf month.parents).filter fun e => e.host = genre
  if hosted = [] then []
  else
    let position := ring.idxOf genre
    let following := ring.getD ((position + 1) % ring.length) ""
    let preceding := ring.getD ((position + ring.length - 1) % ring.length) ""
    let start := (frames genre).1
    let stop := (frames genre).2
    let lean : List K := ranks (hosted.map fun e =>
      toLex (shareOf month.shares e.style following - shareOf month.shares e.style preceding, e.style))
    let age : List K := ranks (hosted.map fun e =>
      toLex (emergenceKey (month.emergence e.style), e.style))
    (hosted.zip (lean.zip age)).map fun p =>
      let theta := start + (stop - start) *
        (sectorAngleMargin + (1 - 2 * sectorAngleMargin) * p.2.1)
      let rho := styleRadiusMin + styleRadiusSpan * p.2.2
      ⟨p.1.kind, p.1.style, genre, rho * circle.cos theta, rho * circle.sin theta⟩

/-- The sectors in ring order. -/
def ringSectors (circle : Circle K) (ring : List String) (frames : String → K × K) :
    List (Sector K) :=
  ring.zipIdx.map fun p =>
    let frame := frames p.1
    ⟨p.1, p.2, frame.1, frame.2, genreNodeRadius * circle.cos ((frame.1 + frame.2) / 2),
      genreNodeRadius * circle.sin ((frame.1 + frame.2) / 2)⟩

/-- The key of `nodes.sort`. -/
def Node.key (node : Node K) : Lex (String × Lex (String × String)) :=
  toLex (node.kind.text, toLex (node.style, node.genre))

def monthRing (month : Month K) (pinned : List (Sector K)) : Except AtlasError (List String) :=
  let weight := genreAffinity month.genres month.shares
  if pinned ≠ [] then .ok (pinnedRing (pinnedRingOrder pinned) month.genres weight)
  else
    match ringOrder month.genres.length weight with
    | .error e => .error e
    | .ok order => .ok (order.map fun j => month.genres.getD j "")

def buildLayout (circle : Circle K) (month : Month K) (pinned : List (Sector K)) :
    Except AtlasError (AtlasLayout K) :=
  match monthRing month pinned with
  | .error e => .error e
  | .ok ring =>
    let members := fun genre => ((entriesOf month.parents).map Entry.host).count genre
    let frames := sectorFrames circle ring members pinned
    let nodes := ring.flatMap (sectorNodes circle month ring frames.1)
    .ok { sectors := ringSectors circle ring frames.1
          nodes := nodes.insertionSort fun m n => m.key ≤ n.key
          ringPinned := pinned ≠ []
          framesPinned := frames.2 }

/-! ### Frames that tile the circle -/

section
variable {circle : Circle K}

/-- Sectors numbered in ring order, each starting where the one before it stops, once around. -/
structure Tiled (circle : Circle K) (sectors : List (Sector K)) : Prop where
  order : sectors.map Sector.ringOrder = List.range sectors.length
  nodup : (sectors.map Sector.genre).Nodup
  contiguous : ∀ p ∈ pairwise sectors, p.1.stop = p.2.start
  closed : sectors ≠ [] → (sectors.map Sector.width).sum = circle.tau

theorem tiled_nil : Tiled circle [] where
  order := rfl
  nodup := List.nodup_nil
  contiguous _ hp := absurd hp List.not_mem_nil
  closed h := absurd rfl h

theorem Tiled.pinnedRingOrder_eq {pinned : List (Sector K)} (h : Tiled circle pinned) :
    pinnedRingOrder pinned = pinned.map Sector.genre := by
  have hsorted : pinned.Pairwise fun s t => s.ringOrder ≤ t.ringOrder := by
    rw [← List.pairwise_map (f := Sector.ringOrder) (R := (· ≤ ·)), h.order]
    exact List.pairwise_le_range
  unfold pinnedRingOrder
  rw [List.Pairwise.insertionSort_eq hsorted]

theorem Tiled.byGenre_eq {pinned : List (Sector K)} (h : Tiled circle pinned) {s : Sector K}
    (hs : s ∈ pinned) : byGenre pinned s.genre = some s := by
  unfold byGenre
  cases hfind : pinned.reverse.find? fun t => decide (t.genre = s.genre) with
  | none =>
    have hnone := List.find?_eq_none.mp hfind s (List.mem_reverse.mpr hs)
    exact absurd (decide_eq_true rfl) hnone
  | some t =>
    have ht := List.mem_reverse.mp (List.mem_of_find?_eq_some hfind)
    have hgenre : t.genre = s.genre := by simpa using List.find?_some hfind
    rw [List.inj_on_of_nodup_map h.nodup ht hs hgenre]

theorem Tiled.pinnedStart_eq {pinned : List (Sector K)} (h : Tiled circle pinned) {s : Sector K}
    (hs : s ∈ pinned) : pinnedStart pinned s.genre = s.start := by
  unfold pinnedStart
  rw [h.byGenre_eq hs]
  rfl

theorem Tiled.pinnedStop_eq {pinned : List (Sector K)} (h : Tiled circle pinned) {s : Sector K}
    (hs : s ∈ pinned) : pinnedStop pinned s.genre = s.stop := by
  unfold pinnedStop
  rw [h.byGenre_eq hs]
  rfl

theorem resizedFrames_spec {L : Type*} [Field L] (widths : String → L) {ring : List String}
    (hring : ring.Nodup) (start : L) (frames : String → L × L) :
    (∀ genre, genre ∉ ring → resizedFrames widths ring start frames genre = frames genre) ∧
      (∀ genre ∈ ring, (resizedFrames widths ring start frames genre).2 =
        (resizedFrames widths ring start frames genre).1 + widths genre) ∧
      (∀ p ∈ pairwise ring, (resizedFrames widths ring start frames p.1).2 =
        (resizedFrames widths ring start frames p.2).1) ∧
      (∀ genre, ring.head? = some genre →
        (resizedFrames widths ring start frames genre).1 = start) := by
  induction ring generalizing start frames with
  | nil =>
    refine ⟨fun _ _ => rfl, fun _ h => absurd h List.not_mem_nil, ?_, ?_⟩
    · exact fun _ h => absurd h List.not_mem_nil
    · intro genre h
      cases h
  | cons first rest ih =>
    obtain ⟨hfirst, hrest⟩ := List.nodup_cons.mp hring
    have hcons : resizedFrames widths (first :: rest) start frames =
        resizedFrames widths rest (start + widths first)
          (Function.update frames first (start, start + widths first)) := rfl
    obtain ⟨hother, hwidth, hpairs, hhead⟩ := ih hrest (start + widths first)
      (Function.update frames first (start, start + widths first))
    have hframe := hother first hfirst
    rw [Function.update_self] at hframe
    rw [hcons]
    refine ⟨?_, ?_, ?_, ?_⟩
    · intro genre hgenre
      obtain ⟨hne, hgenre'⟩ := not_or.mp (mt List.mem_cons.mpr hgenre)
      rw [hother genre hgenre', Function.update_of_ne hne]
    · intro genre hgenre
      rcases List.mem_cons.mp hgenre with rfl | hgenre
      · rw [hframe]
      · exact hwidth genre hgenre
    · intro p hp
      cases rest with
      | nil => cases hp
      | cons second rest =>
        rw [pairwise_cons_cons] at hp
        rcases List.mem_cons.mp hp with rfl | hp
        · rw [hframe, hhead second rfl]
        · exact hpairs p hp
    · intro genre hgenre
      cases hgenre
      rw [hframe]

theorem squareRoots_pos [IsStrictOrderedRing K] (circle : Circle K) (members : String → ℕ)
    {ring : List String} (hne : ring ≠ []) :
    0 < (ring.map fun genre => circle.sqrt (members genre + 1)).sum := by
  apply List.sum_pos
  · intro w hw
    obtain ⟨genre, _, rfl⟩ := List.mem_map.mp hw
    exact circle.sqrt_pos _
  · simpa using hne

theorem squareRootWidths_sum [IsStrictOrderedRing K] (members : String → ℕ)
    {ring : List String} (hne : ring ≠ []) :
    (ring.map (squareRootWidths circle ring members)).sum = circle.tau := by
  have htotal := (squareRoots_pos circle members hne).ne'
  have hscale : ring.map (squareRootWidths circle ring members) =
      ring.map fun genre => circle.tau / (ring.map fun genre => circle.sqrt (members genre + 1)).sum *
        circle.sqrt (members genre + 1) := by
    apply List.map_congr_left
    intro genre _
    unfold squareRootWidths
    ring
  rw [hscale, List.sum_map_mul_left, div_mul_cancel₀ _ htotal]

theorem ringSectors_genre (circle : Circle K) (ring : List String) (frames : String → K × K) :
    (ringSectors circle ring frames).map Sector.genre = ring := by
  unfold ringSectors
  rw [List.map_map]
  exact List.zipIdx_map_fst 0 ring

theorem mem_ringSectors {ring : List String} {frames : String → K × K} {s : Sector K}
    (hs : s ∈ ringSectors circle ring frames) :
    s.start = (frames s.genre).1 ∧ s.stop = (frames s.genre).2 := by
  unfold ringSectors at hs
  obtain ⟨p, _, rfl⟩ := List.mem_map.mp hs
  exact ⟨rfl, rfl⟩

theorem ringSectors_tiled {ring : List String} (hring : ring.Nodup) {frames : String → K × K}
    (hpairs : ∀ p ∈ pairwise ring, (frames p.1).2 = (frames p.2).1)
    (hclosed : ring ≠ [] → (ring.map fun genre => (frames genre).2 - (frames genre).1).sum =
      circle.tau) : Tiled circle (ringSectors circle ring frames) where
  order := by
    unfold ringSectors
    rw [List.map_map, List.length_map, List.length_zipIdx]
    have hsnd := List.zipIdx_map_snd 0 ring
    rw [List.range_eq_range', ← hsnd]
    rfl
  nodup := by
    rw [ringSectors_genre]
    exact hring
  contiguous p hp := by
    have hmem : (p.1.genre, p.2.genre) ∈ pairwise ring := by
      rw [← ringSectors_genre circle ring frames, pairwise_map]
      exact List.mem_map.mpr ⟨p, hp, rfl⟩
    obtain ⟨h1, h2⟩ := mem_pairwise hp
    rw [(mem_ringSectors h1).2, (mem_ringSectors h2).1]
    exact hpairs _ hmem
  closed hne := by
    have hne' : ring ≠ [] := by
      intro heq
      subst heq
      exact hne rfl
    rw [← hclosed hne']
    unfold ringSectors
    rw [List.map_map]
    conv_rhs => rw [← List.zipIdx_map_fst 0 ring, List.map_map]
    rfl

theorem Tiled.pinned_contiguous {pinned : List (Sector K)} (h : Tiled circle pinned)
    {p : String × String} (hp : p ∈ pairwise (pinned.map Sector.genre)) :
    pinnedStop pinned p.1 = pinnedStart pinned p.2 := by
  rw [pairwise_map] at hp
  obtain ⟨q, hq, rfl⟩ := List.mem_map.mp hp
  obtain ⟨h1, h2⟩ := mem_pairwise hq
  rw [Prod.map_fst, Prod.map_snd, h.pinnedStop_eq h1, h.pinnedStart_eq h2]
  exact h.contiguous q hq

/-- The frames of a ring that is pinned as it stands. -/
theorem keptFrames_tiled {pinned : List (Sector K)} (h : Tiled circle pinned) :
    Tiled circle (ringSectors circle (pinned.map Sector.genre) fun genre =>
      (pinnedStart pinned genre, pinnedStop pinned genre)) := by
  apply ringSectors_tiled h.nodup
  · intro p hp
    exact h.pinned_contiguous hp
  · intro hne
    have hne' : pinned ≠ [] := by
      intro heq
      subst heq
      exact hne rfl
    rw [← h.closed hne', List.map_map]
    congr 1
    apply List.map_congr_left
    intro s hs
    simp only [Function.comp_apply]
    rw [h.pinnedStart_eq hs, h.pinnedStop_eq hs]
    rfl

/-- Kept or resized, the frames tile the circle, and the first genre's frame starts where it was
pinned. -/
theorem sectorFrames_spec [IsStrictOrderedRing K] {ring : List String} (hring : ring.Nodup)
    (members : String → ℕ) {pinned : List (Sector K)} (hpinned : Tiled circle pinned) :
    Tiled circle (ringSectors circle ring (sectorFrames circle ring members pinned).1) ∧
      ∀ s ∈ pinned, ring.head? = some s.genre →
        ((sectorFrames circle ring members pinned).1 s.genre).1 = s.start := by
  unfold sectorFrames
  split_ifs with hkeep
  · obtain ⟨_, horder, _, _⟩ := hkeep
    rw [hpinned.pinnedRingOrder_eq] at horder
    subst horder
    exact ⟨keptFrames_tiled hpinned, fun s hs _ => hpinned.pinnedStart_eq hs⟩
  · simp only
    generalize hfirst : (match ring.head? with
      | none => (0 : K)
      | some genre => pinnedStart pinned genre) = start
    obtain ⟨_, hwidth, hpairs, hhead⟩ := resizedFrames_spec
      (squareRootWidths circle ring members) hring start fun _ => (0, 0)
    refine ⟨ringSectors_tiled hring hpairs ?_, ?_⟩
    · intro hne
      rw [← squareRootWidths_sum members hne]
      congr 1
      apply List.map_congr_left
      intro genre hgenre
      rw [hwidth genre hgenre, add_sub_cancel_left]
    · intro s hs hgenre
      rw [hhead s.genre hgenre, ← hfirst, hgenre]
      exact hpinned.pinnedStart_eq hs

end

end AnalyticsEngine.StyleAtlas
