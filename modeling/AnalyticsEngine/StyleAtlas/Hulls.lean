import AnalyticsEngine.Library.Wedge
import AnalyticsEngine.StyleAtlas.FixedPoint
import AnalyticsEngine.StyleAtlas.Parents
import Mathlib.Analysis.Normed.Field.Basic
import Mathlib.Analysis.Normed.Group.AddTorsor
import Mathlib.LinearAlgebra.AffineSpace.FiniteDimensional

/-!
# insights/style_atlas.py: hull_check

A sector's nodes lie in the middle of it, so at five quarters of a half turn and below their hull
stays in a wedge that no other sector reaches (`hull_own`). The check then counts no intrusion, and
no omission at any width, as each parent's copy is one of the hull's own points.
-/

namespace AnalyticsEngine.StyleAtlas
open Library

/-! ### hull_check -/

/-- `scipy.spatial.Delaunay` with `find_simplex`, where it raises no `QhullError`. -/
structure Delaunay where
  find : List (ℝ × ℝ) → Option (ℝ × ℝ → Bool)
  find_iff : ∀ points inside, find points = some inside →
    ∀ p, inside p = true ↔ p ∈ convexHull ℝ {q | q ∈ points}

structure HullCheck where
  intrudingNodes : ℕ
  omittedPairs : ℕ
  parentPairs : ℕ

def Node.xy (node : Node ℝ) : ℝ × ℝ := (node.x, node.y)

/- The points a genre's hull is drawn around. -/
def hostedPoints (nodes : List (Node ℝ)) (genre : String) : List (ℝ × ℝ) :=
  (nodes.filter fun node => node.genre = genre).map Node.xy

/-- `inside[i, j]`: fewer than three hosted nodes, or collinear ones, have only themselves inside. -/
def insideHull (delaunay : Delaunay) (nodes : List (Node ℝ)) (genre : String) (node : Node ℝ) :
    Bool :=
  let simplex :=
    if 3 ≤ (hostedPoints nodes genre).length then
      match delaunay.find (hostedPoints nodes genre) with
      | none => false
      | some inside => inside node.xy
    else false
  node.genre = genre || simplex

def parentSet (parents : List (ParentRow ℝ)) (style : String) : List String :=
  (((parents.filter fun row => row.style = style).map ParentRow.genre).toFinset).sort (· ≤ ·)

def parentPairs (parents : List (ParentRow ℝ)) : List (String × String) :=
  ((parents.map ParentRow.style).toFinset.sort (· ≤ ·)).flatMap fun style =>
    (parentSet parents style).map fun genre => (style, genre)

def nodeGenres (nodes : List (Node ℝ)) : List String :=
  (nodes.map Node.genre).toFinset.sort (· ≤ ·)

/- `covered[style]`. -/
def coveredGenres (delaunay : Delaunay) (nodes : List (Node ℝ)) (style : String) : List String :=
  (nodes.filter fun node => node.style = style).flatMap fun node =>
    (nodeGenres nodes).filter fun genre => insideHull delaunay nodes genre node

def hullCheck (delaunay : Delaunay) (nodes : List (Node ℝ)) (parents : List (ParentRow ℝ)) :
    HullCheck where
  intrudingNodes := nodes.countP fun node => (nodeGenres nodes).any fun genre =>
    insideHull delaunay nodes genre node && genre ∉ parentSet parents node.style
  omittedPairs := (parentPairs parents).countP fun p =>
    p.1 ∉ nodes.map Node.style || p.2 ∉ coveredGenres delaunay nodes p.1
  parentPairs := (parentPairs parents).length

/-! ### Sectors around the circle -/

section
variable {K : Type*} [Field K] [LinearOrder K] [IsStrictOrderedRing K]

/-- Later sectors start after an earlier one stops, and stop before it comes round again. -/
theorem contiguous_before {s : Sector K} {sectors : List (Sector K)}
    (h : ∀ p ∈ pairwise (s :: sectors), p.1.stop = p.2.start)
    (hwidths : ∀ t ∈ s :: sectors, t.start ≤ t.stop) {t : Sector K} (ht : t ∈ sectors) :
    s.stop ≤ t.start ∧ t.stop ≤ s.start + ((s :: sectors).map Sector.width).sum := by
  induction sectors generalizing s with
  | nil => cases ht
  | cons u sectors ih =>
    rw [pairwise_cons_cons] at h
    have hnext : s.stop = u.start := h (s, u) List.mem_cons_self
    have hown := hwidths u (List.mem_cons_of_mem _ List.mem_cons_self)
    have hlater : 0 ≤ (sectors.map Sector.width).sum := by
      apply List.sum_nonneg
      intro w hw
      obtain ⟨v, hv, rfl⟩ := List.mem_map.mp hw
      exact sub_nonneg.mpr (hwidths v (List.mem_cons_of_mem _ (List.mem_cons_of_mem _ hv)))
    simp only [List.map_cons, List.sum_cons] at ih ⊢
    have hs : s.start + s.width = s.stop := add_sub_cancel _ _
    have hu : u.start + u.width = u.stop := add_sub_cancel _ _
    rcases List.mem_cons.mp ht with rfl | ht
    · constructor <;> linarith
    · obtain ⟨hafter, hround⟩ := ih (fun p hp => h p (List.mem_cons_of_mem _ hp))
        (fun v hv => hwidths v (List.mem_cons_of_mem _ hv)) ht
      constructor <;> linarith

theorem Tiled.before {circle : Circle K} {sectors : List (Sector K)} (h : Tiled circle sectors)
    (hwidths : ∀ t ∈ sectors, t.start ≤ t.stop) :
    sectors.Pairwise fun s t => s.stop ≤ t.start ∧ t.stop ≤ s.start + circle.tau := by
  have hall : ∀ total, (sectors.map Sector.width).sum ≤ total →
      (∀ p ∈ pairwise sectors, p.1.stop = p.2.start) →
      sectors.Pairwise fun s t => s.stop ≤ t.start ∧ t.stop ≤ s.start + total := by
    clear h
    intro total htotal hpairs
    induction sectors with
    | nil => exact List.Pairwise.nil
    | cons s sectors ih =>
      rw [List.pairwise_cons]
      refine ⟨?_, ?_⟩
      · intro t ht
        obtain ⟨hafter, hround⟩ := contiguous_before hpairs hwidths ht
        exact ⟨hafter, by linarith⟩
      · have hs : 0 ≤ s.width := sub_nonneg.mpr (hwidths s List.mem_cons_self)
        rw [List.map_cons, List.sum_cons] at htotal
        refine ih (fun t ht => hwidths t (List.mem_cons_of_mem _ ht)) (by linarith) ?_
        intro p hp
        cases sectors with
        | nil => cases hp
        | cons t sectors => exact hpairs p (List.mem_cons_of_mem _ hp)
  cases sectors with
  | nil => exact List.Pairwise.nil
  | cons s sectors => exact hall _ (h.closed (List.cons_ne_nil _ _)).le h.contiguous

/-- Two sectors of one ring lie apart, one of them perhaps a turn later. -/
theorem Tiled.apart {circle : Circle K} {sectors : List (Sector K)} (h : Tiled circle sectors)
    (hwidths : ∀ t ∈ sectors, t.start ≤ t.stop) {s t : Sector K} (hs : s ∈ sectors)
    (ht : t ∈ sectors) (hne : s ≠ t) :
    (s.stop ≤ t.start ∧ t.stop ≤ s.start + circle.tau) ∨
      (t.stop ≤ s.start ∧ s.stop ≤ t.start + circle.tau) := by
  let Apart : Sector K → Sector K → Prop := fun s t =>
    (s.stop ≤ t.start ∧ t.stop ≤ s.start + circle.tau) ∨
      (t.stop ≤ s.start ∧ s.stop ≤ t.start + circle.tau)
  have hsymm : Std.Symm Apart := ⟨fun _ _ hst => Or.symm hst⟩
  have hpairs : sectors.Pairwise Apart := (h.before hwidths).imp fun hst => Or.inl hst
  exact hpairs.forall hs ht hne

end

/-! ### Hulls of a layout -/

section
variable {rows : List (ShareRow ℝ)} {emergence : String → Option ℤ} {pinned : List (Sector ℝ)}
  {layout : AtlasLayout ℝ}

/-- A narrow sector's hull holds its own nodes alone. -/
theorem hull_own (hrows : (rows.map ShareRow.pair).Nodup) (hpinned : Built realCircle pinned)
    (h : buildLayout realCircle (shareMonth rows emergence) pinned = .ok layout) {s : Sector ℝ}
    (hs : s ∈ layout.sectors) (hnarrow : s.width ≤ 5 * Real.pi / 4) {node : Node ℝ}
    (hnode : node ∈ layout.nodes)
    (hhull : node.xy ∈ convexHull ℝ {q | q ∈ hostedPoints layout.nodes s.genre}) :
    node.genre = s.genre := by
  have htiled := buildLayout_tiled hpinned.tiled h
  obtain ⟨angle, radius, hplaced⟩ := buildLayout_places Real.two_pi_pos hrows hpinned.tiled.nodup h
  obtain ⟨frames, hframes, hwidths, -⟩ :=
    buildLayout_nodes Real.two_pi_pos hpinned.tiled.nodup h (parentRows_nodup hrows)
  have hxy : ∀ n ∈ layout.nodes, n.xy = polar (radius n) (angle n) := fun n hn =>
    Prod.ext (hplaced.polar n hn).1 (hplaced.polar n hn).2
  have hradius : ∀ n ∈ layout.nodes, 0 < radius n := fun n hn => by
    linarith [(hplaced.between n hn).1]
  have hwidth : 0 < s.width := sub_pos.mpr (hwidths s hs)
  have hstop : s.stop = s.start + s.width := (add_sub_cancel _ _).symm
  have hpoints : ∀ p ∈ {q | q ∈ hostedPoints layout.nodes s.genre}, ∃ r θ, 0 < r ∧
      s.start + s.width / 10 < θ ∧ θ < s.stop - s.width / 10 ∧ p = polar r θ := by
    intro p hp
    obtain ⟨n, hhosted, rfl⟩ := List.mem_map.mp hp
    obtain ⟨hn, hgenre⟩ := List.mem_filter.mp hhosted
    obtain ⟨t, ht, hhost, hlow, hhigh⟩ := hplaced.inside n hn
    have hsame : t = s := List.inj_on_of_nodup_map htiled.nodup ht hs
      (hhost.trans (of_decide_eq_true hgenre))
    subst hsame
    exact ⟨radius n, angle n, hradius n hn, hlow, hhigh, hxy n hn⟩
  by_contra hne
  obtain ⟨t, ht, hhost, hlow, hhigh⟩ := hplaced.inside node hnode
  have htwidth : 0 < t.width := sub_pos.mpr (hwidths t ht)
  have hapart := htiled.apart (fun u hu => (hwidths u hu).le) hs ht
    fun hst => hne (by rw [← hhost, hst])
  have htau : realCircle.tau = 2 * Real.pi := rfl
  rw [htau] at hapart
  have houtside := fun φ => not_mem_hull (r := radius node) (φ := φ) (by linarith) (by linarith)
    hpoints (hradius node hnode).le
  rw [hxy node hnode] at hhull
  rcases hapart with ⟨hafter, hround⟩ | ⟨hbefore, hround⟩
  · exact houtside (angle node) (by linarith) (by linarith) hhull
  · rw [← polar_add_two_pi] at hhull
    exact houtside (angle node + 2 * Real.pi) (by linarith) (by linarith) hhull

theorem mem_parentSet {parents : List (ParentRow ℝ)} {style genre : String} :
    genre ∈ parentSet parents style ↔ ∃ row ∈ parents, row.style = style ∧ row.genre = genre := by
  unfold parentSet
  simp only [Finset.mem_sort, List.mem_toFinset, List.mem_map, List.mem_filter, decide_eq_true_iff]
  exact exists_congr fun row => and_assoc

theorem mem_parentPairs {parents : List (ParentRow ℝ)} {style genre : String} :
    (style, genre) ∈ parentPairs parents ↔ genre ∈ parentSet parents style := by
  unfold parentPairs
  simp only [List.mem_flatMap, Finset.mem_sort, List.mem_toFinset, List.mem_map, Prod.mk.injEq]
  constructor
  · rintro ⟨style, -, genre, hgenre, rfl, rfl⟩
    exact hgenre
  · intro hgenre
    obtain ⟨row, hrow, hstyle, -⟩ := mem_parentSet.mp hgenre
    exact ⟨style, ⟨row, hrow, hstyle⟩, genre, hgenre, rfl, rfl⟩

theorem isParent_mem {style genre : String} :
    genre ∈ parentSet (styleParentRows rows) style ↔ IsParent rows style genre := by
  rw [mem_parentSet, ← mem_parentEntries]
  unfold entriesOf
  simp only [List.map_map, List.mem_map, Function.comp_apply, Prod.mk.injEq]

theorem insideHull_hull {delaunay : Delaunay} {nodes : List (Node ℝ)} {genre : String} {node : Node ℝ}
    (hnode : node ∈ nodes) (h : insideHull delaunay nodes genre node = true) :
    node.xy ∈ convexHull ℝ {q | q ∈ hostedPoints nodes genre} := by
  unfold insideHull at h
  simp only [Bool.or_eq_true, decide_eq_true_iff] at h
  rcases h with hhost | hsimplex
  · apply subset_convexHull
    exact List.mem_map_of_mem (List.mem_filter.mpr ⟨hnode, decide_eq_true hhost⟩)
  · split at hsimplex
    · split at hsimplex
      · cases hsimplex
      · rename_i inside hfind
        exact (delaunay.find_iff _ inside hfind _).mp hsimplex
    · cases hsimplex

theorem hullCheck_omitted (delaunay : Delaunay) (hdraws : DrawsParents rows layout) :
    (hullCheck delaunay layout.nodes (styleParentRows rows)).omittedPairs = 0 := by
  change List.countP _ _ = 0
  rw [List.countP_eq_zero]
  rintro ⟨style, genre⟩ hpair
  obtain ⟨node, hnode, rfl, rfl⟩ :=
    (hdraws.pairs style genre).mpr (isParent_mem.mp (mem_parentPairs.mp hpair))
  have hdrawn : node.style ∈ layout.nodes.map Node.style := List.mem_map_of_mem hnode
  have hcovered : node.genre ∈ coveredGenres delaunay layout.nodes node.style := by
    refine List.mem_flatMap.mpr ⟨node, List.mem_filter.mpr ⟨hnode, decide_eq_true rfl⟩, ?_⟩
    refine List.mem_filter.mpr ⟨?_, ?_⟩
    · rw [nodeGenres, Finset.mem_sort, List.mem_toFinset]
      exact List.mem_map_of_mem hnode
    · simp [insideHull]
  simp [hdrawn, hcovered]

theorem hullCheck_intruding (delaunay : Delaunay) (hrows : (rows.map ShareRow.pair).Nodup)
    (hpinned : Built realCircle pinned)
    (h : buildLayout realCircle (shareMonth rows emergence) pinned = .ok layout)
    (hnarrow : ∀ s ∈ layout.sectors, s.width ≤ 5 * Real.pi / 4) :
    (hullCheck delaunay layout.nodes (styleParentRows rows)).intrudingNodes = 0 := by
  have hdraws := buildLayout_draws Real.two_pi_pos hrows hpinned.tiled.nodup h
  obtain ⟨angle, radius, hplaced⟩ := buildLayout_places Real.two_pi_pos hrows hpinned.tiled.nodup h
  change List.countP _ _ = 0
  rw [List.countP_eq_zero]
  intro node hnode hintrudes
  obtain ⟨genre, hgenre, hinside⟩ := List.any_eq_true.mp hintrudes
  rw [Bool.and_eq_true, decide_eq_true_iff] at hinside
  rw [nodeGenres, Finset.mem_sort, List.mem_toFinset] at hgenre
  obtain ⟨other, hother, rfl⟩ := List.mem_map.mp hgenre
  obtain ⟨s, hs, hhost, -⟩ := hplaced.inside other hother
  rw [← hhost] at hinside
  have hown := hull_own hrows hpinned h hs (hnarrow s hs) hnode (insideHull_hull hnode hinside.1)
  refine hinside.2 (isParent_mem.mpr ?_)
  rw [← hown]
  exact (hdraws.pairs _ _).mp ⟨node, hnode, rfl, rfl⟩

end

/-- No parent is left out of a hull, and a narrow sector's hull takes in no one else's node. -/
theorem hullCheck_promise (delaunay : Delaunay) (rows : List (ShareRow ℝ))
    (hrows : (rows.map ShareRow.pair).Nodup) (emergence : String → Option ℤ)
    (pinned : List (Sector ℝ)) (hpinned : Built realCircle pinned) (layout : AtlasLayout ℝ)
    (h : buildLayout realCircle (shareMonth rows emergence) pinned = .ok layout) :
    (∀ row ∈ styleParentRows rows, ∃ node ∈ layout.nodes, node.style = row.style ∧
      node.xy ∈ convexHull ℝ {q | q ∈ hostedPoints layout.nodes row.genre}) ∧
    (hullCheck delaunay layout.nodes (styleParentRows rows)).omittedPairs = 0 ∧
    (∀ s ∈ layout.sectors, s.width ≤ 5 * Real.pi / 4 → ∀ node ∈ layout.nodes,
      (∀ row ∈ styleParentRows rows, row.style = node.style → row.genre ≠ s.genre) →
      node.xy ∉ convexHull ℝ {q | q ∈ hostedPoints layout.nodes s.genre}) ∧
    ((∀ s ∈ layout.sectors, s.width ≤ 5 * Real.pi / 4) →
      (hullCheck delaunay layout.nodes (styleParentRows rows)).intrudingNodes = 0) := by
  have hdraws := buildLayout_draws Real.two_pi_pos hrows hpinned.tiled.nodup h
  refine ⟨?_, hullCheck_omitted delaunay hdraws, ?_, hullCheck_intruding delaunay hrows hpinned h⟩
  · intro row hrow
    have hparent : IsParent rows row.style row.genre :=
      isParent_mem.mp (mem_parentSet.mpr ⟨row, hrow, rfl, rfl⟩)
    obtain ⟨node, hnode, hstyle, hgenre⟩ := (hdraws.pairs _ _).mpr hparent
    refine ⟨node, hnode, hstyle, subset_convexHull ℝ _ ?_⟩
    exact List.mem_map_of_mem (List.mem_filter.mpr ⟨hnode, decide_eq_true hgenre⟩)
  · intro s hs hnarrow node hnode hlacks hhull
    have hown := hull_own hrows hpinned h hs hnarrow hnode hhull
    have hparent := (hdraws.pairs _ _).mp ⟨node, hnode, rfl, rfl⟩
    obtain ⟨row, hrow, hstyle, hgenre⟩ := mem_parentSet.mp (isParent_mem.mpr hparent)
    exact hlacks row hrow hstyle (hgenre.trans hown)

open Classical in
/- Points on a line have no triangulation. -/
noncomputable def exactDelaunay : Delaunay where
  find points :=
    if Collinear ℝ {q | q ∈ points} then none
    else some fun p => decide (p ∈ convexHull ℝ {q | q ∈ points})
  find_iff points inside h p := by
    split_ifs at h
    obtain rfl := Option.some.inj h
    exact decide_eq_true_iff

theorem hostedPoints_length {nodes : List (Node ℝ)} {genre : String}
    (h : ¬Collinear ℝ {q | q ∈ hostedPoints nodes genre}) : 3 ≤ (hostedPoints nodes genre).length := by
  by_contra hfew
  rcases hpoints : hostedPoints nodes genre with _ | ⟨p, _ | ⟨q, _ | ⟨r, rest⟩⟩⟩
  · simp [hpoints, collinear_empty] at h
  · simp [hpoints, collinear_singleton] at h
  · rw [hpoints] at h
    refine h ((collinear_pair ℝ p q).subset ?_)
    intro x hx
    simpa using hx
  · simp [hpoints] at hfew

/- Three styles in each of two genres, one of them in both. -/
noncomputable def twoGenres : List (ShareRow ℝ) :=
  [⟨"Dub", "Electronic", 1⟩, ⟨"Jungle", "Electronic", 1⟩, ⟨"Synthpop", "Electronic", 3 / 5⟩,
    ⟨"Synthpop", "Pop", 2 / 5⟩, ⟨"Bubblegum", "Pop", 1⟩, ⟨"Vocal", "Pop", 1⟩]

def twoGenresYears (style : String) : Option ℤ :=
  if style = "Jungle" then some 1991 else some 1973

def twoGenresPairs : List (String × String) :=
  [("Dub", "Electronic"), ("Jungle", "Electronic"), ("Synthpop", "Electronic"),
    ("Synthpop", "Pop"), ("Bubblegum", "Pop"), ("Vocal", "Pop")]

theorem twoGenres_nodup : (twoGenres.map ShareRow.pair).Nodup := by
  simp [twoGenres, ShareRow.pair]

theorem twoGenres_parent {style genre : String} :
    IsParent twoGenres style genre ↔ (style, genre) ∈ twoGenresPairs := by
  unfold IsParent twoGenres twoGenresPairs ShareRow.pair
  norm_num
  simp only [eq_comm]

theorem twoGenres_members {genre : String} (hgenre : genre = "Electronic" ∨ genre = "Pop") :
    ((entriesOf (styleParentRows twoGenres)).map Entry.host).count genre = 3 := by
  have hperm : ((entriesOf (styleParentRows twoGenres)).map fun e => (e.style, e.host)).Perm
      twoGenresPairs := by
    rw [List.perm_ext_iff_of_nodup (parentRows_nodup twoGenres_nodup) (by decide)]
    rintro ⟨style, genre⟩
    exact mem_parentEntries.trans twoGenres_parent
  have hhosts := (hperm.map Prod.snd).count_eq genre
  rw [List.map_map] at hhosts
  refine hhosts.trans ?_
  rcases hgenre with rfl | rfl <;> decide

theorem twoGenres_genres :
    (shareMonth twoGenres twoGenresYears).genres.Perm ["Electronic", "Pop"] := by
  rw [List.perm_ext_iff_of_nodup (nodup_genres _) (by decide)]
  intro genre
  rw [mem_shareMonth_genres]
  simp [twoGenres, eq_comm]

/-- Either sector has about half a turn. -/
theorem twoGenres_width {layout : AtlasLayout ℝ}
    (h : buildLayout realCircle (shareMonth twoGenres twoGenresYears) [] = .ok layout) {s : Sector ℝ}
    (hs : s ∈ layout.sectors) : s.width ≤ 11 / 10 * Real.pi := by
  have hnear := buildLayout_even Real.two_pi_pos (tiled_nil : Tiled realCircle []).nodup h (m := 3)
    (fun genre hgenre => twoGenres_members (by simpa using twoGenres_genres.mem_iff.mp hgenre)) hs
  have htau : realCircle.tau = 2 * Real.pi := rfl
  rw [twoGenres_genres.length_eq, htau, frameTolerance] at hnear
  norm_num at hnear
  linarith [(abs_le.mp hnear).2]

theorem twoGenres_lean {layout : AtlasLayout ℝ}
    (h : buildLayout realCircle (shareMonth twoGenres twoGenresYears) [] = .ok layout)
    (node : Node ℝ) : leanOf twoGenres layout node = toLex (0, node.style) := by
  obtain ⟨hnodup, hgenres⟩ := buildLayout_genres (tiled_nil : Tiled realCircle []).nodup h
  have hring : (ringGenres layout).length = 2 :=
    (((List.perm_ext_iff_of_nodup hnodup (nodup_genres _)).mpr hgenres).trans
      twoGenres_genres).length_eq
  have hneighbour : followingGenre (ringGenres layout) node.genre =
      precedingGenre (ringGenres layout) node.genre := by
    unfold followingGenre precedingGenre
    rw [hring]
    rfl
  rw [leanOf, hneighbour, sub_self]

/-- The youngest of the three styles in Electronic is the middle one, so they span a triangle. -/
theorem twoGenres_triangle {layout : AtlasLayout ℝ}
    (h : buildLayout realCircle (shareMonth twoGenres twoGenresYears) [] = .ok layout) :
    ¬Collinear ℝ {q | q ∈ hostedPoints layout.nodes "Electronic"} := by
  have hdraws := buildLayout_draws Real.two_pi_pos twoGenres_nodup (tiled_nil : Tiled realCircle []).nodup h
  obtain ⟨angle, radius, hplaced⟩ :=
    buildLayout_places Real.two_pi_pos twoGenres_nodup (tiled_nil : Tiled realCircle []).nodup h
  have hnode := fun style hparent =>
    (hdraws.pairs style "Electronic").mpr (twoGenres_parent.mpr hparent)
  obtain ⟨dub, hdub, hdubStyle, hdubGenre⟩ := hnode "Dub" (by decide)
  obtain ⟨jungle, hjungle, hjungleStyle, hjungleGenre⟩ := hnode "Jungle" (by decide)
  obtain ⟨synthpop, hsynthpop, hsynthpopStyle, hsynthpopGenre⟩ := hnode "Synthpop" (by decide)
  have hpoint : ∀ node ∈ layout.nodes, node.genre = "Electronic" →
      polar (radius node) (angle node) ∈ {q | q ∈ hostedPoints layout.nodes "Electronic"} := by
    intro node hnode hgenre
    have hxy : node.xy = polar (radius node) (angle node) :=
      Prod.ext (hplaced.polar node hnode).1 (hplaced.polar node hnode).2
    rw [← hxy]
    exact List.mem_map_of_mem (List.mem_filter.mpr ⟨hnode, decide_eq_true hgenre⟩)
  have hradius : ∀ node ∈ layout.nodes, 0 < radius node := fun node hnode => by
    linarith [(hplaced.between node hnode).1]
  have hspan : angle synthpop - angle dub < Real.pi := by
    obtain ⟨s, hs, hhost, hlow, -⟩ := hplaced.inside dub hdub
    obtain ⟨t, ht, hhost', -, hhigh⟩ := hplaced.inside synthpop hsynthpop
    have hsame : t = s := List.inj_on_of_nodup_map hdraws.sectors ht hs
      (hhost'.trans (hsynthpopGenre.trans (hdubGenre.symm.trans hhost.symm)))
    subst hsame
    have hwidth := twoGenres_width h ht
    rw [Sector.width] at hlow hhigh hwidth
    linarith [Real.pi_pos]
  refine not_collinear_polar (hradius dub hdub) (hradius synthpop hsynthpop) ?_ ?_ ?_ ?_ hspan
    (hpoint dub hdub hdubGenre) (hpoint jungle hjungle hjungleGenre)
    (hpoint synthpop hsynthpop hsynthpopGenre)
  · rw [hplaced.radii dub hdub jungle hjungle (hdubGenre.trans hjungleGenre.symm)]
    rw [emergenceOrder, emergenceOrder, hdubStyle, hjungleStyle]
    decide
  · rw [hplaced.radii synthpop hsynthpop jungle hjungle (hsynthpopGenre.trans hjungleGenre.symm)]
    rw [emergenceOrder, emergenceOrder, hsynthpopStyle, hjungleStyle]
    decide
  · rw [hplaced.angles dub hdub jungle hjungle (hdubGenre.trans hjungleGenre.symm)]
    rw [twoGenres_lean h, twoGenres_lean h, hdubStyle, hjungleStyle, Prod.Lex.toLex_lt_toLex]
    exact Or.inr ⟨rfl, by decide⟩
  · rw [hplaced.angles jungle hjungle synthpop hsynthpop (hjungleGenre.trans hsynthpopGenre.symm)]
    rw [twoGenres_lean h, twoGenres_lean h, hjungleStyle, hsynthpopStyle, Prod.Lex.toLex_lt_toLex]
    exact Or.inr ⟨rfl, by decide⟩

theorem hullCheck_promise_ghost : ∃ layout,
    buildLayout realCircle (shareMonth twoGenres twoGenresYears) [] = .ok layout ∧
    3 ≤ (hostedPoints layout.nodes "Electronic").length ∧
    exactDelaunay.find (hostedPoints layout.nodes "Electronic") ≠ none ∧
    (hullCheck exactDelaunay layout.nodes (styleParentRows twoGenres)).omittedPairs = 0 ∧
    (hullCheck exactDelaunay layout.nodes (styleParentRows twoGenres)).intrudingNodes = 0 := by
  cases hlayout : buildLayout realCircle (shareMonth twoGenres twoGenresYears) [] with
  | error error => exact absurd (buildLayout_error hlayout).2 (by simp [twoGenres, ringExactMaxGenres])
  | ok layout =>
    have htriangle := twoGenres_triangle hlayout
    obtain ⟨-, homitted, -, hintruding⟩ := hullCheck_promise exactDelaunay twoGenres twoGenres_nodup
      twoGenresYears [] .fresh layout hlayout
    have hnarrow : ∀ s ∈ layout.sectors, s.width ≤ 5 * Real.pi / 4 := fun s hs => by
      linarith [twoGenres_width hlayout hs, Real.pi_pos]
    refine ⟨layout, rfl, hostedPoints_length htriangle, ?_, homitted, hintruding hnarrow⟩
    simp [exactDelaunay, htriangle]

end AnalyticsEngine.StyleAtlas
