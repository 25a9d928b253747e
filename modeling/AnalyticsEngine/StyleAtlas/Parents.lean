import AnalyticsEngine.StyleAtlas.Placement

/-!
# The atlas of a share list

With one row for each style and genre, a share list reaches the layout through `shareIn` and the
parents through `Dominates`, neither of which sees the order of the rows. `buildLayout_parents` is
the layout as the parent relation has it.
-/

namespace AnalyticsEngine.StyleAtlas
open Library

variable {K : Type*} [Field K] [LinearOrder K]

/-! ### Share lists -/

def ShareRow.pair {L : Type*} (row : ShareRow L) : String × String := (row.style, row.genre)

/-- The share of a style in a genre, nothing where there is no row. -/
def shareIn (rows : List (ShareRow K)) (style genre : String) : K :=
  ((rows.find? fun row => row.pair = (style, genre)).map ShareRow.share).getD 0

def IsParent (rows : List (ShareRow K)) (style genre : String) : Prop :=
  ∃ row ∈ rows, row.pair = (style, genre) ∧ 1 / 5 ≤ row.share

/-- The parent with the highest share, the smaller name of equal ones. -/
def Dominates (rows : List (ShareRow K)) (style genre : String) : Prop :=
  IsParent rows style genre ∧ ∀ other, IsParent rows style other → other ≠ genre →
    shareIn rows style other < shareIn rows style genre ∨
      (shareIn rows style other = shareIn rows style genre ∧ genre < other)

/- The inputs of a layout from a share list. -/
def shareMonth (rows : List (ShareRow K)) (emergence : String → Option ℤ) : Month K where
  shares := sharesOf rows
  parents := styleParentRows rows
  emergence := emergence

section
variable {rows : List (ShareRow K)} {row : ShareRow K} {style genre : String}

omit [LinearOrder K] in
theorem shareIn_of_mem (hrows : (rows.map ShareRow.pair).Nodup) (hrow : row ∈ rows) :
    shareIn rows row.style row.genre = row.share := by
  unfold shareIn
  cases hfind : rows.find? fun other => other.pair = (row.style, row.genre) with
  | none =>
    have hnone := List.find?_eq_none.mp hfind row hrow
    exact absurd (decide_eq_true rfl) hnone
  | some other =>
    have hfound := List.find?_some hfind
    have hpair := of_decide_eq_true hfound
    rw [List.inj_on_of_nodup_map hrows (List.mem_of_find?_eq_some hfind) hrow hpair]
    rfl

omit [LinearOrder K] in
theorem shareIn_of_not_mem (hnone : (style, genre) ∉ rows.map ShareRow.pair) :
    shareIn rows style genre = 0 := by
  unfold shareIn
  have hfind : rows.find? (fun row => row.pair = (style, genre)) = none := by
    rw [List.find?_eq_none]
    intro row hrow hpair
    exact hnone (List.mem_map.mpr ⟨row, hrow, of_decide_eq_true hpair⟩)
  rw [hfind]
  rfl

omit [LinearOrder K] in
/-- The order of the rows is not in their shares. -/
theorem shareIn_perm {rows' : List (ShareRow K)} (hrows : (rows.map ShareRow.pair).Nodup)
    (hperm : rows.Perm rows') : shareIn rows' style genre = shareIn rows style genre := by
  have hrows' := (hperm.map ShareRow.pair).nodup_iff.mp hrows
  by_cases hpair : (style, genre) ∈ rows.map ShareRow.pair
  · obtain ⟨row, hrow, heq⟩ := List.mem_map.mp hpair
    obtain ⟨rfl, rfl⟩ := Prod.mk.inj heq
    rw [shareIn_of_mem hrows hrow, shareIn_of_mem hrows' (hperm.mem_iff.mp hrow)]
  · rw [shareIn_of_not_mem hpair, shareIn_of_not_mem fun h =>
      hpair ((hperm.map ShareRow.pair).mem_iff.mpr h)]

/-! ### The nested dictionary -/

theorem sharesOf_concat {L : Type*} (rows : List (ShareRow L)) (row : ShareRow L) :
    sharesOf (rows ++ [row]) = addShare (sharesOf rows) row := by
  unfold sharesOf
  rw [List.foldl_append]
  rfl

omit [LinearOrder K] in
theorem shareOf_addShare (shares : Shares K) :
    shareOf (addShare shares row) style genre =
      if row.pair = (style, genre) then row.share else shareOf shares style genre := by
  unfold shareOf addShare ShareRow.pair
  by_cases hstyle : style = row.style
  · subst hstyle
    rw [AList.lookup_insert]
    by_cases hgenre : genre = row.genre
    · subst hgenre
      simp only [AList.lookup_insert, if_true, Option.getD_some]
    · have hpair : ¬(row.style, row.genre) = (row.style, genre) := by
        intro heq
        exact hgenre (Prod.mk.inj heq).2.symm
      simp only [AList.lookup_insert_ne hgenre, if_neg hpair]
      cases shares.lookup row.style with
      | none => rfl
      | some styleShares => rfl
  · have hpair : ¬(row.style, row.genre) = (style, genre) := by
      intro heq
      exact hstyle (Prod.mk.inj heq).1.symm
    rw [AList.lookup_insert_ne hstyle, if_neg hpair]

omit [LinearOrder K] in
theorem shareOf_sharesOf (hrows : (rows.map ShareRow.pair).Nodup) (style genre : String) :
    shareOf (sharesOf rows) style genre = shareIn rows style genre := by
  induction rows using List.reverseRecOn with
  | nil => rfl
  | append_singleton rows row ih =>
    rw [List.map_append, List.nodup_append] at hrows
    obtain ⟨hearlier, -, hnew⟩ := hrows
    rw [sharesOf_concat, shareOf_addShare, ih hearlier]
    unfold shareIn
    rw [List.find?_append, List.find?_singleton]
    by_cases hpair : row.pair = (style, genre)
    · have hnone : rows.find? (fun row => row.pair = (style, genre)) = none := by
        rw [List.find?_eq_none]
        intro other hother hsame
        exact hnew other.pair (List.mem_map_of_mem hother) row.pair List.mem_cons_self
          ((of_decide_eq_true hsame).trans hpair.symm)
      rw [if_pos hpair, hnone]
      simp [hpair]
    · simp [hpair]

theorem mem_sharesOf_keys {L : Type*} {rows : List (ShareRow L)} {style : String} :
    style ∈ (sharesOf rows).keys ↔ ∃ row ∈ rows, row.style = style := by
  rw [← AList.mem_keys]
  induction rows using List.reverseRecOn with
  | nil => simp [sharesOf]
  | append_singleton rows row ih =>
    rw [sharesOf_concat]
    unfold addShare
    rw [AList.mem_insert, ih]
    simp only [List.mem_append, List.mem_singleton, or_and_right, exists_or, exists_eq_left]
    rw [or_comm, eq_comm]

theorem mem_entries_iff {L : Type*} {shares : Shares L} {genre : String} :
    (∃ e ∈ shares.entries, genre ∈ e.2.keys) ↔
      ∃ style, ∃ styleShares ∈ shares.lookup style, genre ∈ styleShares := by
  constructor
  · rintro ⟨⟨style, styleShares⟩, hentry, hgenre⟩
    exact ⟨style, styleShares, AList.mem_lookup_iff.mpr hentry, AList.mem_keys.mpr hgenre⟩
  · rintro ⟨style, styleShares, hlookup, hgenre⟩
    exact ⟨⟨style, styleShares⟩, AList.mem_lookup_iff.mp hlookup, AList.mem_keys.mp hgenre⟩

theorem mem_sharesOf_genres {L : Type*} {rows : List (ShareRow L)} {genre : String} :
    (∃ e ∈ (sharesOf rows).entries, genre ∈ e.2.keys) ↔ ∃ row ∈ rows, row.genre = genre := by
  rw [mem_entries_iff]
  induction rows using List.reverseRecOn with
  | nil => simp [sharesOf]
  | append_singleton rows row ih =>
    simp only [List.mem_append, List.mem_singleton, or_and_right, exists_or, exists_eq_left]
    rw [sharesOf_concat, ← ih]
    unfold addShare
    constructor
    · rintro ⟨style, styleShares, hlookup, hgenre⟩
      by_cases hstyle : style = row.style
      · subst hstyle
        rw [AList.lookup_insert, Option.mem_some_iff] at hlookup
        subst hlookup
        rcases (AList.mem_insert _).mp hgenre with rfl | hold
        · exact Or.inr rfl
        · cases hfound : (sharesOf rows).lookup row.style with
          | none =>
            rw [hfound] at hold
            exact absurd hold (AList.notMem_empty _)
          | some styleShares =>
            rw [hfound] at hold
            exact Or.inl ⟨row.style, styleShares, hfound, hold⟩
      · rw [AList.lookup_insert_ne hstyle] at hlookup
        exact Or.inl ⟨style, styleShares, hlookup, hgenre⟩
    · rintro (⟨style, styleShares, hlookup, hgenre⟩ | rfl)
      · by_cases hstyle : style = row.style
        · subst hstyle
          rw [Option.mem_def] at hlookup
          refine ⟨row.style, _, AList.lookup_insert _, ?_⟩
          rw [hlookup]
          exact (AList.mem_insert _).mpr (Or.inr hgenre)
        · refine ⟨style, styleShares, ?_, hgenre⟩
          rw [AList.lookup_insert_ne hstyle]
          exact hlookup
      · exact ⟨row.style, _, AList.lookup_insert _, (AList.mem_insert _).mpr (Or.inl rfl)⟩

/-! ### The parent rows -/

theorem mem_parentShares {p : String × K} : p ∈ parentShares rows style ↔
    ∃ row ∈ rows, row.pair = (style, p.1) ∧ 1 / 5 ≤ row.share ∧ row.share = p.2 := by
  unfold parentShares keptShares styleParentMinShare ShareRow.pair
  simp only [List.mem_map, List.mem_filter, decide_eq_true_iff]
  constructor
  · rintro ⟨row, ⟨⟨hrow, hmin⟩, rfl⟩, rfl⟩
    exact ⟨row, hrow, rfl, hmin, rfl⟩
  · rintro ⟨row, hrow, hpair, hmin, hshare⟩
    obtain ⟨rfl, hgenre⟩ := Prod.mk.inj hpair
    exact ⟨row, ⟨⟨hrow, hmin⟩, rfl⟩, Prod.ext hgenre hshare⟩

theorem parentShares_perm {rows' : List (ShareRow K)} (hperm : rows.Perm rows') (style : String) :
    (parentShares rows style).Perm (parentShares rows' style) := by
  unfold parentShares keptShares
  exact ((hperm.filter _).filter _).map _

/-- Keys that tell the pairs apart have one least pair in any order. -/
theorem argmin_perm {α β : Type*} [LinearOrder β] {f : α → β} (hf : Function.Injective f)
    {l l' : List α} (hperm : l.Perm l') : l.argmin f = l'.argmin f := by
  cases hl : l.argmin f with
  | none =>
    rw [List.argmin_eq_none] at hl
    subst hl
    rw [hperm.symm.eq_nil]
    rfl
  | some a =>
    cases hl' : l'.argmin f with
    | none =>
      rw [List.argmin_eq_none] at hl'
      subst hl'
      exact absurd (List.argmin_mem hl) (by rw [hperm.eq_nil]; exact List.not_mem_nil)
    | some b =>
      have hab := List.le_of_mem_argmin (hperm.mem_iff.mpr (List.argmin_mem hl')) hl
      have hba := List.le_of_mem_argmin (hperm.mem_iff.mp (List.argmin_mem hl)) hl'
      rw [hf (le_antisymm hab hba)]

omit [LinearOrder K] in
theorem dominanceKey_injective :
    Function.Injective fun p : String × K => toLex (-p.2, p.1) := by
  intro p q hpq
  have hpair := Prod.mk.inj (toLex.injective hpq)
  exact Prod.ext hpair.2 (neg_injective hpair.1)

theorem dominantGenre_perm {rows' : List (ShareRow K)} (hperm : rows.Perm rows') (style : String) :
    dominantGenre rows style = dominantGenre rows' style := by
  unfold dominantGenre
  rw [argmin_perm dominanceKey_injective (parentShares_perm hperm style)]

theorem insertionSort_perm {α β : Type*} [LinearOrder β] {f : α → β} (hf : Function.Injective f)
    {l l' : List α} (hperm : l.Perm l') :
    l.insertionSort (fun a b => f a ≤ f b) = l'.insertionSort fun a b => f a ≤ f b := by
  have hsorted := fun l => List.pairwise_insertionSort (fun a b : α => f a ≤ f b) l
  have hsame : (l.insertionSort fun a b => f a ≤ f b).Perm (l'.insertionSort fun a b => f a ≤ f b) :=
    (List.perm_insertionSort _ _).trans (hperm.trans (List.perm_insertionSort _ _).symm)
  refine hsame.eq_of_pairwise ?_ (hsorted l) (hsorted l')
  intro a b _ _ hab hba
  exact hf (le_antisymm hab hba)

theorem styleParentRows_perm {rows' : List (ShareRow K)} (hperm : rows.Perm rows') :
    styleParentRows rows = styleParentRows rows' := by
  have hkept : (keptShares rows).Perm (keptShares rows') := hperm.filter _
  unfold styleParentRows
  simp only
  rw [List.toFinset_eq_of_perm _ _ (hkept.map ShareRow.style)]
  congr 1
  funext style
  rw [insertionSort_perm toLex.injective (parentShares_perm hperm style),
    dominantGenre_perm hperm style]

theorem parentRows_nodup (hrows : (rows.map ShareRow.pair).Nodup) :
    ((entriesOf (styleParentRows rows)).map fun e => (e.style, e.host)).Nodup := by
  unfold entriesOf styleParentRows
  simp only [List.map_flatMap, List.map_map]
  rw [List.nodup_flatMap]
  refine ⟨?_, ?_⟩
  · intro style _
    have hgenres : ((parentShares rows style).map Prod.fst).Nodup := by
      unfold parentShares keptShares
      rw [List.map_map]
      have hkept := ((hrows.of_map _).filter fun row => decide (styleParentMinShare ≤ row.share)).filter
        fun row => decide (row.style = style)
      rw [List.nodup_map_iff_inj_on hkept]
      intro row hrow other hother hgenre
      simp only [List.mem_filter, decide_eq_true_iff] at hrow hother
      exact List.inj_on_of_nodup_map hrows hrow.1.1 hother.1.1
        (Prod.ext (hrow.2.trans hother.2.symm) hgenre)
    have hsorted := ((List.perm_insertionSort (fun p q => toLex p ≤ toLex q)
      (parentShares rows style)).map Prod.fst).nodup_iff.mpr hgenres
    have hpairs := hsorted.map (Prod.mk_right_injective style)
    rw [List.map_map] at hpairs
    exact hpairs
  · apply List.Pairwise.imp_of_mem _ (Finset.sort_nodup _ _)
    intro style other _ _ hne
    apply List.disjoint_left.mpr
    intro pair hpair hpair'
    obtain ⟨p, _, rfl⟩ := List.mem_map.mp hpair
    obtain ⟨q, _, heq⟩ := List.mem_map.mp hpair'
    exact hne (Prod.mk.inj heq).1.symm

/-- The parents are the shares at the threshold. -/
theorem mem_parentEntries {style genre : String} :
    (style, genre) ∈ (entriesOf (styleParentRows rows)).map (fun e => (e.style, e.host)) ↔
      IsParent rows style genre := by
  unfold entriesOf IsParent ShareRow.pair
  simp only [List.mem_map]
  constructor
  · rintro ⟨e, ⟨row, hrow, rfl⟩, heq⟩
    obtain ⟨share, hshare, hmin, rfl⟩ := mem_styleParentRows.mp hrow
    exact ⟨share, hshare, heq, hmin⟩
  · rintro ⟨share, hshare, heq, hmin⟩
    exact ⟨_, ⟨_, mem_styleParentRows.mpr ⟨share, hshare, hmin, rfl⟩, rfl⟩, heq⟩

theorem dominates_unique {other : String} (h : Dominates rows style genre)
    (hother : Dominates rows style other) : genre = other := by
  by_contra hne
  rcases h.2 other hother.1 (Ne.symm hne) with hlt | ⟨heq, hlt⟩
  · rcases hother.2 genre h.1 hne with hlt' | ⟨heq', _⟩
    · exact absurd hlt hlt'.asymm
    · exact absurd heq' hlt.ne'
  · rcases hother.2 genre h.1 hne with hlt' | ⟨_, hlt'⟩
    · exact absurd heq hlt'.ne'
    · exact absurd hlt hlt'.asymm

variable [IsStrictOrderedRing K]

theorem dominantGenre_dominates (hrows : (rows.map ShareRow.pair).Nodup)
    (hparent : IsParent rows style genre) : Dominates rows style (dominantGenre rows style) := by
  have hshare : ∀ p ∈ parentShares rows style, shareIn rows style p.1 = p.2 := by
    intro p hp
    obtain ⟨row, hrow, hpair, -, hshare⟩ := mem_parentShares.mp hp
    obtain ⟨rfl, hgenre⟩ := Prod.mk.inj hpair
    rw [← hgenre, shareIn_of_mem hrows hrow, hshare]
  unfold dominantGenre
  cases hmin : (parentShares rows style).argmin fun p => toLex (-p.2, p.1) with
  | none =>
    rw [List.argmin_eq_none] at hmin
    obtain ⟨row, hrow, hpair, hthreshold⟩ := hparent
    have hmem : (genre, row.share) ∈ parentShares rows style :=
      mem_parentShares.mpr ⟨row, hrow, hpair, hthreshold, rfl⟩
    rw [hmin] at hmem
    cases hmem
  | some p =>
    have hp := List.argmin_mem hmin
    obtain ⟨row, hrow, hpair, hthreshold, -⟩ := mem_parentShares.mp hp
    refine ⟨⟨row, hrow, hpair, hthreshold⟩, ?_⟩
    rintro other ⟨row', hrow', hpair', hthreshold'⟩ hne
    have hq : (other, row'.share) ∈ parentShares rows style :=
      mem_parentShares.mpr ⟨row', hrow', hpair', hthreshold', rfl⟩
    have hle := List.le_of_mem_argmin hq hmin
    rw [Prod.Lex.toLex_le_toLex] at hle
    have hother := hshare _ hq
    simp only at hother
    rw [Option.map_some, Option.getD_some, hshare p hp, hother]
    rcases hle with hlt | ⟨heq, hname⟩
    · exact Or.inl (neg_lt_neg_iff.mp hlt)
    · exact Or.inr ⟨(neg_inj.mp heq).symm, lt_of_le_of_ne hname (Ne.symm hne)⟩

theorem eq_dominantGenre_iff (hrows : (rows.map ShareRow.pair).Nodup)
    (hparent : IsParent rows style genre) :
    genre = dominantGenre rows style ↔ Dominates rows style genre := by
  have hdominates := dominantGenre_dominates hrows hparent
  constructor
  · intro heq
    rw [heq]
    exact hdominates
  · intro h
    exact dominates_unique h hdominates

end

/-! ### The layout of a share list -/

section
variable {rows : List (ShareRow K)} {emergence : String → Option ℤ}

theorem mem_shareMonth_genres {genre : String} :
    genre ∈ (shareMonth rows emergence).genres ↔ ∃ row ∈ rows, row.genre = genre := by
  rw [mem_genres]
  unfold shareMonth
  rw [mem_sharesOf_genres, or_iff_left_of_imp]
  rintro ⟨row, hrow, rfl⟩
  obtain ⟨share, hshare, -, rfl⟩ := mem_styleParentRows.mp hrow
  exact ⟨share, hshare, rfl⟩

omit [Field K] [LinearOrder K] in
theorem genres_congr {month month' : Month K}
    (h : ∀ genre, genre ∈ month.genres ↔ genre ∈ month'.genres) : month.genres = month'.genres := by
  unfold Month.genres at h ⊢
  congr 1
  ext genre
  have hgenre := h genre
  rw [Finset.mem_sort, Finset.mem_sort] at hgenre
  exact hgenre

/-- A layout reads the shares, their styles in order, and the genres. -/
theorem buildLayout_congr (circle : Circle K) {month month' : Month K} (pinned : List (Sector K))
    (hshares : shareOf month.shares = shareOf month'.shares)
    (hkeys : month.shares.keys.insertionSort (· ≤ ·) = month'.shares.keys.insertionSort (· ≤ ·))
    (hgenres : month.genres = month'.genres) (hparents : month.parents = month'.parents)
    (hemergence : month.emergence = month'.emergence) :
    buildLayout circle month pinned = buildLayout circle month' pinned := by
  have hweight : genreAffinity month.genres month.shares =
      genreAffinity month'.genres month'.shares := by
    unfold genreAffinity
    rw [hgenres, hshares, hkeys]
  have hring : monthRing month pinned = monthRing month' pinned := by
    unfold monthRing
    rw [hweight, hgenres]
  have hnodes : sectorNodes circle month = sectorNodes circle month' := by
    unfold sectorNodes
    rw [hshares, hparents, hemergence]
  unfold buildLayout
  rw [hring, hnodes, hparents]

theorem shareMonth_perm (circle : Circle K) {rows' : List (ShareRow K)} (pinned : List (Sector K))
    (hrows : (rows.map ShareRow.pair).Nodup) (hperm : rows.Perm rows') :
    buildLayout circle (shareMonth rows' emergence) pinned =
      buildLayout circle (shareMonth rows emergence) pinned := by
  have hrows' := (hperm.map ShareRow.pair).nodup_iff.mp hrows
  apply buildLayout_congr
  · funext style genre
    unfold shareMonth
    rw [shareOf_sharesOf hrows, shareOf_sharesOf hrows', shareIn_perm hrows hperm]
  · apply insertionSort_perm Function.injective_id
    rw [List.perm_ext_iff_of_nodup (AList.keys_nodup _) (AList.keys_nodup _)]
    intro style
    unfold shareMonth
    simp only [mem_sharesOf_keys, hperm.mem_iff]
  · apply genres_congr
    intro genre
    simp only [mem_shareMonth_genres, hperm.mem_iff]
  · exact (styleParentRows_perm hperm).symm
  · rfl

def ringGenres {L : Type*} (layout : AtlasLayout L) : List String := layout.sectors.map Sector.genre

/-- How much more a style leans to the following neighbour than to the preceding one. -/
def leanOf (rows : List (ShareRow K)) (layout : AtlasLayout K) (node : Node K) : K ×ₗ String :=
  toLex (shareIn rows node.style (followingGenre (ringGenres layout) node.genre) -
    shareIn rows node.style (precedingGenre (ringGenres layout) node.genre), node.style)

def emergenceOrder {L : Type*} (emergence : String → Option ℤ) (node : Node L) : WithTop ℤ ×ₗ String :=
  toLex (emergenceKey (emergence node.style), node.style)

/-- One node for each parent, of the kind the shares say. -/
structure DrawsParents (rows : List (ShareRow K)) (layout : AtlasLayout K) : Prop where
  sectors : (layout.sectors.map Sector.genre).Nodup
  once : (layout.nodes.map fun node => (node.style, node.genre)).Nodup
  pairs : ∀ style genre, (∃ node ∈ layout.nodes, node.style = style ∧ node.genre = genre) ↔
    IsParent rows style genre
  kinds : ∀ node ∈ layout.nodes, node.kind = .style ↔ Dominates rows node.style node.genre
  host : ∀ style genre, IsParent rows style genre →
    ∃! node, node ∈ layout.nodes ∧ node.style = style ∧ node.kind = .style
  ghost : ∀ style genre, IsParent rows style genre → ¬Dominates rows style genre →
    ∃! node, node ∈ layout.nodes ∧ node.style = style ∧ node.genre = genre ∧ node.kind = .ghost

/-- The angle and the radius of every node. -/
structure NodesPlaced (circle : Circle K) (rows : List (ShareRow K)) (emergence : String → Option ℤ)
    (layout : AtlasLayout K) (angle radius : Node K → K) : Prop where
  polar : ∀ node ∈ layout.nodes, node.x = radius node * circle.cos (angle node) ∧
    node.y = radius node * circle.sin (angle node)
  inside : ∀ node ∈ layout.nodes, ∃ s ∈ layout.sectors, s.genre = node.genre ∧
    s.start + s.width / 10 < angle node ∧ angle node < s.stop - s.width / 10
  between : ∀ node ∈ layout.nodes, 35 / 100 < radius node ∧ radius node < 95 / 100
  angles : ∀ m ∈ layout.nodes, ∀ n ∈ layout.nodes, m.genre = n.genre →
    (angle m < angle n ↔ leanOf rows layout m < leanOf rows layout n)
  radii : ∀ m ∈ layout.nodes, ∀ n ∈ layout.nodes, m.genre = n.genre →
    (radius m < radius n ↔ emergenceOrder emergence m < emergenceOrder emergence n)
  apart : ∀ m ∈ layout.nodes, ∀ n ∈ layout.nodes, m.genre = n.genre → m ≠ n →
    angle m ≠ angle n ∧ radius m ≠ radius n

variable [IsStrictOrderedRing K] {circle : Circle K} {pinned : List (Sector K)}
  {layout : AtlasLayout K}

theorem buildLayout_draws (htau : 0 < circle.tau) (hrows : (rows.map ShareRow.pair).Nodup)
    (hpinned : (pinned.map Sector.genre).Nodup)
    (h : buildLayout circle (shareMonth rows emergence) pinned = .ok layout) :
    DrawsParents rows layout := by
  have hentries := buildLayout_entries hpinned h
  have hparents : (shareMonth rows emergence).parents = styleParentRows rows := rfl
  rw [hparents] at hentries
  have hpairs : ∀ style genre, (∃ node ∈ layout.nodes, node.style = style ∧ node.genre = genre) ↔
      IsParent rows style genre := by
    intro style genre
    rw [← mem_parentEntries]
    simp only [List.mem_map, ← hentries]
    constructor
    · rintro ⟨node, hnode, rfl, rfl⟩
      exact ⟨node.entry, ⟨node, hnode, rfl⟩, rfl⟩
    · rintro ⟨_, ⟨node, hnode, rfl⟩, heq⟩
      exact ⟨node, hnode, (Prod.mk.inj heq).1, (Prod.mk.inj heq).2⟩
  have hkinds : ∀ node ∈ layout.nodes, node.kind = .style ↔ Dominates rows node.style node.genre := by
    intro node hnode
    have hparent := (hpairs node.style node.genre).mp ⟨node, hnode, rfl, rfl⟩
    rw [← eq_dominantGenre_iff hrows hparent]
    obtain ⟨row, hrow, heq⟩ := List.mem_map.mp ((hentries node.entry).mp (List.mem_map_of_mem hnode))
    obtain ⟨share, -, -, rfl⟩ := mem_styleParentRows.mp hrow
    obtain ⟨hkind, hstyle, hgenre⟩ := Entry.mk.inj heq
    rw [← hkind, ← hstyle, ← hgenre]
    simp only [decide_eq_true_iff]
    split_ifs with hdominant
    · exact iff_of_true rfl hdominant
    · exact iff_of_false (fun hkind => nomatch hkind) hdominant
  have honce : (layout.nodes.map fun node => (node.style, node.genre)).Nodup := by
    have hnodup := parentRows_nodup hrows
    rw [← hparents] at hnodup
    obtain ⟨frames, -, -, hnodes⟩ := buildLayout_nodes htau hpinned h hnodup
    rw [(hnodes.map fun node => (node.style, node.genre)).nodup_iff, List.map_map]
    exact hnodup
  have hsame : ∀ m ∈ layout.nodes, ∀ n ∈ layout.nodes, m.style = n.style → m.genre = n.genre →
      m = n := fun m hm n hn hstyle hgenre =>
    List.inj_on_of_nodup_map honce hm hn (Prod.ext hstyle hgenre)
  refine ⟨(buildLayout_genres hpinned h).1, honce, hpairs, hkinds, ?_, ?_⟩
  · intro style genre hparent
    have hdominates := dominantGenre_dominates hrows hparent
    obtain ⟨node, hnode, rfl, hgenre⟩ := (hpairs style _).mpr hdominates.1
    rw [← hgenre] at hdominates
    refine ⟨node, ⟨hnode, rfl, (hkinds node hnode).mpr hdominates⟩, ?_⟩
    rintro other ⟨hother, hstyle, hkind⟩
    have hdominates' := (hkinds other hother).mp hkind
    rw [hstyle] at hdominates'
    exact hsame other hother node hnode hstyle (dominates_unique hdominates' hdominates)
  · intro style genre hparent hsecondary
    obtain ⟨node, hnode, rfl, rfl⟩ := (hpairs style genre).mpr hparent
    have hkind : node.kind = .ghost := by
      cases hkind : node.kind with
      | style => exact absurd ((hkinds node hnode).mp hkind) hsecondary
      | ghost => rfl
    refine ⟨node, ⟨hnode, rfl, rfl, hkind⟩, ?_⟩
    rintro other ⟨hother, hstyle, hgenre, -⟩
    exact hsame other hother node hnode hstyle hgenre

/-- Values that are ordered as their keys differ where the keys do. -/
theorem ne_of_lt_iff {α β : Type*} [LinearOrder α] [LinearOrder β] {a b : α} {p q : β}
    (hlt : a < b ↔ p < q) (hgt : b < a ↔ q < p) (hne : p ≠ q) : a ≠ b := by
  intro heq
  have hleft := hlt.not.mp heq.not_lt
  have hright := hgt.not.mp heq.not_gt
  exact hne (le_antisymm (not_lt.mp hright) (not_lt.mp hleft))

omit [IsStrictOrderedRing K] in
/-- What a node of the layout is an entry of. -/
theorem placed_entry {frames : String → K × K} (hpinned : (pinned.map Sector.genre).Nodup)
    (h : buildLayout circle (shareMonth rows emergence) pinned = .ok layout)
    (hnodes : layout.nodes.Perm ((entriesOf (shareMonth rows emergence).parents).map
      (placedNode circle (shareMonth rows emergence) (ringGenres layout) frames)))
    {node : Node K} (hnode : node ∈ layout.nodes) :
    node = placedNode circle (shareMonth rows emergence) (ringGenres layout) frames node.entry ∧
      node.style ∈ hostedStyles (shareMonth rows emergence) node.genre ∧
      ∃ s ∈ layout.sectors, s.genre = node.genre := by
  have hgenres := (buildLayout_genres hpinned h).2
  obtain ⟨e, he, rfl⟩ := List.mem_map.mp (hnodes.mem_iff.mp hnode)
  refine ⟨rfl, ?_, ?_⟩
  · exact List.mem_map.mpr ⟨e, List.mem_filter.mpr ⟨he, decide_eq_true rfl⟩, rfl⟩
  · obtain ⟨row, hrow, rfl⟩ := List.mem_map.mp he
    exact List.mem_map.mp ((hgenres row.genre).mpr (mem_genres.mpr (Or.inr ⟨row, hrow, rfl⟩)))

theorem buildLayout_places (htau : 0 < circle.tau) (hrows : (rows.map ShareRow.pair).Nodup)
    (hpinned : (pinned.map Sector.genre).Nodup)
    (h : buildLayout circle (shareMonth rows emergence) pinned = .ok layout) :
    ∃ angle radius, NodesPlaced circle rows emergence layout angle radius := by
  have hnodup := parentRows_nodup hrows
  obtain ⟨frames, hframes, hwidths, hnodes⟩ :=
    buildLayout_nodes htau hpinned h hnodup
  have hentry := fun node (hnode : node ∈ layout.nodes) => placed_entry hpinned h hnodes hnode
  have hwidth : ∀ node ∈ layout.nodes, 0 < (frames node.genre).2 - (frames node.genre).1 := by
    intro node hnode
    obtain ⟨-, -, s, hs, hgenre⟩ := hentry node hnode
    obtain ⟨hstart, hstop⟩ := hframes s hs
    rw [← hgenre, ← hstart, ← hstop]
    exact sub_pos.mpr (hwidths s hs)
  have hstyles : ∀ genre, (hostedStyles (shareMonth rows emergence) genre).Nodup :=
    hostedStyles_nodup hnodup
  have hlean : ∀ node : Node K, leanKey (shareMonth rows emergence) (ringGenres layout) node.genre
      node.style = leanOf rows layout node := by
    intro node
    unfold leanKey leanOf shareMonth
    rw [shareOf_sharesOf hrows, shareOf_sharesOf hrows]
  have hangles : ∀ m ∈ layout.nodes, ∀ n ∈ layout.nodes, m.genre = n.genre →
      (nodeAngle (shareMonth rows emergence) (ringGenres layout) frames m.genre m.style <
        nodeAngle (shareMonth rows emergence) (ringGenres layout) frames n.genre n.style ↔
      leanOf rows layout m < leanOf rows layout n) := by
    intro m hm n hn hgenre
    have hown := (hentry m hm).2.1
    rw [hgenre] at hown
    rw [← hlean m, ← hlean n, hgenre]
    exact nodeAngle_lt_iff (hwidth n hn) (hstyles n.genre) hown (hentry n hn).2.1
  have hradii : ∀ m ∈ layout.nodes, ∀ n ∈ layout.nodes, m.genre = n.genre →
      ((nodeRadius (shareMonth rows emergence) m.genre m.style : K) <
        nodeRadius (shareMonth rows emergence) n.genre n.style ↔
      emergenceOrder emergence m < emergenceOrder emergence n) := by
    intro m hm n hn hgenre
    have hown := (hentry m hm).2.1
    rw [hgenre] at hown
    rw [hgenre]
    exact nodeRadius_lt_iff (hstyles n.genre) hown (hentry n hn).2.1
  have hdraws := buildLayout_draws htau hrows hpinned h
  refine ⟨fun node => nodeAngle (shareMonth rows emergence) (ringGenres layout) frames node.genre
      node.style, fun node => nodeRadius (shareMonth rows emergence) node.genre node.style,
    ?_, ?_, ?_, hangles, hradii, ?_⟩
  · intro node hnode
    have hplaced := (hentry node hnode).1
    exact ⟨congrArg Node.x hplaced, congrArg Node.y hplaced⟩
  · intro node hnode
    obtain ⟨-, hstyle, s, hs, hgenre⟩ := hentry node hnode
    obtain ⟨hstart, hstop⟩ := hframes s hs
    have hinside := nodeAngle_inside (ringGenres layout) (hwidth node hnode) hstyle
    rw [← hgenre, ← hstart, ← hstop] at hinside
    refine ⟨s, hs, hgenre, ?_⟩
    rw [← hgenre]
    exact hinside
  · intro node hnode
    exact nodeRadius_inside (hentry node hnode).2.1
  · intro m hm n hn hgenre hne
    have hstyle : m.style ≠ n.style := fun hstyle =>
      hne (List.inj_on_of_nodup_map hdraws.once hm hn (Prod.ext hstyle hgenre))
    have hleans : leanOf rows layout m ≠ leanOf rows layout n := fun hkey =>
      hstyle (congrArg (fun key => (ofLex key).2) hkey)
    have horder : emergenceOrder emergence m ≠ emergenceOrder emergence n := fun hkey =>
      hstyle (congrArg (fun key => (ofLex key).2) hkey)
    exact ⟨ne_of_lt_iff (hangles m hm n hn hgenre) (hangles n hn m hm hgenre.symm) hleans,
      ne_of_lt_iff (hradii m hm n hn hgenre) (hradii n hn m hm hgenre.symm) horder⟩

omit [IsStrictOrderedRing K] in
theorem buildLayout_error {error : AtlasError}
    (h : buildLayout circle (shareMonth rows emergence) pinned = .error error) :
    pinned = [] ∧ ringExactMaxGenres < (rows.map ShareRow.genre).toFinset.card := by
  have hcard : (shareMonth rows emergence).genres.length = (rows.map ShareRow.genre).toFinset.card := by
    rw [← List.toFinset_card_of_nodup (nodup_genres _)]
    congr 1
    ext genre
    rw [List.mem_toFinset, List.mem_toFinset, mem_shareMonth_genres, List.mem_map]
  unfold buildLayout monthRing at h
  by_cases hfresh : pinned = []
  · refine ⟨hfresh, ?_⟩
    by_contra hfew
    rw [← hcard] at hfew
    obtain ⟨order, horder⟩ := ringOrder_ok (genreAffinity (shareMonth rows emergence).genres
      (shareMonth rows emergence).shares) (not_lt.mp hfew)
    simp only at h
    rw [if_neg (not_not_intro hfresh), horder] at h
    cases h
  · simp only at h
    rw [if_pos hfresh] at h
    cases h

end

end AnalyticsEngine.StyleAtlas
