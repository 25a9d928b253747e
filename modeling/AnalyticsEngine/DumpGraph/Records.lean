import AnalyticsEngine.DumpGraph.Chunks
import AnalyticsEngine.Embeddings.Csr
import AnalyticsEngine.Library.Upsert
import Mathlib.Data.Finset.Image

/-!
# Reading records (scripts/embeddings_from_dump.py)

What one release or master adds to the partial `same_as` map and to the edges of its chunk. A
record is read the same way whatever was read before it (`parseRelease_append`,
`parseMaster_append`), and the order in which a set is iterated changes the order of its edges only
(`parseRelease_same`).
-/

namespace AnalyticsEngine.DumpGraph
open Library Library.Xml Embeddings

/-- The white space of `str.strip()`. -/
def isWhitespace (c : Char) : Bool :=
  let n := c.toNat
  (0x09 ≤ n && n ≤ 0x0D) || (0x1C ≤ n && n ≤ 0x20) || n = 0x85 || n = 0xA0 || n = 0x1680 ||
    (0x2000 ≤ n && n ≤ 0x200A) || n = 0x2028 || n = 0x2029 || n = 0x202F || n = 0x205F || n = 0x3000

/-- `_usable_id`. -/
def usableId (value : Option Str) : Option Str :=
  value.bind fun value =>
    let text := strip isWhitespace value
    if text = [] ∨ text = ['0'] then none else some text

def artistIds : Option Element → List Str
  | none => []
  | some container => (container.findall "artist".toList).filterMap fun artist =>
      usableId ((artist.find "id".toList).map Element.text)

/-- A name, a role and the id beside them. -/
structure Credit where
  name : Str
  role : Str
  xmlId : Option Str

def releaseExtraartists : Option Element → List Credit
  | none => []
  | some container => (container.findall "artist".toList).filterMap fun artist =>
      match artist.findtext "name".toList, artist.findtext "role".toList with
      | some name, some role =>
        if name = [] ∨ role = [] then none
        else some ⟨name, role, usableId ((artist.find "id".toList).map Element.text)⟩
      | _, _ => none

/-- A credit with its 1-based places; the second one is 0 on the track itself. -/
structure TrackCredit where
  trackOrdinal : ℕ
  subTrackOrdinal : ℕ
  credit : Credit

def subTracks (track : Element) : List Element :=
  match track.find "sub_tracks".toList with
  | none => []
  | some container => container.findall "track".toList

def iterTrackCredits : Option Element → List TrackCredit
  | none => []
  | some tracklist => ((tracklist.findall "track".toList).zipIdx 1).flatMap fun track =>
      (releaseExtraartists (track.1.find "extraartists".toList)).map (TrackCredit.mk track.2 0) ++
        ((subTracks track.1).zipIdx 1).flatMap fun subTrack =>
          (releaseExtraartists (subTrack.1.find "extraartists".toList)).map
            (TrackCredit.mk track.2 subTrack.2)

def iterTrackPerformers : Option Element → List Str
  | none => []
  | some tracklist => (tracklist.findall "track".toList).flatMap fun track =>
      artistIds (track.find "artists".toList) ++
        (subTracks track).flatMap fun subTrack => artistIds (subTrack.find "artists".toList)

def labelIds : Option Element → List Str
  | none => []
  | some labels => (labels.findall "label".toList).filterMap fun label =>
      usableId (label.get "id".toList)

def tagNames : Option Element → Str → List Str
  | none, _ => []
  | some container, tag => ((container.findall tag).map Element.text).filter (· ≠ [])

/-! ### The partial map -/

/-- Names in the order they came in, each with its ids. -/
abbrev SameAs := List (Str × Finset Str)

def union (old new : Str × Finset Str) : Str × Finset Str := (old.1, old.2 ∪ new.2)

theorem union_key (old new : Str × Finset Str) : (union old new).1 = old.1 := rfl

/-- `same_as.get(name)`. -/
def SameAs.get (sameAs : SameAs) (name : Str) : Option (Finset Str) :=
  (rowOf Prod.fst sameAs name).map Prod.snd

def creditIds (credits : List Credit) : SameAs :=
  credits.filterMap fun credit => credit.xmlId.map fun id => (credit.name, {id})

/-- What a record gives to `same_as`; one without the attribute `id` gives nothing. -/
def sameAsRows (rel : Element) : SameAs :=
  if (rel.get "id".toList).isNone then []
  else creditIds (releaseExtraartists (rel.find "extraartists".toList)) ++
    creditIds ((iterTrackCredits (rel.find "tracklist".toList)).map TrackCredit.credit)

def addSameAs (sameAs : SameAs) (rel : Element) : SameAs :=
  upsertAll Prod.fst union (sameAsRows rel) sameAs

/-! ### The edges -/

inductive Relation where
  | byArtist
  | onLabel
  | derivedFrom
  | inGenre
  | inStyle
  | masterByArtist
  | masterInGenre
  | masterInStyle
  | creditedByArtist
  | trackCreditedByArtist
  | trackByArtist
deriving DecidableEq

structure ChunkResult where
  edges : Relation → List (U64 × U64)
  artistIds : List Str
  count : ℕ

namespace ChunkResult

def new : ChunkResult := ⟨fun _ => [], [], 0⟩

def counted (result : ChunkResult) : ChunkResult := { result with count := result.count + 1 }

def add (result : ChunkResult) (name : Relation) (pairs : List (U64 × U64)) : ChunkResult :=
  { result with edges := fun other =>
      if other = name then result.edges other ++ pairs else result.edges other }

def see (result : ChunkResult) (ids : List Str) : ChunkResult :=
  { result with artistIds := result.artistIds ++ ids }

def append (a b : ChunkResult) : ChunkResult :=
  ⟨fun name => a.edges name ++ b.edges name, a.artistIds ++ b.artistIds, a.count + b.count⟩

/-- The same edges and ids up to their order. -/
structure Same (a b : ChunkResult) : Prop where
  edges : ∀ name, (a.edges name).Perm (b.edges name)
  artistIds : a.artistIds.Perm b.artistIds
  count : a.count = b.count

end ChunkResult

/-- An order in which the sets of a record are iterated. -/
structure SetOrder where
  list : Relation → Element → Finset Str → List Str
  perm : ∀ name rel ids, (list name rel ids : Multiset Str) = ids.val

/-- `KEPT_CREDIT_CATEGORIES`. -/
def keptCreditCategories : List Str :=
  ["production".toList, "engineering".toList, "session".toList, "other".toList]

section
variable (nodeKey : Char → Str → U64) (categorizeRole : Str → Str) (sameAs : SameAs) (order : SetOrder)

def roleKept (role : Str) : Prop := categorizeRole role ∈ keptCreditCategories

instance (role : Str) : Decidable (roleKept categorizeRole role) :=
  inferInstanceAs (Decidable (_ ∈ _))

def resolvedIds (credits : List Credit) : Finset Str :=
  credits.foldl (fun ids credit =>
    if roleKept categorizeRole credit.role then
      match sameAs.get credit.name with
      | some resolved => ids ∪ resolved
      | none => ids
    else ids) ∅

/-- One round of the loop of `_parse_release_chunk`. -/
def parseRelease (result : ChunkResult) (rel : Element) : ChunkResult :=
  match usableId (rel.get "id".toList) with
  | none => result
  | some rid =>
    let links := fun (kind : Char) (ids : List Str) =>
      ids.map fun id => (nodeKey 'r' rid, nodeKey kind id)
    let result := result.counted
    let artists := artistIds (rel.find "artists".toList)
    let result := (result.add .byArtist (links 'a' artists)).see artists
    let result := result.add .onLabel (links 'l' (labelIds (rel.find "labels".toList)))
    let result := result.add .derivedFrom
      (links 'm' (usableId ((rel.find "master_id".toList).map Element.text)).toList)
    let result := result.add .inGenre
      (links 'g' (tagNames (rel.find "genres".toList) "genre".toList))
    let result := result.add .inStyle
      (links 's' (tagNames (rel.find "styles".toList) "style".toList))
    let credited := order.list .creditedByArtist rel
      (resolvedIds categorizeRole sameAs (releaseExtraartists (rel.find "extraartists".toList)))
    let result := (result.add .creditedByArtist (links 'a' credited)).see credited
    let tracklist := rel.find "tracklist".toList
    let trackCredited := order.list .trackCreditedByArtist rel
      (resolvedIds categorizeRole sameAs ((iterTrackCredits tracklist).map TrackCredit.credit))
    let result := (result.add .trackCreditedByArtist (links 'a' trackCredited)).see trackCredited
    let performers := order.list .trackByArtist rel (iterTrackPerformers tracklist).toFinset
    (result.add .trackByArtist (links 'a' performers)).see performers

/-- One round of the loop of `_parse_master_chunk`. -/
def parseMaster (result : ChunkResult) (master : Element) : ChunkResult :=
  match usableId (master.get "id".toList) with
  | none => result
  | some mid =>
    let links := fun (kind : Char) (ids : List Str) =>
      ids.map fun id => (nodeKey 'm' mid, nodeKey kind id)
    let result := result.counted
    let artists := artistIds (master.find "artists".toList)
    let result := (result.add .masterByArtist (links 'a' artists)).see artists
    let result := result.add .masterInGenre
      (links 'g' (tagNames (master.find "genres".toList) "genre".toList))
    result.add .masterInStyle (links 's' (tagNames (master.find "styles".toList) "style".toList))

end

/-! ### What was read before -/

namespace ChunkResult

theorem append_new (a : ChunkResult) : a.append new = a := by
  unfold append new
  simp

theorem append_counted (a b : ChunkResult) : (a.append b).counted = a.append b.counted := rfl

theorem append_add (a b : ChunkResult) (name : Relation) (pairs : List (U64 × U64)) :
    (a.append b).add name pairs = a.append (b.add name pairs) := by
  have hedges : ∀ other, (if other = name then (a.append b).edges other ++ pairs
      else (a.append b).edges other) = a.edges other ++ (b.add name pairs).edges other := by
    intro other
    unfold append add
    dsimp only
    split_ifs
    · exact List.append_assoc ..
    · rfl
  unfold add append
  exact congrArg (fun edges => ChunkResult.mk edges _ _) (funext hedges)

theorem append_see (a b : ChunkResult) (ids : List Str) :
    (a.append b).see ids = a.append (b.see ids) := by
  unfold see append
  rw [List.append_assoc]

namespace Same

variable {a b c d : ChunkResult}

theorem rfl : Same a a := ⟨fun _ => .refl _, .refl _, Eq.refl _⟩

theorem append (h : Same a b) (h' : Same c d) : Same (a.append c) (b.append d) :=
  ⟨fun name => (h.edges name).append (h'.edges name), h.artistIds.append h'.artistIds,
    congrArg₂ (· + ·) h.count h'.count⟩

theorem counted (h : Same a b) : Same a.counted b.counted :=
  ⟨h.edges, h.artistIds, congrArg (· + 1) h.count⟩

theorem add (h : Same a b) {name : Relation} {pairs pairs' : List (U64 × U64)}
    (hpairs : pairs.Perm pairs') : Same (a.add name pairs) (b.add name pairs') := by
  refine ⟨fun other => ?_, h.artistIds, h.count⟩
  unfold ChunkResult.add
  dsimp only
  split_ifs
  · exact (h.edges other).append hpairs
  · exact h.edges other

theorem see (h : Same a b) {ids ids' : List Str} (hids : ids.Perm ids') :
    Same (a.see ids) (b.see ids') := ⟨h.edges, h.artistIds.append hids, h.count⟩

end Same

end ChunkResult

section
variable {nodeKey : Char → Str → U64} {categorizeRole : Str → Str} {sameAs : SameAs}
  {order order' : SetOrder}

theorem setOrder_perm (order order' : SetOrder) (name : Relation) (rel : Element) (ids : Finset Str) :
    (order.list name rel ids).Perm (order'.list name rel ids) := by
  apply Multiset.coe_eq_coe.mp
  rw [order.perm, order'.perm]

theorem parseRelease_append (a b : ChunkResult) (rel : Element) :
    parseRelease nodeKey categorizeRole sameAs order (a.append b) rel =
      a.append (parseRelease nodeKey categorizeRole sameAs order b rel) := by
  unfold parseRelease
  cases usableId (rel.get "id".toList) with
  | none => rfl
  | some rid => simp only [ChunkResult.append_counted, ChunkResult.append_add, ChunkResult.append_see]

theorem parseMaster_append (a b : ChunkResult) (master : Element) :
    parseMaster nodeKey (a.append b) master = a.append (parseMaster nodeKey b master) := by
  unfold parseMaster
  cases usableId (master.get "id".toList) with
  | none => rfl
  | some mid => simp only [ChunkResult.append_counted, ChunkResult.append_add, ChunkResult.append_see]

theorem parseRelease_same {a b : ChunkResult} (h : a.Same b) (rel : Element) :
    (parseRelease nodeKey categorizeRole sameAs order a rel).Same
      (parseRelease nodeKey categorizeRole sameAs order' b rel) := by
  unfold parseRelease
  cases usableId (rel.get "id".toList) with
  | none => exact h
  | some rid =>
    have hset := fun name ids => setOrder_perm order order' name rel ids
    dsimp only
    -- performers, track credits and credits, each a set
    refine .see (.add ?_ ((hset _ _).map _)) (hset _ _)
    refine .see (.add ?_ ((hset _ _).map _)) (hset _ _)
    refine .see (.add ?_ ((hset _ _).map _)) (hset _ _)
    refine .add (.add (.add (.add ?_ (.refl _)) (.refl _)) (.refl _)) (.refl _)
    exact .see (.add h.counted (.refl _)) (.refl _)

theorem parseMaster_same {a b : ChunkResult} (h : a.Same b) (master : Element) :
    (parseMaster nodeKey a master).Same (parseMaster nodeKey b master) := by
  unfold parseMaster
  cases usableId (master.get "id".toList) with
  | none => exact h
  | some mid =>
    dsimp only
    exact .add (.add (.see (.add h.counted (.refl _)) (.refl _)) (.refl _)) (.refl _)

end

/-! ### The ids of a name -/

/-- A map gives an id to a name. -/
def SameAs.Gives (sameAs : SameAs) (name id : Str) : Prop :=
  ∃ row ∈ sameAs, row.1 = name ∧ id ∈ row.2

/-- Distinct names, none without an id. -/
structure SameAs.Proper (sameAs : SameAs) : Prop where
  nodup : (sameAs.map Prod.fst).Nodup
  inhabited : ∀ row ∈ sameAs, row.2 ≠ ∅

theorem gives_cons {row : Str × Finset Str} {sameAs : SameAs} {name id : Str} :
    SameAs.Gives (row :: sameAs) name id ↔ row.1 = name ∧ id ∈ row.2 ∨ sameAs.Gives name id :=
  List.exists_mem_cons_iff ..

theorem gives_append {rows later : SameAs} {name id : Str} :
    SameAs.Gives (rows ++ later) name id ↔ rows.Gives name id ∨ later.Gives name id := by
  unfold SameAs.Gives
  simp only [List.mem_append, or_and_right, exists_or]

theorem gives_flatMap {α : Type*} {items : List α} {rows : α → SameAs} {name id : Str} :
    SameAs.Gives (items.flatMap rows) name id ↔ ∃ item ∈ items, (rows item).Gives name id := by
  unfold SameAs.Gives
  simp only [List.mem_flatMap]
  constructor
  · rintro ⟨row, ⟨item, hitem, hrow⟩, hgives⟩
    exact ⟨item, hitem, row, hrow, hgives⟩
  · rintro ⟨item, hitem, row, hrow, hgives⟩
    exact ⟨row, ⟨item, hitem, hrow⟩, hgives⟩

theorem gives_upsert {row : Str × Finset Str} {sameAs : SameAs} {name id : Str} :
    SameAs.Gives (upsert Prod.fst union row sameAs) name id ↔
      sameAs.Gives name id ∨ row.1 = name ∧ id ∈ row.2 := by
  induction sameAs with
  | nil =>
    unfold upsert
    rw [gives_cons, or_comm]
  | cons old rest ih =>
    unfold upsert
    split_ifs with hkey
    · rw [gives_cons, gives_cons]
      unfold union
      rw [Finset.mem_union, hkey]
      tauto
    · rw [gives_cons, gives_cons, ih, or_assoc]

theorem gives_upsertAll {rows sameAs : SameAs} {name id : Str} :
    SameAs.Gives (upsertAll Prod.fst union rows sameAs) name id ↔
      sameAs.Gives name id ∨ rows.Gives name id := by
  induction rows generalizing sameAs with
  | nil =>
    unfold upsertAll SameAs.Gives
    simp
  | cons row rest ih =>
    show SameAs.Gives (upsertAll Prod.fst union rest (upsert Prod.fst union row sameAs)) name id ↔ _
    rw [ih, gives_upsert, gives_cons, or_assoc]

theorem inhabited_upsert {row : Str × Finset Str} {sameAs : SameAs} (hrow : row.2 ≠ ∅)
    (h : ∀ r ∈ sameAs, r.2 ≠ ∅) : ∀ r ∈ upsert Prod.fst union row sameAs, r.2 ≠ ∅ := by
  induction sameAs with
  | nil =>
    intro r hr
    rw [List.mem_singleton.mp hr]
    exact hrow
  | cons old rest ih =>
    obtain ⟨hold, hrest⟩ := List.forall_mem_cons.mp h
    unfold upsert
    split_ifs with hkey
    · have hunion : (union old row).2 ≠ ∅ := fun hempty => hold (Finset.union_eq_empty.mp hempty).1
      exact List.forall_mem_cons.mpr ⟨hunion, hrest⟩
    · exact List.forall_mem_cons.mpr ⟨hold, ih hrest⟩

theorem proper_upsertAll {rows sameAs : SameAs} (h : sameAs.Proper) (hrows : ∀ row ∈ rows, row.2 ≠ ∅) :
    SameAs.Proper (upsertAll Prod.fst union rows sameAs) := by
  refine ⟨nodup_upsertAll union_key h.nodup rows, ?_⟩
  have hinhabited := h.inhabited
  clear h
  induction rows generalizing sameAs with
  | nil => exact hinhabited
  | cons row rest ih =>
    obtain ⟨hrow, hrest⟩ := List.forall_mem_cons.mp hrows
    exact ih hrest (inhabited_upsert hrow hinhabited)

/-- What a map with distinct names answers for a name. -/
theorem get_eq {sameAs : SameAs} (h : sameAs.Proper) {name : Str} {ids : Finset Str}
    (hids : ∀ id, id ∈ ids ↔ sameAs.Gives name id) :
    sameAs.get name = if ids = ∅ then none else some ids := by
  unfold SameAs.get
  cases hrow : rowOf Prod.fst sameAs name with
  | none =>
    have hempty : ids = ∅ := by
      apply Finset.eq_empty_of_forall_notMem
      intro id hid
      obtain ⟨row, hmem, hname, _⟩ := (hids id).mp hid
      exact rowOf_eq_none.mp hrow (hname ▸ List.mem_map_of_mem hmem)
    rw [if_pos hempty]
    rfl
  | some row =>
    have hname := rowOf_key hrow
    have hall : ids = row.2 := by
      ext id
      rw [hids]
      constructor
      · rintro ⟨other, hother, hkey, hid⟩
        have hsame := rowOf_of_mem h.nodup hother
        rw [hkey, hrow] at hsame
        rw [Option.some.inj hsame]
        exact hid
      · exact fun hid => ⟨row, rowOf_mem hrow, hname, hid⟩
    rw [hall, if_neg (h.inhabited row (rowOf_mem hrow))]
    rfl

end AnalyticsEngine.DumpGraph
