import AnalyticsEngine.DumpGraph.Checkpoint
import AnalyticsEngine.DumpGraph.Passes
import AnalyticsEngine.Library.XmlChars

/-!
# The same_as checkpoint (scripts/embeddings_from_dump.py)

The map of pass 1 is kept as two arrays, the ids of a name joined by a separator. The ids come from
texts of XML, where the separator cannot stand, and no name is without an id, so that what is loaded
is what was saved (`loadSameAs_saveSameAs`).
-/

namespace AnalyticsEngine.DumpGraph
open Library Library.Xml Embeddings

/-- `_SAME_AS_ID_SEPARATOR`. -/
def sameAsIdSeparator : Char := Char.ofNat 0x1F

/- The arrays of the file. -/
structure SameAsFile where
  names : List Str
  joinedIds : List Str

/-- An order in which the set of ids of a name is iterated. -/
structure IdOrder where
  list : Str → Finset Str → List Str
  perm : ∀ name ids, (list name ids : Multiset Str) = ids.val

def saveSameAs (order : IdOrder) (sameAs : SameAs) : SameAsFile where
  names := sameAs.map Prod.fst
  joinedIds := sameAs.map fun row => [sameAsIdSeparator].intercalate (order.list row.1 row.2)

/-- `load_same_as_checkpoint`; a strict `zip` raises where the arrays differ in length. -/
def loadSameAs (file : SameAsFile) : Option SameAs :=
  if file.names.length ≠ file.joinedIds.length then none
  else some (Dict.ofPairs ((file.names.zip file.joinedIds).map fun row =>
    (row.1, (row.2.splitOn sameAsIdSeparator).toFinset))).items

/-! ### Texts of the dump -/

/-- The ids are texts of XML. -/
def SameAs.Sound (sameAs : SameAs) : Prop := ∀ name id, sameAs.Gives name id → Xml.Sound id

section
variable {e : Element}

theorem sound_text (h : e.Sound) : Xml.Sound e.text := by
  cases h with
  | mk htext _ => exact htext

theorem sound_children (h : e.Sound) : ∀ child ∈ e.children, child.Sound := by
  cases h with
  | mk _ hchildren => exact hchildren

theorem sound_findall (h : e.Sound) (tag : Str) : ∀ child ∈ e.findall tag, child.Sound :=
  fun child hchild => sound_children h child (List.mem_of_mem_filter hchild)

theorem sound_find {child : Element} (h : e.Sound) {tag : Str} (hfind : e.find tag = some child) :
    child.Sound :=
  sound_children h child (List.mem_of_find?_eq_some hfind)

theorem usableId_sound {value : Option Str} (h : ∀ text ∈ value, Xml.Sound text) {id : Str}
    (hid : usableId value = some id) : Xml.Sound id := by
  unfold usableId at hid
  obtain ⟨text, hvalue, hstrip⟩ := Option.bind_eq_some_iff.mp hid
  dsimp only at hstrip
  split_ifs at hstrip
  cases hstrip
  obtain ⟨lead, trail, hsplit, _⟩ := strip_split isWhitespace text
  have htext := h text hvalue
  rw [hsplit] at htext
  intro c hc
  exact htext c (List.mem_append_left _ (List.mem_append_right _ hc))

/-- The containers that a record has, or does not have. -/
def SoundContainer (container : Option Element) : Prop := ∀ c ∈ container, c.Sound

theorem sound_container (h : e.Sound) (tag : Str) : SoundContainer (e.find tag) :=
  fun _ hfind => sound_find h hfind

theorem releaseExtraartists_sound {container : Option Element} (h : SoundContainer container) :
    ∀ credit ∈ releaseExtraartists container, ∀ id ∈ credit.xmlId, Xml.Sound id := by
  intro credit hcredit id hid
  cases container with
  | none => cases hcredit
  | some container =>
    obtain ⟨artist, hartist, hgiven⟩ := List.mem_filterMap.mp hcredit
    have hsound := sound_findall (h container rfl) _ artist hartist
    have hids : ∀ text ∈ (artist.find "id".toList).map Element.text, Xml.Sound text := by
      intro text htext
      obtain ⟨child, hchild, rfl⟩ := Option.map_eq_some_iff.mp htext
      exact sound_text (sound_find hsound hchild)
    split at hgiven
    · split_ifs at hgiven
      cases hgiven
      exact usableId_sound hids hid
    · cases hgiven

theorem subTracks_sound {track : Element} (h : track.Sound) : ∀ sub ∈ subTracks track, sub.Sound := by
  intro sub hsub
  unfold subTracks at hsub
  split at hsub
  · cases hsub
  · rename_i container hfind
    exact sound_findall (sound_find h hfind) _ sub hsub

theorem iterTrackCredits_sound {tracklist : Option Element} (h : SoundContainer tracklist) :
    ∀ found ∈ iterTrackCredits tracklist, ∀ id ∈ found.credit.xmlId, Xml.Sound id := by
  intro found hfound id hid
  cases tracklist with
  | none => cases hfound
  | some tracklist =>
    obtain ⟨track, htrack, hcredits⟩ := List.mem_flatMap.mp hfound
    have hsound := sound_findall (h tracklist rfl) _ track.1 (List.fst_mem_of_mem_zipIdx htrack)
    rcases List.mem_append.mp hcredits with hown | hbelow
    · obtain ⟨credit, hcredit, rfl⟩ := List.mem_map.mp hown
      exact releaseExtraartists_sound (sound_container hsound _) credit hcredit id hid
    · obtain ⟨sub, hsub, hcredits⟩ := List.mem_flatMap.mp hbelow
      obtain ⟨credit, hcredit, rfl⟩ := List.mem_map.mp hcredits
      have hsubSound := subTracks_sound hsound sub.1 (List.fst_mem_of_mem_zipIdx hsub)
      exact releaseExtraartists_sound (sound_container hsubSound _) credit hcredit id hid

theorem sameAsRows_sound {rel : Element} (h : rel.Sound) : SameAs.Sound (sameAsRows rel) := by
  intro name id hgives
  unfold sameAsRows at hgives
  split_ifs at hgives
  · obtain ⟨row, hrow, _⟩ := hgives
    cases hrow
  · rcases gives_append.mp hgives with hown | htracks
    · obtain ⟨credit, hcredit, hgiven⟩ := creditIds_gives.mp hown
      split_ifs at hgiven
      exact releaseExtraartists_sound (sound_container h _) credit hcredit id hgiven
    · obtain ⟨credit, hcredit, hgiven⟩ := creditIds_gives.mp htracks
      split_ifs at hgiven
      obtain ⟨found, hfound, rfl⟩ := List.mem_map.mp hcredit
      exact iterTrackCredits_sound (sound_container h _) found hfound id hgiven

end

section
variable {names : NameTable} {chunkBytes limitChunks : ℕ} {dump : Bytes} {sameAs : SameAs}

theorem chunkRecords_sound {tag : Str} {chunk : Bytes} :
    ∀ rel ∈ chunkRecords names tag chunk, rel.Sound := by
  intro rel hrel
  unfold chunkRecords at hrel
  split_ifs at hrel
  · cases hrel
  · split at hrel
    · cases hrel
    · rename_i root hroot
      exact sound_findall (fromstring_sound hroot) tag rel hrel

theorem buildsSameAsMap_sound (h : BuildsSameAsMap names chunkBytes limitChunks dump sameAs) :
    sameAs.Sound := by
  intro name id hgives
  obtain ⟨arrived, hperm, rfl⟩ := h
  rw [mergePartials_eq, gives_upsertAll, ← List.flatMap_id, gives_flatMap] at hgives
  rcases hgives with ⟨_, hrow, _⟩ | ⟨rows, hrows, hgives⟩
  · cases hrow
  · obtain ⟨chunk, _, rfl⟩ := List.mem_map.mp (hperm.mem_iff.mp hrows)
    obtain ⟨rel, hrel, hgives⟩ := pass1_gives.mp hgives
    exact sameAsRows_sound (chunkRecords_sound rel hrel) name id hgives

theorem buildsSameAsMap_proper (h : BuildsSameAsMap names chunkBytes limitChunks dump sameAs) :
    sameAs.Proper := by
  obtain ⟨arrived, hperm, rfl⟩ := h
  rw [mergePartials_eq]
  apply proper_upsertAll proper_nil
  intro row hrow
  obtain ⟨rows, hrows, hrow⟩ := List.mem_flatten.mp hrow
  obtain ⟨chunk, _, rfl⟩ := List.mem_map.mp (hperm.mem_iff.mp hrows)
  exact (pass1_proper names chunk).inhabited row hrow

/-! ### The round trip -/

theorem separator_not_char : isChar sameAsIdSeparator = false := by decide

/-- The ids of a name split where they were joined. -/
theorem split_joined (order : IdOrder) (name : Str) {ids : Finset Str} (hids : ids ≠ ∅)
    (hsound : ∀ id ∈ ids, Xml.Sound id) :
    (([sameAsIdSeparator].intercalate (order.list name ids)).splitOn sameAsIdSeparator).toFinset =
      ids := by
  have hmem : ∀ id, id ∈ order.list name ids ↔ id ∈ ids := by
    intro id
    rw [← Multiset.mem_coe, order.perm, Finset.mem_val]
  have hseparator : ∀ id ∈ order.list name ids, sameAsIdSeparator ∉ id := by
    intro id hid hmark
    have hchar := hsound id ((hmem id).mp hid) _ hmark
    rw [separator_not_char] at hchar
    cases hchar
  have hlist : order.list name ids ≠ [] := by
    obtain ⟨id, hid⟩ := Finset.nonempty_iff_ne_empty.mpr hids
    exact List.ne_nil_of_mem ((hmem id).mpr hid)
  rw [List.splitOn_intercalate sameAsIdSeparator hseparator hlist]
  ext id
  rw [List.mem_toFinset, hmem]

theorem load_save (order : IdOrder) (hproper : sameAs.Proper) (hsound : sameAs.Sound) :
    loadSameAs (saveSameAs order sameAs) = some sameAs := by
  have hrows : (sameAs.map fun row => (row.1,
      (([sameAsIdSeparator].intercalate (order.list row.1 row.2)).splitOn
        sameAsIdSeparator).toFinset)) = sameAs := by
    refine (List.map_congr_left fun row hrow => ?_).trans (List.map_id sameAs)
    rw [split_joined order row.1 (hproper.inhabited row hrow)
      fun id hid => hsound row.1 id ⟨row, hrow, rfl, hid⟩]
    rfl
  have hdict := Dict.ofPairs_items ⟨sameAs, hproper.nodup⟩
  unfold loadSameAs saveSameAs
  dsimp only
  rw [List.length_map, List.length_map, if_neg (not_not.mpr rfl), List.zip_map', List.map_map]
  simp only [Function.comp_def, hrows, hdict]

/-- Whatever bytes the dump has, in whatever order its chunks arrived and the ids are iterated, the
map that is loaded is the one that was saved, its names in their order. -/
theorem loadSameAs_saveSameAs (order : IdOrder)
    (h : BuildsSameAsMap names chunkBytes limitChunks dump sameAs) :
    loadSameAs (saveSameAs order sameAs) = some sameAs :=
  load_save order (buildsSameAsMap_proper h) (buildsSameAsMap_sound h)

end

def sortedIds : IdOrder := ⟨fun _ ids => ids.sort (· ≥ ·), fun _ ids => Finset.sort_eq ids _⟩

/- One name with two ids. -/
def twoCredits : Bytes := ascii ("<d><release id=\"1\"><extraartists>" ++
  "<artist><id>7</id><name>N</name><role>R</role></artist>" ++
  "<artist><id> 8</id><name>N</name><role>R</role></artist></extraartists></release></d>")

theorem twoCredits_builds :
    BuildsSameAsMap asciiNames 128 0 twoCredits [(['N'], {['7'], ['8']})] :=
  ⟨_, .refl _, by decide +kernel⟩

theorem loadSameAs_saveSameAs_twoCredits :
    loadSameAs (saveSameAs sortedIds [(['N'], {['7'], ['8']})]) = some [(['N'], {['7'], ['8']})] :=
  loadSameAs_saveSameAs sortedIds twoCredits_builds

end AnalyticsEngine.DumpGraph
