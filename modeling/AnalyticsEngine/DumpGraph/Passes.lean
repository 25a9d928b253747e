import AnalyticsEngine.DumpGraph.Pool
import Mathlib

/-!
# Two passes over a dump (scripts/embeddings_from_dump.py)

Pass 1 builds the `same_as` map of a releases dump, pass 2 reads the releases with that map; masters
take one pass. Read in chunks a dump gives what its record list gives directly (`dumpPasses_exact`),
as long as its markers stand where the splitter takes them to stand; `dumpPasses_lost` has dumps
where they do not.
-/

namespace AnalyticsEngine.DumpGraph
open Library Library.Xml Embeddings

/-- The chunks are whole records, all of them in order, and at most one more chunk, which does not
parse. -/
def HoldRecords (names : NameTable) (recordTag : Bytes) (chunkBytes : ℕ) (dump lead : Bytes)
    (root : Element) : Prop :=
  ∃ (bodies final : List Bytes) (rest : Bytes) (roots : List Element),
    chunks chunkBytes recordTag dump = bodies ++ final ∧ final.length ≤ 1 ∧
    dump = lead ++ bodies.flatten ++ rest ∧
    bodies.map (fun body => fromstring names (wrapped body)) = roots.map some ∧
    roots.flatMap Element.children = root.children ∧
    ∀ chunk ∈ final, fromstring names (wrapped chunk) = none

theorem holdRecords {names : NameTable} {recordTag dump lead : Bytes} {root : Element}
    (hdump : RecordDump names recordTag dump lead root) {chunkBytes : ℕ}
    (hblock : (lead ++ openMarker recordTag).length ≤ chunkBytes) :
    HoldRecords names recordTag chunkBytes dump lead root := by
  obtain ⟨bodies, rest, roots, hchunks, hflatten, hroots, hchildren, hlast⟩ :=
    chunks_exact hdump hblock
  refine ⟨bodies, lastChunk rest, rest, roots, hchunks, ?_, hflatten, hroots, hchildren, hlast⟩
  unfold lastChunk
  dsimp only
  split_ifs <;> simp

variable {names : NameTable} {nodeKey : Char → Str → U64} {categorizeRole : Str → Str}
  {dump lead : Bytes} {root : Element} {chunkBytes : ℕ}

/-- A releases dump, and a masters dump, read in chunks. -/
theorem dumpPasses_exact :
    (RecordDump names (ascii "release") dump lead root →
      (lead ++ openMarker (ascii "release")).length ≤ chunkBytes →
      HoldRecords names (ascii "release") chunkBytes dump lead root ∧
      ∀ sameAs, BuildsSameAsMap names chunkBytes 0 dump sameAs →
        (∀ name, sameAs.get name =
          let ids := namedIds ((root.findall "release".toList).filter fun rel =>
            (rel.get "id".toList).isSome) name
          if ids = ∅ then none else some ids) ∧
        ∀ (orders : ℕ → SetOrder) (order : SetOrder),
          Collected
            (runPool chunkBytes (ascii "release")
              (fun i => parseReleaseChunk names nodeKey categorizeRole sameAs (orders i)) 0 dump)
            ((root.findall "release".toList).foldl
              (parseRelease nodeKey categorizeRole sameAs order) .new)) ∧
    (RecordDump names (ascii "master") dump lead root →
      (lead ++ openMarker (ascii "master")).length ≤ chunkBytes →
      HoldRecords names (ascii "master") chunkBytes dump lead root ∧
      Collected
        (runPool chunkBytes (ascii "master") (fun _ => parseMasterChunk names nodeKey) 0 dump)
        ((root.findall "master".toList).foldl (parseMaster nodeKey) .new)) := by
  constructor
  · intro hdump hblock
    refine ⟨holdRecords hdump hblock, fun sameAs hbuild => ⟨?_, fun orders order => ?_⟩⟩
    · exact buildSameAsMap_get hdump hblock hbuild
    · unfold parseReleaseChunk
      exact runPool_exact (parseRelease nodeKey categorizeRole sameAs) (fun _ => parseRelease_append)
        (fun _ _ _ _ rel h => parseRelease_same h rel) hdump hblock _ orders order
  · intro hdump hblock
    refine ⟨holdRecords hdump hblock, ?_⟩
    unfold parseMasterChunk
    exact runPool_exact (fun _ : Unit => parseMaster nodeKey) (fun _ => parseMaster_append)
      (fun _ _ _ _ rel h => parseMaster_same h rel) hdump hblock _ (fun _ => ()) ()

/-! ### Small dumps -/

def asciiNames : NameTable := ⟨fun _ => false, fun _ => false⟩

/-- A dump of one record. -/
def oneRecord (tag : String) : Bytes := ascii ("<d><" ++ tag ++ " id=\"1\"></" ++ tag ++ "></d>")

def oneRoot (tag : String) : Element := .mk ['d'] [] [] [.mk tag.toList [(['i', 'd'], ['1'])] [] []]

/-- A marker that stands at some places only splits the dump at one of them. -/
theorem split_places {marker dump before after : Bytes} (places : List ℕ)
    (honly : ∀ i ≤ dump.length, marker <+: dump.drop i → i ∈ places)
    (h : dump = before ++ marker ++ after) :
    ∃ place ∈ places, before = dump.take place ∧ after = dump.drop (place + marker.length) := by
  refine ⟨before.length, ?_, ?_, ?_⟩
  · apply honly
    · rw [h, List.length_append, List.length_append]
      omega
    · rw [h, List.append_assoc, List.drop_left]
      exact List.prefix_append marker after
  · rw [h, List.append_assoc, List.take_left]
  · rw [h, ← List.length_append, List.drop_left]

theorem split_once {marker dump before after : Bytes} (place : ℕ)
    (honce : ∀ i ≤ dump.length, marker <+: dump.drop i → i = place)
    (h : dump = before ++ marker ++ after) :
    before = dump.take place ∧ after = dump.drop (place + marker.length) := by
  obtain ⟨_, hplace, hsplit⟩ := split_places [place]
    (fun i hi hmarker => List.mem_singleton.mpr (honce i hi hmarker)) h
  rw [List.mem_singleton.mp hplace] at hsplit
  exact hsplit

theorem run_oneMaster : run asciiNames start (ascii "<d><master id=\"1\"></master>") =
    some ⟨.text [], .inside [] ⟨['d'], ['d'], [], [], [], (oneRoot "master").children⟩⟩ := by
  cbv

theorem recordDump_oneMaster : RecordDump asciiNames (ascii "master") (oneRecord "master")
    (ascii "<d>") (oneRoot "master") where
  parses := by
    have hdump : oneRecord "master" = ascii "<d><master id=\"1\"></master>" ++ ascii "</d>" := by decide
    unfold fromstring
    rw [hdump, run_append, run_oneMaster]
    rfl
  first := ⟨ascii "id=\"1\"></master></d>", by decide, by decide⟩
  noEarlier := by decide
  opens := ⟨[], ⟨['d'], ['d'], [], [], [], []⟩, by cbv, rfl, rfl⟩
  closes := by
    intro before after h
    obtain ⟨rfl, rfl⟩ := split_once 18 (by decide +kernel) h
    exact ⟨_, run_oneMaster, fun _ => rfl⟩
  noDeclaration := by decide

def firstRecord (tag : String) : Bytes := ascii ("<d><" ++ tag ++ " id=\"1\">")

def secondRecord (tag credits : String) : Bytes := ascii ("<" ++ tag ++ " id=\"2\">" ++ credits)

/-- A dump of two records, the second one with credits. -/
def twoRecords (tag credits : String) : Bytes :=
  firstRecord tag ++ closeMarker (ascii tag) ++ secondRecord tag credits ++ closeMarker (ascii tag) ++
    ascii "</d>"

def masterCredits : String := "<artists><artist><id>6</id></artist></artists>"

/- One name with two ids. -/
def releaseCredits : String :=
  masterCredits ++ "<extraartists><artist><id>7</id><name>N</name><role>R</role></artist>" ++
    "<artist><id> 8</id><name>N</name><role>R</role></artist></extraartists>"

def leaf (name text : String) : Element := .mk name.toList [] text.toList []

def mainArtists : Element :=
  .mk "artists".toList [] [] [.mk "artist".toList [] [] [leaf "id" "6"]]

def extraArtist (id : String) : Element :=
  .mk "artist".toList [] [] [leaf "id" id, leaf "name" "N", leaf "role" "R"]

def recordElement (tag : String) (id : Char) (credits : List Element) : Element :=
  .mk tag.toList [(['i', 'd'], [id])] [] credits

def twoRoot (tag : String) (credits : List Element) : Element :=
  .mk ['d'] [] [] [recordElement tag '1' [], recordElement tag '2' credits]

def releasesRoot : Element :=
  twoRoot "release" [mainArtists, .mk "extraartists".toList [] [] [extraArtist "7", extraArtist " 8"]]

def mastersRoot : Element := twoRoot "master" [mainArtists]

/-- Between the records of a dump. -/
def betweenRecords (children : List Element) : State :=
  ⟨.text [], .inside [] ⟨['d'], ['d'], [], [], [], children⟩⟩

section
variable {tag credits : String} {elements : List Element}
  (hfirst : run asciiNames start (firstRecord tag ++ closeMarker (ascii tag)) =
    some (betweenRecords [recordElement tag '1' []]))
  (hsecond : run asciiNames (betweenRecords [recordElement tag '1' []])
    (secondRecord tag credits ++ closeMarker (ascii tag)) =
    some (betweenRecords (twoRoot tag elements).children))
include hfirst hsecond

theorem run_twoRecords : run asciiNames start (firstRecord tag ++ closeMarker (ascii tag) ++
    secondRecord tag credits ++ closeMarker (ascii tag)) =
      some (betweenRecords (twoRoot tag elements).children) := by
  rw [List.append_assoc, run_append, hfirst]
  exact hsecond

theorem twoRecords_parses : fromstring asciiNames (twoRecords tag credits) =
    some (twoRoot tag elements) := by
  unfold fromstring twoRecords
  rw [run_append, run_twoRecords hfirst hsecond]
  rfl

/-- A closing marker of the dump ends one of the two records. -/
theorem twoRecords_closes (hplaces : ∀ i ≤ (twoRecords tag credits).length,
      closeMarker (ascii tag) <+: (twoRecords tag credits).drop i →
      i ∈ [(firstRecord tag).length,
        (firstRecord tag ++ closeMarker (ascii tag) ++ secondRecord tag credits).length])
    {before after : Bytes} (h : twoRecords tag credits = before ++ closeMarker (ascii tag) ++ after) :
    ∃ frame, run asciiNames start (before ++ closeMarker (ascii tag)) =
      some ⟨.text [], .inside [] frame⟩ ∧
      (¬closeMarker (ascii tag) <:+: after → frame.children = (twoRoot tag elements).children) := by
  obtain ⟨place, hplace, hbefore, hafter⟩ := split_places _ hplaces h
  rcases List.mem_pair.mp hplace with rfl | rfl
  · have hearlier : before = firstRecord tag := by
      rw [hbefore, twoRecords, List.append_assoc, List.append_assoc, List.append_assoc,
        List.take_left]
    subst hearlier
    refine ⟨_, hfirst, fun hlast => absurd ?_ hlast⟩
    rw [twoRecords, List.append_assoc, List.append_assoc, List.append_cancel_left_eq] at h
    rw [← h]
    exact ⟨secondRecord tag credits, ascii "</d>", by rw [List.append_assoc]⟩
  · have hearlier : before = firstRecord tag ++ closeMarker (ascii tag) ++ secondRecord tag credits := by
      rw [hbefore, twoRecords, List.append_assoc (_ ++ _ ++ secondRecord tag credits), List.take_left]
    subst hearlier
    exact ⟨_, run_twoRecords hfirst hsecond, fun _ => rfl⟩

end

theorem run_firstRelease : run asciiNames start (firstRecord "release" ++ closeMarker (ascii "release")) =
    some (betweenRecords [recordElement "release" '1' []]) := by
  cbv

set_option maxRecDepth 4000 in
theorem run_secondRelease : run asciiNames (betweenRecords [recordElement "release" '1' []])
    (secondRecord "release" releaseCredits ++ closeMarker (ascii "release")) =
    some (betweenRecords releasesRoot.children) := by
  cbv

theorem recordDump_twoReleases : RecordDump asciiNames (ascii "release")
    (twoRecords "release" releaseCredits) (ascii "<d>") releasesRoot where
  parses := twoRecords_parses run_firstRelease run_secondRelease
  first := ⟨(twoRecords "release" releaseCredits).drop 12, by decide +kernel, by decide +kernel⟩
  noEarlier := by decide
  opens := ⟨[], ⟨['d'], ['d'], [], [], [], []⟩, by cbv, rfl, rfl⟩
  closes _ _ := twoRecords_closes run_firstRelease run_secondRelease (by decide +kernel)
  noDeclaration := by decide +kernel

theorem run_firstMaster : run asciiNames start (firstRecord "master" ++ closeMarker (ascii "master")) =
    some (betweenRecords [recordElement "master" '1' []]) := by
  cbv

theorem run_secondMaster : run asciiNames (betweenRecords [recordElement "master" '1' []])
    (secondRecord "master" masterCredits ++ closeMarker (ascii "master")) =
    some (betweenRecords mastersRoot.children) := by
  cbv

theorem recordDump_twoMasters : RecordDump asciiNames (ascii "master")
    (twoRecords "master" masterCredits) (ascii "<d>") mastersRoot where
  parses := twoRecords_parses run_firstMaster run_secondMaster
  first := ⟨(twoRecords "master" masterCredits).drop 11, by decide +kernel, by decide +kernel⟩
  noEarlier := by decide
  opens := ⟨[], ⟨['d'], ['d'], [], [], [], []⟩, by cbv, rfl, rfl⟩
  closes _ _ := twoRecords_closes run_firstMaster run_secondMaster (by decide +kernel)
  noDeclaration := by decide +kernel

def kindKey (kind : Char) (_ : Str) : U64 := if kind = 'a' then 2 else 1

theorem dumpPasses_exact_twoRecords :
    HoldRecords asciiNames (ascii "release") 32 (twoRecords "release" releaseCredits) (ascii "<d>")
      releasesRoot ∧
    BuildsSameAsMap asciiNames 32 0 (twoRecords "release" releaseCredits) [(['N'], {['7'], ['8']})] ∧
    (∀ (orders : ℕ → SetOrder) (order : SetOrder),
      Collected
        (runPool 32 (ascii "release")
          (fun i => parseReleaseChunk asciiNames kindKey id [(['N'], {['7'], ['8']})] (orders i)) 0
          (twoRecords "release" releaseCredits))
        ((releasesRoot.findall "release".toList).foldl
          (parseRelease kindKey id [(['N'], {['7'], ['8']})] order) .new)) ∧
    Collected
      (runPool 32 (ascii "master") (fun _ => parseMasterChunk asciiNames kindKey) 0
        (twoRecords "master" masterCredits))
      ((mastersRoot.findall "master".toList).foldl (parseMaster kindKey) .new) := by
  have hbuild : BuildsSameAsMap asciiNames 32 0 (twoRecords "release" releaseCredits)
      [(['N'], {['7'], ['8']})] := ⟨_, .refl _, by decide +kernel⟩
  have hrelease := (@dumpPasses_exact asciiNames kindKey id _ _ _ 32).1
    recordDump_twoReleases (by decide)
  have hmaster := (@dumpPasses_exact asciiNames kindKey id _ _ _ 32).2
    recordDump_twoMasters (by decide)
  exact ⟨hrelease.1, hbuild, (hrelease.2 _ hbuild).2, hmaster.2⟩

def sortedOrder : SetOrder := ⟨fun _ _ ids => ids.sort, fun _ _ ids => Finset.sort_eq ids _⟩

/-- The number of releases in a dump, read directly and in chunks. -/
def releaseCounts (chunkBytes : ℕ) (dump : Bytes) : Option ℕ × ℕ :=
  ((fromstring asciiNames dump).map fun root =>
    ((root.findall "release".toList).foldl
      (parseRelease (fun _ _ => 0) id [] sortedOrder) .new).count,
   (runPool chunkBytes (ascii "release")
    (fun _ => parseReleaseChunk asciiNames (fun _ _ => 0) id [] sortedOrder) 0 dump).count)

/- A closing tag with white space, bytes of a declaration in a CDATA section, a namespace of the
root, and a marker in a comment each lose a record; the credits of a record without the attribute
`id` are not in the map. -/
theorem dumpPasses_lost :
    releaseCounts 128 (ascii "<d><release id=\"1\"></release ></d>") = (some 1, 0) ∧
    releaseCounts 128
      (ascii "<d><release id=\"1\"><notes><![CDATA[<!DOCTYPE x]]></notes></release></d>") = (some 1, 0) ∧
    releaseCounts 128 (ascii "<d xmlns:p=\"u\"><release id=\"1\" p:k=\"v\"></release></d>") =
      (some 1, 0) ∧
    releaseCounts 128 (ascii "<d><!-- <release --><release id=\"1\"></release></d>") = (some 1, 0) ∧
    releaseCounts 36 (ascii "<d><release id=\"1\"><!-- </release> --></release></d>") = (some 1, 0) ∧
    (let dump := ascii ("<d><release status=\"x\"><extraartists><artist><id>7</id><name>N</name>" ++
        "<role>R</role></artist></extraartists></release></d>")
     (fromstring asciiNames dump).map (fun root => namedIds (root.findall "release".toList) ['N']) =
        some {['7']} ∧
      mergePartials ((chunks 128 (ascii "release") dump).map (pass1SameAsChunk asciiNames)) = []) := by
  decide +kernel

end AnalyticsEngine.DumpGraph
