import AnalyticsEngine.Library.Search
import AnalyticsEngine.Library.XmlTree

/-!
# Splitting a dump into chunks

`_chunks` of `scripts/embeddings_from_dump.py` reads the decompressed dump in blocks, cuts behind
the last closing tag of a record that it has and carries the rest. Every chunk but the last ends
with a closing tag, and nothing of the dump behind the first record's opening tag is lost
(`chunks_split`).

In a dump whose markers stand where the splitter takes them to stand (`RecordDump`) every chunk but
the last parses to whole records, all of them once and in order, and the last one does not parse
(`chunks_exact`).
-/

namespace AnalyticsEngine.DumpGraph
open Library Library.Xml

abbrev Bytes := List Byte

def ascii (s : String) : Bytes := s.toList.map fun c => BitVec.ofNat 8 c.toNat

def openMarker (recordTag : Bytes) : Bytes := ascii "<" ++ recordTag ++ ascii " "
def closeMarker (recordTag : Bytes) : Bytes := ascii "</" ++ recordTag ++ ascii ">"

/-- The blocks that `stream.read(CHUNK_BYTES)` gives up to the empty one. -/
def readBlocks (chunkBytes : ℕ) (dump : Bytes) : List Bytes :=
  cut chunkBytes ((dump.length + chunkBytes - 1) / chunkBytes) dump

def lastChunk (tail : Bytes) : List Bytes :=
  let rest := strip isBlank tail
  if rest = [] then [] else [rest]

def chunksLoop (recordTag : Bytes) : Bool → Bytes → List Bytes → List Bytes
  | _, tail, [] => lastChunk tail
  | first, tail, block :: blocks =>
    let data := tail ++ block
    let data := if first then
        match find (openMarker recordTag) data with
        | some index => data.drop index
        | none => data
      else data
    match rfind (closeMarker recordTag) data with
    | none => chunksLoop recordTag false data blocks
    | some index =>
      let cut := index + (closeMarker recordTag).length
      data.take cut :: chunksLoop recordTag false (data.drop cut) blocks

/-- `_chunks`. -/
def chunks (chunkBytes : ℕ) (recordTag dump : Bytes) : List Bytes :=
  chunksLoop recordTag true [] (readBlocks chunkBytes dump)

/-! ### The bytes of the chunks -/

section
variable {recordTag : Bytes}

theorem openMarker_eq (recordTag : Bytes) : openMarker recordTag = lessThan :: (recordTag ++ [0x20]) := rfl

theorem closeMarker_ne (recordTag : Bytes) : closeMarker recordTag ≠ [] := by
  unfold closeMarker
  exact List.append_ne_nil_of_right_ne_nil _ (by decide)

/-- Whole bodies that end with a closing tag, and a rest without one. -/
structure Split (recordTag stream : Bytes) (bodies : List Bytes) (rest : Bytes) : Prop where
  flatten : stream = bodies.flatten ++ rest
  ends : ∀ body ∈ bodies, closeMarker recordTag <:+ body
  rest : ¬closeMarker recordTag <:+: rest

theorem chunksLoop_split (blocks : List Bytes) {tail : Bytes}
    (htail : ¬closeMarker recordTag <:+: tail) :
    ∃ bodies rest, chunksLoop recordTag false tail blocks = bodies ++ lastChunk rest ∧
      Split recordTag (tail ++ blocks.flatten) bodies rest := by
  induction blocks generalizing tail with
  | nil =>
    refine ⟨[], tail, rfl, ?_, fun _ h => absurd h List.not_mem_nil, htail⟩
    rw [List.flatten_nil, List.append_nil]
    rfl
  | cons block blocks ih =>
    unfold chunksLoop
    dsimp only
    rw [if_neg Bool.false_ne_true, List.flatten_cons, ← List.append_assoc]
    cases hfind : rfind (closeMarker recordTag) (tail ++ block) with
    | none => exact ih (rfind_none.mp hfind)
    | some index =>
      obtain ⟨x, y, hdata, rfl, hy⟩ := rfind_some (closeMarker_ne recordTag) hfind
      have hlength : x.length + (closeMarker recordTag).length = (x ++ closeMarker recordTag).length :=
        (List.length_append ..).symm
      obtain ⟨bodies, rest, hloop, hflatten, hends, hrest⟩ := ih hy
      refine ⟨(x ++ closeMarker recordTag) :: bodies, rest, ?_, ?_, ?_, hrest⟩
      · rw [hdata]
        dsimp only
        rw [hlength, List.take_left, List.drop_left, hloop, List.cons_append]
      · rw [hdata, List.append_assoc, hflatten, List.flatten_cons, ← List.append_assoc]
      · intro body hbody
        rcases List.mem_cons.mp hbody with rfl | hbody
        · exact List.suffix_append x _
        · exact hends body hbody

theorem readBlocks_flatten {chunkBytes : ℕ} (hpos : 1 ≤ chunkBytes) (dump : Bytes) :
    (readBlocks chunkBytes dump).flatten = dump := by
  unfold readBlocks
  apply cut_flatten
  have hdiv := Nat.div_add_mod' (dump.length + chunkBytes - 1) chunkBytes
  have hmod := Nat.mod_lt (dump.length + chunkBytes - 1) hpos
  omega

theorem readBlocks_first {chunkBytes : ℕ} (hpos : 1 ≤ chunkBytes) {dump : Bytes} (hne : dump ≠ []) :
    ∃ blocks, readBlocks chunkBytes dump = dump.take chunkBytes :: blocks := by
  have hlength := List.length_pos_of_ne_nil hne
  have hcount : 1 ≤ (dump.length + chunkBytes - 1) / chunkBytes := by
    apply (Nat.one_le_div_iff hpos).mpr
    omega
  obtain ⟨count, hcount⟩ := Nat.exists_eq_add_of_le' hcount
  unfold readBlocks
  rw [hcount, cut_succ]
  exact ⟨_, rfl⟩

/-- The chunks of a dump whose first record begins behind `lead` and in the first block. -/
theorem chunks_split {chunkBytes : ℕ} {lead : Bytes} (post : Bytes)
    (hfirst : ¬openMarker recordTag <:+: (lead ++ openMarker recordTag).dropLast)
    (hblock : (lead ++ openMarker recordTag).length ≤ chunkBytes) :
    ∃ bodies rest,
      chunks chunkBytes recordTag (lead ++ openMarker recordTag ++ post) = bodies ++ lastChunk rest ∧
      Split recordTag (openMarker recordTag ++ post) bodies rest := by
  have hpos : 1 ≤ chunkBytes := by
    rw [List.length_append, openMarker_eq, List.length_cons] at hblock
    omega
  have hne : lead ++ openMarker recordTag ++ post ≠ [] := by
    rw [openMarker_eq, List.append_assoc]
    exact List.append_ne_nil_of_right_ne_nil _ (List.cons_ne_nil _ _)
  obtain ⟨blocks, hblocks⟩ := readBlocks_first hpos hne
  have hflatten := readBlocks_flatten hpos (lead ++ openMarker recordTag ++ post)
  obtain ⟨y, hy⟩ : ∃ y, (lead ++ openMarker recordTag ++ post).take chunkBytes =
      lead ++ openMarker recordTag ++ y := by
    refine ⟨post.take (chunkBytes - (lead ++ openMarker recordTag).length), ?_⟩
    rw [List.take_append, List.take_of_length_le hblock]
  rw [hblocks, hy, List.flatten_cons, List.append_assoc, List.append_assoc, List.append_assoc,
    List.append_cancel_left_eq] at hflatten
  have hloop : chunks chunkBytes recordTag (lead ++ openMarker recordTag ++ post) =
      chunksLoop recordTag false [] ((openMarker recordTag ++ y) :: blocks) := by
    unfold chunks
    rw [hblocks, hy]
    unfold chunksLoop
    dsimp only
    rw [List.nil_append, List.nil_append, if_pos rfl, if_neg Bool.false_ne_true,
      find_first hfirst y]
    dsimp only
    rw [List.append_assoc, List.drop_left]
  have hempty : ¬closeMarker recordTag <:+: [] := fun hin =>
    closeMarker_ne recordTag (List.infix_nil.mp hin)
  obtain ⟨bodies, rest, hbodies, hsplit⟩ :=
    chunksLoop_split ((openMarker recordTag ++ y) :: blocks) hempty
  rw [List.nil_append, List.flatten_cons, List.append_assoc, hflatten] at hsplit
  exact ⟨bodies, rest, hloop.trans hbodies, hsplit⟩

end

/-! ### The records of the chunks -/

/-- `b"<r>" + chunk + b"</r>"`. -/
def wrapped (chunk : Bytes) : Bytes := ascii "<r>" ++ chunk ++ ascii "</r>"

def entityMarkers : List Bytes := [ascii "<!DOCTYPE", ascii "<!ENTITY"]

/-- A well formed dump, and where its markers stand: the first opening marker directly in the root,
which declares no namespace, before any child; every closing marker at the end of a child, the last
one at the end of the last child; and no bytes that would declare a document type or an entity, not
even in a comment or a CDATA section. -/
structure RecordDump (names : NameTable) (recordTag dump lead : Bytes) (root : Element) : Prop where
  parses : fromstring names dump = some root
  first : ∃ post, dump = lead ++ openMarker recordTag ++ post ∧ closeMarker recordTag <:+: post
  noEarlier : ¬openMarker recordTag <:+: (lead ++ openMarker recordTag).dropLast
  opens : ∃ acc frame, run names start lead = some ⟨.text acc, .inside [] frame⟩ ∧
    frame.bindings = [] ∧ frame.children = []
  closes : ∀ before after, dump = before ++ closeMarker recordTag ++ after →
    ∃ frame, run names start (before ++ closeMarker recordTag) = some ⟨.text [], .inside [] frame⟩ ∧
      (¬closeMarker recordTag <:+: after → frame.children = root.children)
  noDeclaration : ∀ marker ∈ entityMarkers, ¬marker <:+: dump

section
variable {names : NameTable} {recordTag dump lead : Bytes} {root : Element}

def wrapper : Frame := ⟨['r'], ['r'], [], [], [], []⟩

theorem run_open : run names start (ascii "<r>") = some ⟨.text [], .inside [] wrapper⟩ := rfl

theorem run_close {f : Frame} (hname : f.name = ['r']) :
    run names ⟨.text [], .inside [] f⟩ (ascii "</r>") = some ⟨.text [], .epilog f.element⟩ := by
  show ((if f.name = ['r'] then some (Builder.epilog f.element) else none).map
    (State.mk (.text []))).bind some = _
  rw [if_pos hname]
  rfl

theorem run_close_epilog (acc : Bytes) (e : Element) :
    run names ⟨.text acc, .epilog e⟩ (ascii "</r>") = none := by
  show ((flush acc (.epilog e)).map (State.mk (.markup [] none))).bind
    (fun s => run names s (ascii "/r>")) = none
  cases hflush : flush acc (.epilog e) with
  | none => rfl
  | some builder =>
    obtain rfl := flush_epilog hflush
    rfl

/-- A body read between two states directly in the root of the dump, read on its own. -/
theorem fromstring_body {acc body : Bytes} {g g' : Frame} (hacc : acc = [] ∨ [lessThan] <+: body)
    (hg : g.bindings = [])
    (h : run names ⟨.text acc, .inside [] g⟩ body = some ⟨.text [], .inside [] g'⟩) :
    ∃ root, fromstring names (wrapped body) = some root ∧ g'.bindings = [] ∧
      g'.children = g.children ++ root.children := by
  have hroots : Roots g.children ['r'] [] wrapper g := ⟨rfl, rfl, hg, (List.append_nil _).symm⟩
  obtain ⟨f', hf', hroots'⟩ : ∃ f', run names ⟨.text [], .inside [] wrapper⟩ body =
      some ⟨.text [], .inside [] f'⟩ ∧ Roots g.children ['r'] [] f' g' := by
    rcases hacc with rfl | ⟨later, rfl⟩
    · have hagree : Agree g.children ['r'] [] ⟨.text [], .inside [] wrapper⟩ ⟨.text [], .inside [] g⟩ :=
        ⟨rfl, .inside hroots⟩
      exact run_between hagree h
    · rw [List.singleton_append, run_cons] at h ⊢
      obtain ⟨t, hfeed, hrest⟩ := Option.bind_eq_some_iff.mp h
      have hreadable : Readable acc → Readable [] := fun _ => Or.inl rfl
      obtain ⟨s, hs, hagree⟩ := feed_gap hroots hreadable hfeed
      rw [hs]
      exact run_between hagree hrest
  refine ⟨f'.element, ?_, hroots'.second, hroots'.children⟩
  unfold fromstring wrapped
  rw [run_append, run_append, run_open, Option.bind_some, hf', Option.bind_some,
    run_close hroots'.name]
  rfl

/-- The bodies of a dump, read one after the other. -/
theorem bodies_parsed (hdump : RecordDump names recordTag dump lead root)
    {before acc rest : Bytes} {bodies : List Bytes} {g : Frame}
    (hflatten : dump = before ++ (bodies.flatten ++ rest))
    (hends : ∀ body ∈ bodies, closeMarker recordTag <:+ body)
    (hbefore : run names start before = some ⟨.text acc, .inside [] g⟩)
    (hacc : acc = [] ∨ [lessThan] <+: bodies.flatten) (hg : g.bindings = []) :
    ∃ roots : List Element,
      bodies.map (fun body => fromstring names (wrapped body)) = roots.map some ∧
      ∃ acc' g', run names start (before ++ bodies.flatten) = some ⟨.text acc', .inside [] g'⟩ ∧
        g'.bindings = [] ∧ g'.children = g.children ++ roots.flatMap Element.children := by
  induction bodies generalizing before acc g with
  | nil =>
    refine ⟨[], rfl, acc, g, ?_, hg, (List.append_nil _).symm⟩
    rw [List.flatten_nil, List.append_nil, hbefore]
  | cons body bodies ih =>
    obtain ⟨x, hx⟩ := hends body List.mem_cons_self
    have hsplit : dump = (before ++ x) ++ closeMarker recordTag ++ (bodies.flatten ++ rest) := by
      rw [hflatten, List.flatten_cons, ← hx]
      simp only [List.append_assoc]
    obtain ⟨g₁, hrun, _⟩ := hdump.closes _ _ hsplit
    rw [List.append_assoc, hx] at hrun
    have hbody := hrun
    rw [run_append, hbefore, Option.bind_some] at hbody
    have hhead : acc = [] ∨ [lessThan] <+: body := by
      refine hacc.imp_right fun hstart => ?_
      refine List.prefix_of_prefix_length_le hstart (List.prefix_append body bodies.flatten) ?_
      have hlong := List.length_pos_of_ne_nil (closeMarker_ne recordTag)
      rw [← hx, List.length_append, List.length_singleton]
      omega
    obtain ⟨root, hroot, hg₁, hchildren⟩ := fromstring_body hhead hg hbody
    have hrest : dump = (before ++ body) ++ (bodies.flatten ++ rest) := by
      rw [hflatten, List.flatten_cons]
      simp only [List.append_assoc]
    obtain ⟨roots, hroots, acc', g', hrun', hg', hchildren'⟩ :=
      ih hrest (fun b hb => hends b (List.mem_cons_of_mem _ hb)) hrun (Or.inl rfl) hg₁
    refine ⟨root :: roots, ?_, acc', g', ?_, hg', ?_⟩
    · rw [List.map_cons, hroot, hroots, List.map_cons]
    · rw [List.flatten_cons, ← List.append_assoc, hrun']
    · rw [hchildren', hchildren, List.flatMap_cons, List.append_assoc]

/-- What closes the root does not parse on its own. -/
theorem fromstring_lastChunk {acc rest : Bytes} {g : Frame} {root : Element} (hg : g.bindings = [])
    (h : run names ⟨.text [], .inside [] g⟩ rest = some ⟨.text acc, .epilog root⟩) :
    ∀ chunk ∈ lastChunk rest, fromstring names (wrapped chunk) = none := by
  intro chunk hchunk
  obtain rfl : chunk = strip isBlank rest := by
    unfold lastChunk at hchunk
    dsimp only at hchunk
    split_ifs at hchunk
    · cases hchunk
    · exact List.mem_singleton.mp hchunk
  obtain ⟨ahead, trail, hstrip, hahead, htrail⟩ := strip_split isBlank rest
  have hroots : Roots g.children ['r'] [] wrapper g := ⟨rfl, rfl, hg, (List.append_nil _).symm⟩
  rw [hstrip] at h
  unfold fromstring wrapped
  rw [run_append, run_append, run_open, Option.bind_some]
  rcases run_rest hroots hahead htrail h with hnone | ⟨acc', e, hend⟩
  · rw [hnone]
    rfl
  · rw [hend, Option.bind_some, run_close_epilog]
    rfl

/-- Some body is there when a closing tag is, and the last one ends with it. -/
theorem split_flatten {stream rest : Bytes} {bodies : List Bytes}
    (hsplit : Split recordTag stream bodies rest) (hclosed : closeMarker recordTag <:+: stream) :
    ∃ x, bodies.flatten = x ++ closeMarker recordTag := by
  rcases List.eq_nil_or_concat' bodies with rfl | ⟨front, body, rfl⟩
  · have hstream := hsplit.flatten
    rw [List.flatten_nil, List.nil_append] at hstream
    exact absurd (hstream ▸ hclosed) hsplit.rest
  · obtain ⟨x, hx⟩ := hsplit.ends body (List.mem_append_right _ (List.mem_singleton_self body))
    refine ⟨front.flatten ++ x, ?_⟩
    rw [List.flatten_append, List.flatten_singleton, ← hx, List.append_assoc]

/-- The chunks hold all records whole, once and in order; only the last chunk may hold none, and it
does not parse. -/
theorem chunks_exact (hdump : RecordDump names recordTag dump lead root) {chunkBytes : ℕ}
    (hblock : (lead ++ openMarker recordTag).length ≤ chunkBytes) :
    ∃ (bodies : List Bytes) (rest : Bytes) (roots : List Element),
      chunks chunkBytes recordTag dump = bodies ++ lastChunk rest ∧
      dump = lead ++ bodies.flatten ++ rest ∧
      bodies.map (fun body => fromstring names (wrapped body)) = roots.map some ∧
      roots.flatMap Element.children = root.children ∧
      ∀ chunk ∈ lastChunk rest, fromstring names (wrapped chunk) = none := by
  obtain ⟨post, hpost, hclosed⟩ := hdump.first
  obtain ⟨acc, g, hlead, hg, hnone⟩ := hdump.opens
  obtain ⟨bodies, rest, hchunks, hsplit⟩ := chunks_split post hdump.noEarlier hblock
  obtain ⟨x, hx⟩ := split_flatten hsplit (hclosed.trans (List.suffix_append _ post).isInfix)
  have hdumped : dump = lead ++ (bodies.flatten ++ rest) := by
    rw [hpost, List.append_assoc, hsplit.flatten]
  have hhead : [lessThan] <+: bodies.flatten := by
    have hstart : [lessThan] <+: bodies.flatten ++ rest := by
      rw [← hsplit.flatten, openMarker_eq]
      exact List.prefix_append [lessThan] _
    refine List.prefix_of_prefix_length_le hstart (List.prefix_append _ rest) ?_
    have hlong := List.length_pos_of_ne_nil (closeMarker_ne recordTag)
    rw [hx, List.length_append, List.length_singleton]
    omega
  obtain ⟨roots, hroots, acc', g', hrun, hg', hchildren⟩ :=
    bodies_parsed hdump hdumped hsplit.ends hlead (Or.inr hhead) hg
  -- the last closing tag leaves the root with all of its children
  have hlast : dump = (lead ++ x) ++ closeMarker recordTag ++ rest := by
    rw [hdumped, hx]
    simp only [List.append_assoc]
  obtain ⟨frame, hframe, hall⟩ := hdump.closes _ _ hlast
  rw [List.append_assoc, ← hx, hrun] at hframe
  cases hframe
  have hroot := hdump.parses
  refine ⟨bodies, rest, roots, ?_, ?_, hroots, ?_, ?_⟩
  · rw [hpost, hchunks]
  · rw [hdumped, List.append_assoc]
  · rw [← hall hsplit.rest, hchildren, hnone, List.nil_append]
  · unfold fromstring at hroot
    rw [hdumped, ← List.append_assoc, run_append, hrun, Option.bind_some] at hroot
    obtain ⟨t, ht, hfinish⟩ := Option.bind_eq_some_iff.mp hroot
    obtain ⟨acc'', rfl⟩ := finish_eq_some hfinish
    exact fromstring_lastChunk hg' ht

end

end AnalyticsEngine.DumpGraph
