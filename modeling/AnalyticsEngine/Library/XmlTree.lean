import AnalyticsEngine.Library.XmlText

/-!
# Trees from XML bytes

`fromstring` reads a document byte by byte with a stack of open elements and keeps a tree of tags,
attributes, texts and children. Comments and processing instructions are dropped, names are put in
their namespaces.

What lies between two states directly inside the root can be cut out: read in another root with
the same namespaces it gives the same children (`run_between`). What closes the root leaves no root
open there (`run_rest`).
-/

namespace AnalyticsEngine.Library.Xml

/-- An element. Its text is what stands before its first child; no text is the empty one. -/
inductive Element where
  | mk (tag : Str) (attrib : List (Str × Str)) (text : Str) (children : List Element)

namespace Element

def tag : Element → Str
  | mk tag _ _ _ => tag

def attrib : Element → List (Str × Str)
  | mk _ attrib _ _ => attrib

def text : Element → Str
  | mk _ _ text _ => text

def children : Element → List Element
  | mk _ _ _ children => children

def get (e : Element) (key : Str) : Option Str := e.attrib.lookup key

def findall (e : Element) (tag : Str) : List Element := e.children.filter fun child => child.tag = tag

def find (e : Element) (tag : Str) : Option Element := e.children.find? fun child => child.tag = tag

def findtext (e : Element) (tag : Str) : Option Str := (e.find tag).map text

end Element

/-! ### Namespaces -/

/-- The namespaces in scope by prefix, inner ones first. The empty prefix is the default one, the
empty namespace none. -/
abbrev Bindings := List (Str × Str)

def xmlNamespace : Str := "http://www.w3.org/XML/1998/namespace".toList
def xmlnsNamespace : Str := "http://www.w3.org/2000/xmlns/".toList

variable (names : NameTable)

/-- A declaration of a namespace, where the attribute is one. -/
def declared (a : Str × Str) : Option (Option (Str × Str)) :=
  (qualifiedName names a.1).bind fun name =>
    if name = ([], "xmlns".toList) then
      if a.2 = xmlNamespace ∨ a.2 = xmlnsNamespace ∨ Char.ofNat 125 ∈ a.2 then none
      else some (some ([], a.2))
    else if name.1 = "xmlns".toList then
      if name.2 = "xml".toList then
        if a.2 = xmlNamespace then some (some (name.2, a.2)) else none
      else if name.2 = "xmlns".toList ∨ a.2 = [] ∨ a.2 = xmlNamespace ∨ a.2 = xmlnsNamespace ∨
          Char.ofNat 125 ∈ a.2 then none
      else some (some (name.2, a.2))
    else some none

def expanded (uri name : Str) : Str :=
  if uri = [] then name else Char.ofNat 123 :: uri ++ Char.ofNat 125 :: name

def namespaceOf (bindings : Bindings) (namePrefix : Str) : Option Str :=
  if namePrefix = "xml".toList then some xmlNamespace else bindings.lookup namePrefix

def elementTag (bindings : Bindings) (raw : Str) : Option Str :=
  (qualifiedName names raw).bind fun name =>
    if name.1 = [] then some (expanded ((bindings.lookup []).getD []) name.2)
    else (namespaceOf bindings name.1).map fun uri => expanded uri name.2

/- The default namespace is not that of attributes. -/
def attributeKey (bindings : Bindings) (raw : Str) : Option Str :=
  (qualifiedName names raw).bind fun name =>
    if name.1 = [] then some name.2
    else (namespaceOf bindings name.1).map fun uri => expanded uri name.2

/-! ### Open elements -/

/-- An open element, with its name as written. -/
structure Frame where
  name : Str
  tag : Str
  attrib : List (Str × Str)
  bindings : Bindings
  text : Str
  children : List Element

def Frame.element (f : Frame) : Element := .mk f.tag f.attrib f.text f.children
def Frame.add (f : Frame) (e : Element) : Frame := { f with children := f.children ++ [e] }
/- Text behind the first child belongs to that child's tail, which is not kept. -/
def Frame.addText (f : Frame) (text : Str) : Frame :=
  if f.children = [] then { f with text := f.text ++ text } else f

def newFrame (scope : Bindings) (name : Str) (attributes : List (Str × Str)) : Option Frame :=
  if (attributes.map Prod.fst).Nodup then do
    let found ← attributes.mapM (declared names)
    let bindings := found.filterMap id ++ scope
    let tag ← elementTag names bindings name
    let attrib ← ((attributes.zip found).filter fun a => a.2.isNone).mapM fun a =>
      (attributeKey names bindings a.1.1).map fun key => (key, a.1.2)
    if (attrib.map Prod.fst).Nodup then some ⟨name, tag, attrib, bindings, [], []⟩ else none
  else none

/-- Before the root, inside it with the elements that are open in it, innermost first, and
after it. -/
inductive Builder where
  | prolog (fresh : Bool)
  | inside (opened : List Frame) (root : Frame)
  | epilog (root : Element)

def scope : List Frame → Frame → Bindings
  | [], root => root.bindings
  | f :: _, _ => f.bindings

def addChild (e : Element) : List Frame → Frame → Builder
  | [], root => .inside [] (root.add e)
  | f :: opened, root => .inside (f.add e :: opened) root

def addText (text : Str) : List Frame → Frame → Builder
  | [], root => .inside [] (root.addText text)
  | f :: opened, root => .inside (f.addText text :: opened) root

def openElement (opened : List Frame) (root : Frame) (name : Str) (attributes : List (Str × Str))
    (empty : Bool) : Option Builder :=
  (newFrame names (scope opened root) name attributes).map fun f =>
    if empty then addChild f.element opened root else .inside (f :: opened) root

def closeElement (name : Str) : List Frame → Frame → Option Builder
  | [], root => if root.name = name then some (.epilog root.element) else none
  | f :: opened, root => if f.name = name then some (addChild f.element opened root) else none

def Builder.event : Builder → Event → Option Builder
  | .prolog _, .ignorable => some (.prolog false)
  | .prolog fresh, .declaration => if fresh then some (.prolog false) else none
  | .prolog _, .opening name attributes empty =>
    (newFrame names [] name attributes).map fun f =>
      if empty then .epilog f.element else .inside [] f
  | .prolog _, .cdata _ => none
  | .prolog _, .closing _ => none
  | .inside opened root, .ignorable => some (.inside opened root)
  | .inside _ _, .declaration => none
  | .inside opened root, .cdata text => some (addText text opened root)
  | .inside opened root, .opening name attributes empty =>
    openElement names opened root name attributes empty
  | .inside opened root, .closing name => closeElement name opened root
  | .epilog root, .ignorable => some (.epilog root)
  | .epilog _, _ => none

def isSpaceByte (b : Byte) : Bool := b = 0x20 || b = 0x09 || b = 0x0A || b = 0x0D

/- Outside the root only white space may stand; a byte order mark may begin the document. -/
def Builder.text : Builder → List Byte → Option Builder
  | .prolog fresh, bytes =>
    let rest := if fresh ∧ [0xEF, 0xBB, 0xBF] <+: bytes then bytes.drop 3 else bytes
    if rest = [] then some (.prolog fresh)
    else if rest.all isSpaceByte then some (.prolog false) else none
  | .inside opened root, bytes => (characterData bytes).map fun text => addText text opened root
  | .epilog root, bytes => if bytes.all isSpaceByte then some (.epilog root) else none

/-! ### Bytes -/

/-- Text so far, or markup so far and the quotation mark that is open in it. -/
inductive Scan where
  | text (acc : List Byte)
  | markup (acc : List Byte) (quote : Option Byte)

structure State where
  scan : Scan
  builder : Builder

def start : State := ⟨.text [], .prolog true⟩

def lessThan : Byte := 0x3C
def greaterThan : Byte := 0x3E

def isComment (acc : List Byte) : Bool := [0x21, 0x2D, 0x2D].isPrefixOf acc
def isCdata (acc : List Byte) : Bool :=
  [0x21, 0x5B, 0x43, 0x44, 0x41, 0x54, 0x41, 0x5B].isPrefixOf acc
def isInstruction (acc : List Byte) : Bool := [0x3F].isPrefixOf acc

/-- Whether `>` ends the markup. -/
def complete (acc : List Byte) (quote : Option Byte) : Bool :=
  if isComment acc then 5 ≤ acc.length && [0x2D, 0x2D].isSuffixOf acc
  else if isCdata acc then 10 ≤ acc.length && [0x5D, 0x5D].isSuffixOf acc
  else if isInstruction acc then 2 ≤ acc.length && [0x3F].isSuffixOf acc
  else quote.isNone

def quoteAfter (quote : Option Byte) (b : Byte) : Option Byte :=
  match quote with
  | some q => if b = q then none else some q
  | none => if b = 0x22 ∨ b = 0x27 then some b else none

def flush (acc : List Byte) (builder : Builder) : Option Builder :=
  if acc = [] then some builder else builder.text acc

def feed (s : State) (b : Byte) : Option State :=
  match s.scan with
  | .text acc =>
    if b = lessThan then (flush acc s.builder).map (State.mk (.markup [] none))
    else some ⟨.text (acc ++ [b]), s.builder⟩
  | .markup acc quote =>
    if b = greaterThan ∧ complete acc quote then
      (markupEvent names acc).bind fun event =>
        (s.builder.event names event).map (State.mk (.text []))
    else some ⟨.markup (acc ++ [b]) (quoteAfter quote b), s.builder⟩

def run (s : State) (bytes : List Byte) : Option State := bytes.foldlM (feed names) s

def finish (s : State) : Option Element :=
  match s with
  | ⟨.text acc, .epilog root⟩ => if acc.all isSpaceByte then some root else none
  | _ => none

/-- `ElementTree.fromstring`; `none` is a parse error. -/
def fromstring (bytes : List Byte) : Option Element := (run names start bytes).bind finish

/-! ### Runs -/

variable {names}

theorem run_nil (s : State) : run names s [] = some s := rfl

theorem run_cons (s : State) (b : Byte) (bytes : List Byte) :
    run names s (b :: bytes) = (feed names s b).bind fun t => run names t bytes := rfl

theorem run_append (s : State) (bytes later : List Byte) :
    run names s (bytes ++ later) = (run names s bytes).bind fun t => run names t later := by
  unfold run
  rw [List.foldlM_append]
  rfl

theorem run_text {bytes : List Byte} (h : lessThan ∉ bytes) (acc : List Byte) (builder : Builder) :
    run names ⟨.text acc, builder⟩ bytes = some ⟨.text (acc ++ bytes), builder⟩ := by
  induction bytes generalizing acc with
  | nil => rw [List.append_nil, run_nil]
  | cons b bytes ih =>
    rw [List.mem_cons, not_or] at h
    have hfeed : feed names ⟨.text acc, builder⟩ b = some ⟨.text (acc ++ [b]), builder⟩ := by
      unfold feed
      exact if_neg (Ne.symm h.1)
    rw [run_cons, hfeed, Option.bind_some, ih h.2, List.append_assoc, List.singleton_append]

theorem event_epilog {root : Element} {event : Event} {builder : Builder}
    (h : (Builder.epilog root).event names event = some builder) : builder = .epilog root := by
  cases event <;> cases h
  rfl

theorem text_epilog {root : Element} {bytes : List Byte} {builder : Builder}
    (h : (Builder.epilog root).text bytes = some builder) : builder = .epilog root := by
  unfold Builder.text at h
  dsimp only at h
  split_ifs at h
  cases h
  rfl

theorem flush_epilog {root : Element} {acc : List Byte} {builder : Builder}
    (h : flush acc (.epilog root) = some builder) : builder = .epilog root := by
  unfold flush at h
  split_ifs at h with hacc
  · cases h
    rfl
  · exact text_epilog h

theorem feed_epilog {scan : Scan} {root : Element} {b : Byte} {t : State}
    (h : feed names ⟨scan, .epilog root⟩ b = some t) : t.builder = .epilog root := by
  unfold feed at h
  cases scan with
  | text acc =>
    dsimp only at h
    split_ifs at h with hb
    · obtain ⟨builder, hbuilder, rfl⟩ := Option.map_eq_some_iff.mp h
      exact flush_epilog hbuilder
    · cases h
      rfl
  | markup acc quote =>
    dsimp only at h
    split_ifs at h with hb
    · obtain ⟨event, _, hevent⟩ := Option.bind_eq_some_iff.mp h
      obtain ⟨builder, hbuilder, rfl⟩ := Option.map_eq_some_iff.mp hevent
      exact event_epilog hbuilder
    · cases h
      rfl

theorem run_epilog {scan : Scan} {root : Element} {bytes : List Byte} {t : State}
    (h : run names ⟨scan, .epilog root⟩ bytes = some t) : t.builder = .epilog root := by
  induction bytes generalizing scan with
  | nil =>
    cases h
    rfl
  | cons b bytes ih =>
    rw [run_cons] at h
    obtain ⟨⟨scan', builder'⟩, hfeed, hrest⟩ := Option.bind_eq_some_iff.mp h
    obtain rfl := feed_epilog hfeed
    exact ih hrest

theorem finish_eq_some {s : State} {root : Element} (h : finish s = some root) :
    ∃ acc, s = ⟨.text acc, .epilog root⟩ := by
  unfold finish at h
  split at h
  · split_ifs at h
    cases h
    exact ⟨_, rfl⟩
  · cases h

/-! ### Runs that agree inside the root -/

/-- Two roots: the first is called `name`, both have the namespaces `bindings`, and the second has
`before` and then the children of the first. -/
structure Roots (before : List Element) (name : Str) (bindings : Bindings) (f g : Frame) : Prop where
  name : f.name = name
  first : f.bindings = bindings
  second : g.bindings = bindings
  children : g.children = before ++ f.children

/-- The same open elements in two such roots, or nothing but the end. -/
inductive Builder.Agree (before : List Element) (name : Str) (bindings : Bindings) :
    Builder → Builder → Prop
  | inside {opened : List Frame} {f g : Frame} (hroots : Roots before name bindings f g) :
    Agree before name bindings (.inside opened f) (.inside opened g)
  | epilog (e e' : Element) : Agree before name bindings (.epilog e) (.epilog e')

structure Agree (before : List Element) (name : Str) (bindings : Bindings) (s t : State) : Prop where
  scan : s.scan = t.scan
  builder : Builder.Agree before name bindings s.builder t.builder

section
variable {before : List Element} {name : Str} {bindings : Bindings} {opened : List Frame}
  {f g : Frame}

theorem scope_agree (hroots : Roots before name bindings f g) : scope opened f = scope opened g := by
  cases opened with
  | nil => exact hroots.first.trans hroots.second.symm
  | cons _ _ => rfl

theorem add_roots (hroots : Roots before name bindings f g) (e : Element) :
    Roots before name bindings (f.add e) (g.add e) := by
  refine ⟨hroots.name, hroots.first, hroots.second, ?_⟩
  unfold Frame.add
  rw [hroots.children, List.append_assoc]

theorem addText_frame (f : Frame) (text : Str) : (f.addText text).name = f.name ∧
    (f.addText text).bindings = f.bindings ∧ (f.addText text).children = f.children := by
  unfold Frame.addText
  split_ifs <;> exact ⟨rfl, rfl, rfl⟩

theorem roots_congr {f' g' : Frame} (hroots : Roots before name bindings f g)
    (hf : f'.name = f.name ∧ f'.bindings = f.bindings ∧ f'.children = f.children)
    (hg : g'.name = g.name ∧ g'.bindings = g.bindings ∧ g'.children = g.children) :
    Roots before name bindings f' g' := by
  obtain ⟨hname, hfirst, hsecond, hchildren⟩ := hroots
  refine ⟨hf.1.trans hname, hf.2.1.trans hfirst, hg.2.1.trans hsecond, ?_⟩
  rw [hg.2.2, hf.2.2, hchildren]

theorem addText_roots (hroots : Roots before name bindings f g) (text : Str) :
    Roots before name bindings (f.addText text) (g.addText text) :=
  roots_congr hroots (addText_frame f text) (addText_frame g text)

theorem addChild_agree (hroots : Roots before name bindings f g) (e : Element) :
    Builder.Agree before name bindings (addChild e opened f) (addChild e opened g) := by
  cases opened with
  | nil => exact .inside (add_roots hroots e)
  | cons _ _ => exact .inside hroots

theorem addText_agree (hroots : Roots before name bindings f g) (text : Str) :
    Builder.Agree before name bindings (addText text opened f) (addText text opened g) := by
  cases opened with
  | nil => exact .inside (addText_roots hroots text)
  | cons _ _ => exact .inside hroots

theorem openElement_agree (hroots : Roots before name bindings f g) {raw : Str}
    {attributes : List (Str × Str)} {empty : Bool} {c : Builder}
    (h : openElement names opened g raw attributes empty = some c) :
    ∃ b, openElement names opened f raw attributes empty = some b ∧
      Builder.Agree before name bindings b c := by
  unfold openElement at h ⊢
  obtain ⟨new, hnew, rfl⟩ := Option.map_eq_some_iff.mp h
  rw [scope_agree hroots, hnew]
  refine ⟨_, rfl, ?_⟩
  cases empty with
  | true => exact addChild_agree hroots new.element
  | false => exact .inside hroots

theorem closeElement_agree (hroots : Roots before name bindings f g) {raw : Str} {c : Builder}
    (h : closeElement raw opened g = some c) :
    (∃ b, closeElement raw opened f = some b ∧ Builder.Agree before name bindings b c) ∨
      (closeElement raw opened f = none ∧ ∃ root, c = .epilog root) := by
  cases opened with
  | nil =>
    unfold closeElement at h ⊢
    dsimp only at h ⊢
    split_ifs at h
    cases h
    split_ifs with hname
    · exact Or.inl ⟨_, rfl, .epilog _ _⟩
    · exact Or.inr ⟨rfl, _, rfl⟩
  | cons top opened =>
    unfold closeElement at h ⊢
    dsimp only at h ⊢
    split_ifs at h ⊢
    cases h
    exact Or.inl ⟨_, rfl, addChild_agree hroots _⟩

theorem event_agree {b c c' : Builder} (hagree : Builder.Agree before name bindings b c)
    {event : Event} (h : c.event names event = some c') :
    (∃ b', b.event names event = some b' ∧ Builder.Agree before name bindings b' c') ∨
      (b.event names event = none ∧ ∃ root, c' = .epilog root) := by
  cases hagree with
  | epilog e e' =>
    cases event <;> cases h
    exact Or.inl ⟨_, rfl, .epilog _ _⟩
  | inside hroots =>
    cases event with
    | ignorable =>
      cases h
      exact Or.inl ⟨_, rfl, .inside hroots⟩
    | declaration => cases h
    | cdata text =>
      cases h
      exact Or.inl ⟨_, rfl, addText_agree hroots text⟩
    | opening raw attributes empty => exact Or.inl (openElement_agree hroots h)
    | closing raw => exact closeElement_agree hroots h

theorem text_agree {b c c' : Builder} (hagree : Builder.Agree before name bindings b c)
    {bytes : List Byte} (h : c.text bytes = some c') :
    ∃ b', b.text bytes = some b' ∧ Builder.Agree before name bindings b' c' := by
  cases hagree with
  | epilog e e' =>
    unfold Builder.text at h ⊢
    dsimp only at h ⊢
    split_ifs at h ⊢
    cases h
    exact ⟨_, rfl, .epilog _ _⟩
  | inside hroots =>
    unfold Builder.text at h ⊢
    dsimp only at h ⊢
    obtain ⟨text, htext, rfl⟩ := Option.map_eq_some_iff.mp h
    rw [htext]
    exact ⟨_, rfl, addText_agree hroots text⟩

theorem flush_agree {b c c' : Builder} (hagree : Builder.Agree before name bindings b c)
    {acc : List Byte} (h : flush acc c = some c') :
    ∃ b', flush acc b = some b' ∧ Builder.Agree before name bindings b' c' := by
  unfold flush at h ⊢
  split_ifs at h ⊢ with hacc
  · cases h
    exact ⟨b, rfl, hagree⟩
  · exact text_agree hagree h

/-- A byte read in both states; only the end of the root may stop the first run alone. -/
theorem feed_agree {s t t' : State} (hagree : Agree before name bindings s t) {b : Byte}
    (h : feed names t b = some t') :
    (∃ s', feed names s b = some s' ∧ Agree before name bindings s' t') ∨
      (feed names s b = none ∧ ∃ root, t'.builder = .epilog root) := by
  obtain ⟨scan, builder⟩ := s
  obtain ⟨scan', builder'⟩ := t
  obtain ⟨hscan, hbuilder⟩ := hagree
  obtain rfl : scan = scan' := hscan
  unfold feed at h ⊢
  cases scan with
  | text acc =>
    dsimp only at h ⊢
    split_ifs at h ⊢ with hb
    · obtain ⟨c', hc', rfl⟩ := Option.map_eq_some_iff.mp h
      obtain ⟨b', hb', hnext⟩ := flush_agree hbuilder hc'
      rw [hb']
      exact Or.inl ⟨_, rfl, rfl, hnext⟩
    · cases h
      exact Or.inl ⟨_, rfl, rfl, hbuilder⟩
  | markup acc quote =>
    dsimp only at h ⊢
    split_ifs at h ⊢ with hb
    · obtain ⟨event, hevent, hnext⟩ := Option.bind_eq_some_iff.mp h
      obtain ⟨c', hc', rfl⟩ := Option.map_eq_some_iff.mp hnext
      rw [hevent, Option.bind_some]
      rcases event_agree hbuilder hc' with ⟨b', hb', hagree⟩ | ⟨hnone, root, rfl⟩
      · rw [hb']
        exact Or.inl ⟨_, rfl, rfl, hagree⟩
      · rw [hnone]
        exact Or.inr ⟨rfl, root, rfl⟩
    · cases h
      exact Or.inl ⟨_, rfl, rfl, hbuilder⟩

theorem run_agree {s t t' : State} (hagree : Agree before name bindings s t) {bytes : List Byte}
    (h : run names t bytes = some t') :
    (∃ s', run names s bytes = some s' ∧ Agree before name bindings s' t') ∨
      (run names s bytes = none ∧ ∃ root, t'.builder = .epilog root) := by
  induction bytes generalizing s t with
  | nil =>
    cases h
    exact Or.inl ⟨s, rfl, hagree⟩
  | cons b bytes ih =>
    rw [run_cons] at h
    obtain ⟨t₁, hfeed, hrest⟩ := Option.bind_eq_some_iff.mp h
    rw [run_cons]
    rcases feed_agree hagree hfeed with ⟨s₁, hs₁, hnext⟩ | ⟨hnone, root, hroot⟩
    · rw [hs₁]
      exact ih hnext hrest
    · rw [hnone]
      obtain ⟨scan, builder⟩ := t₁
      obtain rfl : builder = .epilog root := hroot
      exact Or.inr ⟨rfl, root, run_epilog hrest⟩

/-- What is read between two states directly inside the root, read in a root of its own. -/
theorem run_between {g' : Frame} {acc : List Byte} {s t : State}
    (hagree : Agree before name bindings s t) {bytes : List Byte}
    (h : run names t bytes = some ⟨.text acc, .inside [] g'⟩) :
    ∃ f', run names s bytes = some ⟨.text acc, .inside [] f'⟩ ∧ Roots before name bindings f' g' := by
  rcases run_agree hagree h with ⟨⟨scan, builder⟩, hs', hscan, hbuilder⟩ | ⟨_, root, hroot⟩
  · obtain rfl : scan = .text acc := hscan
    cases hbuilder with
    | @inside opened f' _ hroots => exact ⟨f', hs', hroots⟩
  · cases hroot

/-! ### Text that is left out -/

/-- Text that may stand inside an element. -/
def Readable (acc : List Byte) : Prop := acc = [] ∨ (characterData acc).isSome

theorem flush_inside {acc : List Byte} {c : Builder} (h : flush acc (.inside [] f) = some c) :
    Readable acc ∧ ∃ f', c = .inside [] f' ∧ f'.name = f.name ∧ f'.bindings = f.bindings ∧
      f'.children = f.children := by
  unfold flush at h
  split_ifs at h with hacc
  · cases h
    exact ⟨Or.inl hacc, f, rfl, rfl, rfl, rfl⟩
  · unfold Builder.text at h
    obtain ⟨text, htext, rfl⟩ := Option.map_eq_some_iff.mp h
    exact ⟨Or.inr (Option.isSome_of_eq_some htext), _, rfl, addText_frame f text⟩

theorem flush_readable {acc : List Byte} (h : Readable acc) :
    ∃ c, flush acc (.inside [] f) = some c := by
  unfold flush
  split_ifs with hacc
  · exact ⟨_, rfl⟩
  · obtain ⟨text, htext⟩ := Option.isSome_iff_exists.mp (h.resolve_left hacc)
    unfold Builder.text
    dsimp only
    rw [htext]
    exact ⟨_, rfl⟩

/-- Both texts end here, whatever stood in them. -/
theorem feed_gap {acc acc' : List Byte} {t' : State} (hroots : Roots before name bindings f g)
    (hreadable : Readable acc → Readable acc')
    (h : feed names ⟨.text acc, .inside [] g⟩ lessThan = some t') :
    ∃ s', feed names ⟨.text acc', .inside [] f⟩ lessThan = some s' ∧
      Agree before name bindings s' t' := by
  unfold feed at h ⊢
  dsimp only at h ⊢
  rw [if_pos rfl] at h ⊢
  obtain ⟨c, hc, rfl⟩ := Option.map_eq_some_iff.mp h
  obtain ⟨hacc, g', rfl, hg⟩ := flush_inside hc
  obtain ⟨b, hb⟩ := flush_readable (f := f) (hreadable hacc)
  obtain ⟨_, f', rfl, hf⟩ := flush_inside hb
  rw [hb]
  exact ⟨_, rfl, rfl, .inside (roots_congr hroots hf hg)⟩

theorem decodeUtf8_ascii {b : Byte} (hb : b.toNat < 0x80) (bytes : List Byte) :
    decodeUtf8 (b :: bytes) = (decodeUtf8 bytes).map (Char.ofNat b.toNat :: ·) := by
  rw [decodeUtf8.eq_def (b :: bytes)]
  exact if_pos hb

theorem newlines_cons (c : Char) (text : Str) :
    (∃ d, newlines (c :: text) = d :: newlines text ∧ (d = c ∨ d = '\n')) ∨
      newlines (c :: text) = newlines text := by
  by_cases hc : c = '\r'
  · subst hc
    by_cases hnext : ∃ rest, text = '\n' :: rest
    · obtain ⟨rest, rfl⟩ := hnext
      exact Or.inr rfl
    · refine Or.inl ⟨'\n', ?_, Or.inr rfl⟩
      rw [newlines]
      exact fun rest hrest => hnext ⟨rest, hrest⟩
  · refine Or.inl ⟨c, ?_, Or.inl rfl⟩
    rw [newlines]
    · exact fun _ h => absurd h hc
    · exact hc

theorem expand_cons {c : Char} (hc : c ≠ '&') {text : Str}
    (h : (expand id none (newlines (c :: text))).isSome) :
    (expand id none (newlines text)).isSome := by
  rcases newlines_cons c text with ⟨d, hd, heither⟩ | heq
  · have hne : d ≠ '&' := by
      rcases heither with rfl | rfl
      · exact hc
      · decide
    rw [hd, expand, if_neg hne, Option.isSome_map] at h
    exact h
  · rw [heq] at h
    exact h

theorem characterData_tail {b : Byte} (hb : b.toNat < 0x80) (hne : Char.ofNat b.toNat ≠ '&')
    {bytes : List Byte} (h : (characterData (b :: bytes)).isSome) : (characterData bytes).isSome := by
  unfold characterData at h ⊢
  rw [decodeUtf8_ascii hb] at h
  cases hdecode : decodeUtf8 bytes with
  | none =>
    rw [hdecode] at h
    cases h
  | some text =>
    rw [hdecode, Option.map_some, Option.bind_some] at h
    rw [Option.bind_some]
    split_ifs at h with hgood
    · have hall : text.all isChar := by
        rw [List.all_cons, Bool.and_eq_true] at hgood
        exact hgood.1.2
      have hend : ¬[']', ']', '>'] <:+: text := fun hin => hgood.2 (hin.trans (List.suffix_cons _ _).isInfix)
      rw [if_pos ⟨hall, hend⟩]
      exact expand_cons hne h
    · cases h

/-- The white space of `bytes.strip()`. -/
def isBlank (b : Byte) : Bool := b = 0x20 || (0x09 ≤ b.toNat && b.toNat ≤ 0x0D)

theorem isBlank_toNat {b : Byte} (h : isBlank b) :
    b.toNat = 0x20 ∨ (0x09 ≤ b.toNat ∧ b.toNat ≤ 0x0D) := by
  unfold isBlank at h
  rw [Bool.or_eq_true, Bool.and_eq_true, decide_eq_true_iff, decide_eq_true_iff,
    decide_eq_true_iff] at h
  rcases h with rfl | h
  · exact Or.inl rfl
  · exact Or.inr h

theorem isBlank_plain {b : Byte} (h : isBlank b) :
    b ≠ lessThan ∧ b ≠ greaterThan ∧ b.toNat < 0x80 ∧ Char.ofNat b.toNat ≠ '&' := by
  have hrange := isBlank_toNat h
  refine ⟨?_, ?_, by omega, ?_⟩
  · rintro rfl
    exact absurd hrange (by decide)
  · rintro rfl
    exact absurd hrange (by decide)
  · intro hchar
    have hcodes : ∀ n ∈ [0x20, 0x09, 0x0A, 0x0B, 0x0C, 0x0D], Char.ofNat n ≠ '&' := by decide
    refine hcodes b.toNat ?_ hchar
    simp only [List.mem_cons, List.not_mem_nil, or_false]
    omega

theorem blank_readable {lead : List Byte} (hlead : lead.all isBlank) {acc : List Byte}
    (h : Readable (lead ++ acc)) : Readable acc := by
  induction lead with
  | nil => exact h
  | cons b lead ih =>
    rw [List.all_cons, Bool.and_eq_true] at hlead
    obtain ⟨_, _, hascii, hamp⟩ := isBlank_plain hlead.1
    rcases h with hnil | hsome
    · cases hnil
    · exact ih hlead.2 (Or.inr (characterData_tail hascii hamp hsome))

theorem blank_lessThan {bytes : List Byte} (h : bytes.all isBlank) : lessThan ∉ bytes := by
  intro hmem
  exact (isBlank_plain (List.all_eq_true.mp h _ hmem)).1 rfl

/-- White space ends no markup. -/
theorem feed_blank {s t : State} {b : Byte} (hb : isBlank b) (h : feed names s b = some t)
    {acc : List Byte} {builder : Builder} (ht : t = ⟨.text acc, builder⟩) :
    ∃ acc', s = ⟨.text acc', builder⟩ := by
  obtain ⟨scan, builder'⟩ := s
  obtain ⟨hless, hgreater, _⟩ := isBlank_plain hb
  subst ht
  unfold feed at h
  cases scan with
  | text acc' =>
    dsimp only at h
    rw [if_neg hless] at h
    cases h
    exact ⟨acc', rfl⟩
  | markup acc' quote =>
    dsimp only at h
    rw [if_neg fun hboth => hgreater hboth.1] at h
    cases h

theorem run_blank {bytes : List Byte} (hblank : bytes.all isBlank) {s : State} {acc : List Byte}
    {builder : Builder} (h : run names s bytes = some ⟨.text acc, builder⟩) :
    ∃ acc', s = ⟨.text acc', builder⟩ := by
  induction bytes generalizing s with
  | nil =>
    cases h
    exact ⟨acc, rfl⟩
  | cons b bytes ih =>
    rw [List.all_cons, Bool.and_eq_true] at hblank
    rw [run_cons] at h
    obtain ⟨t, hfeed, hrest⟩ := Option.bind_eq_some_iff.mp h
    obtain ⟨acc', rfl⟩ := ih hblank.2 hrest
    exact feed_blank hblank.1 hfeed rfl

/-- What closes the root, without the white space around it, read in a root of its own. -/
theorem run_rest (hroots : Roots before name bindings f g) {lead core trail acc : List Byte}
    (hlead : lead.all isBlank) (htrail : trail.all isBlank) {root : Element}
    (h : run names ⟨.text [], .inside [] g⟩ (lead ++ core ++ trail) = some ⟨.text acc, .epilog root⟩) :
    run names ⟨.text [], .inside [] f⟩ core = none ∨
      ∃ acc' e, run names ⟨.text [], .inside [] f⟩ core = some ⟨.text acc', .epilog e⟩ := by
  rw [run_append, run_append, run_text (blank_lessThan hlead), Option.bind_some, List.nil_append] at h
  obtain ⟨t, ht, hend⟩ := Option.bind_eq_some_iff.mp h
  obtain ⟨acc₁, rfl⟩ := run_blank htrail hend
  have hmem : lessThan ∈ core := by
    by_contra hnot
    rw [run_text hnot] at ht
    cases ht
  obtain ⟨a, rest, rfl, ha⟩ := List.eq_append_cons_of_mem hmem
  rw [run_append, run_text ha, Option.bind_some, run_cons] at ht ⊢
  obtain ⟨t₁, hfeed, hrest⟩ := Option.bind_eq_some_iff.mp ht
  obtain ⟨s₁, hs₁, hagree⟩ := feed_gap hroots (blank_readable hlead) hfeed
  rw [List.nil_append, hs₁, Option.bind_some]
  rcases run_agree hagree hrest with ⟨⟨scan, builder⟩, hs', hscan, hbuilder⟩ | ⟨hnone, _⟩
  · obtain rfl : scan = .text acc₁ := hscan
    cases hbuilder with
    | epilog e _ => exact Or.inr ⟨acc₁, e, hs'⟩
  · exact Or.inl hnone

end

end AnalyticsEngine.Library.Xml
