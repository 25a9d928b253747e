import AnalyticsEngine.Library.XmlTree

/-!
# Characters of parsed texts

Whatever the bytes are, the texts of a tree that `fromstring` returns are made of characters that
XML allows (`fromstring_sound`): references cannot bring in others.
-/

namespace AnalyticsEngine.Library.Xml

/-- A text of characters that XML allows. -/
def Sound (text : Str) : Prop := ∀ c ∈ text, isChar c = true

inductive Element.Sound : Element → Prop where
  | mk {tag text : Str} {attrib : List (Str × Str)} {children : List Element} :
    Xml.Sound text → (∀ child ∈ children, child.Sound) → Sound (.mk tag attrib text children)

theorem sound_nil : Sound [] := by
  intro c hc
  cases hc

theorem sound_append {a b : Str} (ha : Sound a) (hb : Sound b) : Sound (a ++ b) := by
  intro c hc
  rcases List.mem_append.mp hc with hc | hc
  · exact ha c hc
  · exact hb c hc

theorem sound_cons {c : Char} {text : Str} : Sound (c :: text) ↔ isChar c = true ∧ Sound text :=
  List.forall_mem_cons

/-! ### Texts -/

theorem newlines_sound {text : Str} (h : Sound text) : Sound (newlines text) := by
  induction text using newlines.induct with
  | case1 => exact h
  | case2 rest ih =>
    unfold newlines
    exact sound_cons.mpr ⟨by decide, ih (sound_cons.mp (sound_cons.mp h).2).2⟩
  | case3 rest hne ih =>
    rw [newlines.eq_3 rest hne]
    exact sound_cons.mpr ⟨by decide, ih (sound_cons.mp h).2⟩
  | case4 c rest hcrlf hcr ih =>
    rw [newlines.eq_4 c rest hcrlf hcr]
    exact sound_cons.mpr ⟨(sound_cons.mp h).1, ih (sound_cons.mp h).2⟩

theorem charOfNumber_isChar {n : ℕ} {c : Char} (h : charOfNumber n = some c) : isChar c = true := by
  unfold charOfNumber at h
  split_ifs at h with hvalid
  cases h
  exact hvalid.2

theorem reference_isChar {name : Str} {c : Char} (h : reference name = some c) : isChar c = true := by
  unfold reference at h
  split at h
  · cases h
    decide
  · cases h
    decide
  · cases h
    decide
  · cases h
    decide
  · cases h
    decide
  · obtain ⟨n, _, hchar⟩ := Option.bind_eq_some_iff.mp h
    exact charOfNumber_isChar hchar
  · obtain ⟨n, _, hchar⟩ := Option.bind_eq_some_iff.mp h
    exact charOfNumber_isChar hchar
  · cases h

theorem expand_sound {name : Option Str} {text out : Str} (h : expand id name text = some out)
    (htext : Sound text) : Sound out := by
  induction text generalizing name out with
  | nil =>
    cases name with
    | none =>
      cases h
      exact sound_nil
    | some name => cases h
  | cons c rest ih =>
    obtain ⟨hc, hrest⟩ := sound_cons.mp htext
    cases name with
    | none =>
      unfold expand at h
      split_ifs at h with hamp
      · exact ih h hrest
      · obtain ⟨later, hlater, rfl⟩ := Option.map_eq_some_iff.mp h
        exact sound_cons.mpr ⟨hc, ih hlater hrest⟩
    | some name =>
      unfold expand at h
      split_ifs at h with hend
      · obtain ⟨d, hd, hmap⟩ := Option.bind_eq_some_iff.mp h
        obtain ⟨later, hlater, rfl⟩ := Option.map_eq_some_iff.mp hmap
        exact sound_cons.mpr ⟨reference_isChar hd, ih hlater hrest⟩
      · exact ih h hrest

theorem characterData_sound {bytes : List Byte} {text : Str} (h : characterData bytes = some text) :
    Sound text := by
  unfold characterData at h
  obtain ⟨decoded, _, hexpand⟩ := Option.bind_eq_some_iff.mp h
  split_ifs at hexpand with hchars
  exact expand_sound hexpand (newlines_sound (List.all_eq_true.mp hchars.1))

theorem sublist_sound {a b : Str} (h : a.Sublist b) (hb : Sound b) : Sound a :=
  fun c hc => hb c (h.mem hc)

variable {names : NameTable}

theorem attributes_event {text : Str} {event : Event} (h : openingTag text = some event) :
    ∃ name list empty, event = .opening name list empty := by
  unfold openingTag at h
  obtain ⟨list, _, rfl⟩ := Option.map_eq_some_iff.mp h
  exact ⟨_, _, _, rfl⟩

theorem closingTag_event {text : Str} {event : Event} (h : closingTag text = some event) :
    ∃ name, event = .closing name := by
  unfold closingTag at h
  split_ifs at h
  cases h
  exact ⟨_, rfl⟩

theorem instruction_event {text : Str} {event : Event} (h : instruction names text = some event) :
    event = .ignorable ∨ event = .declaration := by
  unfold instruction at h
  dsimp only at h
  split_ifs at h with hxml hname
  · obtain ⟨pseudo, _, hdeclared⟩ := Option.bind_eq_some_iff.mp h
    split_ifs at hdeclared
    cases hdeclared
    exact Or.inr rfl
  · cases h
    exact Or.inl rfl

/-- The text of a CDATA section. -/
theorem cdata_sound {bytes : List Byte} {text : Str} (h : markupEvent names bytes = some (.cdata text)) :
    Sound text := by
  unfold markupEvent at h
  obtain ⟨decoded, _, hevent⟩ := Option.bind_eq_some_iff.mp h
  split_ifs at hevent with hchars
  split at hevent
  · split_ifs at hevent
    cases hevent
  · rename_i rest _
    cases hevent
    apply newlines_sound
    have hrest : Sound rest := by
      apply sublist_sound _ (List.all_eq_true.mp hchars)
      exact (List.suffix_append ['!', '[', 'C', 'D', 'A', 'T', 'A', '['] rest).sublist
    exact sublist_sound ((List.dropLast_sublist _).trans (List.dropLast_sublist _)) hrest
  · rcases instruction_event hevent with h | h
    · cases h
    · cases h
  · obtain ⟨name, h⟩ := closingTag_event hevent
    cases h
  · obtain ⟨name, list, empty, h⟩ := attributes_event hevent
    cases h

/-! ### Trees -/

structure Frame.Sound (f : Frame) : Prop where
  text : Xml.Sound f.text
  children : ∀ child ∈ f.children, child.Sound

theorem Frame.Sound.element {f : Frame} (h : f.Sound) : f.element.Sound := .mk h.text h.children

theorem Frame.Sound.add {f : Frame} (h : f.Sound) {e : Element} (he : e.Sound) : (f.add e).Sound where
  text := h.text
  children := List.forall_mem_append.mpr ⟨h.children, List.forall_mem_singleton.mpr he⟩

theorem Frame.Sound.addText {f : Frame} (h : f.Sound) {text : Str} (ht : Xml.Sound text) :
    (f.addText text).Sound := by
  unfold Frame.addText
  split_ifs
  · exact ⟨sound_append h.text ht, h.children⟩
  · exact h

theorem newFrame_sound {bindings : Bindings} {name : Str} {attributes : List (Str × Str)} {f : Frame}
    (h : newFrame names bindings name attributes = some f) : f.Sound := by
  unfold newFrame at h
  split_ifs at h
  obtain ⟨found, _, h⟩ := Option.bind_eq_some_iff.mp h
  obtain ⟨tag, _, h⟩ := Option.bind_eq_some_iff.mp h
  obtain ⟨attrib, _, h⟩ := Option.bind_eq_some_iff.mp h
  split_ifs at h
  cases h
  exact ⟨sound_nil, fun _ hchild => by cases hchild⟩

inductive Builder.Sound : Builder → Prop where
  | prolog (fresh : Bool) : Sound (.prolog fresh)
  | inside {opened : List Frame} {root : Frame} :
    (∀ f ∈ opened, f.Sound) → root.Sound → Sound (.inside opened root)
  | epilog {root : Element} : root.Sound → Sound (.epilog root)

section
variable {opened : List Frame} {root : Frame} {e : Element}
  (hopened : ∀ f ∈ opened, f.Sound) (hroot : root.Sound)

include hopened hroot in
theorem addChild_sound (he : e.Sound) : (addChild e opened root).Sound := by
  cases opened with
  | nil => exact .inside hopened (hroot.add he)
  | cons f opened =>
    obtain ⟨hf, hlater⟩ := List.forall_mem_cons.mp hopened
    exact .inside (List.forall_mem_cons.mpr ⟨hf.add he, hlater⟩) hroot

include hopened hroot in
theorem addText_sound {text : Str} (ht : Sound text) : (addText text opened root).Sound := by
  cases opened with
  | nil => exact .inside hopened (hroot.addText ht)
  | cons f opened =>
    obtain ⟨hf, hlater⟩ := List.forall_mem_cons.mp hopened
    exact .inside (List.forall_mem_cons.mpr ⟨hf.addText ht, hlater⟩) hroot

include hopened hroot in
theorem openElement_sound {name : Str} {attributes : List (Str × Str)} {empty : Bool} {next : Builder}
    (h : openElement names opened root name attributes empty = some next) : next.Sound := by
  unfold openElement at h
  obtain ⟨f, hf, hnext⟩ := Option.map_eq_some_iff.mp h
  have hframe := newFrame_sound hf
  split_ifs at hnext
  · rw [← hnext]
    exact addChild_sound hopened hroot hframe.element
  · rw [← hnext]
    exact .inside (List.forall_mem_cons.mpr ⟨hframe, hopened⟩) hroot

include hopened hroot in
theorem closeElement_sound {name : Str} {next : Builder} (h : closeElement name opened root = some next) :
    next.Sound := by
  cases opened with
  | nil =>
    unfold closeElement at h
    dsimp only at h
    split_ifs at h
    cases h
    exact .epilog hroot.element
  | cons f opened =>
    obtain ⟨hf, hlater⟩ := List.forall_mem_cons.mp hopened
    unfold closeElement at h
    dsimp only at h
    split_ifs at h
    cases h
    exact addChild_sound hlater hroot hf.element

end

section
variable {builder next : Builder}

theorem event_sound {event : Event} (hevent : ∀ text, event = .cdata text → Sound text)
    (h : builder.event names event = some next) (hb : builder.Sound) : next.Sound := by
  cases hb with
  | prolog fresh =>
    cases event with
    | ignorable =>
      cases h
      exact .prolog false
    | declaration =>
      unfold Builder.event at h
      dsimp only at h
      split_ifs at h
      cases h
      exact .prolog false
    | opening name attributes empty =>
      obtain ⟨f, hf, hnext⟩ := Option.map_eq_some_iff.mp h
      have hframe := newFrame_sound hf
      split_ifs at hnext
      · rw [← hnext]
        exact .epilog hframe.element
      · rw [← hnext]
        exact .inside (fun _ hg => by cases hg) hframe
    | cdata text => cases h
    | closing name => cases h
  | inside hopened hroot =>
    cases event with
    | ignorable =>
      cases h
      exact .inside hopened hroot
    | declaration => cases h
    | cdata text =>
      cases h
      exact addText_sound hopened hroot (hevent text rfl)
    | opening name attributes empty => exact openElement_sound hopened hroot h
    | closing name => exact closeElement_sound hopened hroot h
  | epilog hroot =>
    rw [event_epilog h]
    exact .epilog hroot

theorem text_sound {bytes : List Byte} (h : builder.text bytes = some next) (hb : builder.Sound) :
    next.Sound := by
  cases hb with
  | prolog fresh =>
    unfold Builder.text at h
    dsimp only at h
    split_ifs at h
    all_goals
      cases h
      exact .prolog _
  | inside hopened hroot =>
    obtain ⟨text, htext, hnext⟩ := Option.map_eq_some_iff.mp h
    rw [← hnext]
    exact addText_sound hopened hroot (characterData_sound htext)
  | epilog hroot =>
    rw [text_epilog h]
    exact .epilog hroot

end

theorem feed_sound {s t : State} {b : Byte} (h : feed names s b = some t) (hs : s.builder.Sound) :
    t.builder.Sound := by
  unfold feed at h
  split at h
  · split_ifs at h with hb
    · obtain ⟨builder, hflush, rfl⟩ := Option.map_eq_some_iff.mp h
      unfold flush at hflush
      split_ifs at hflush
      · cases hflush
        exact hs
      · exact text_sound hflush hs
    · cases h
      exact hs
  · split_ifs at h with hb
    · obtain ⟨event, hmarkup, hevent⟩ := Option.bind_eq_some_iff.mp h
      obtain ⟨builder, hbuilder, rfl⟩ := Option.map_eq_some_iff.mp hevent
      refine event_sound (fun text htext => ?_) hbuilder hs
      rw [htext] at hmarkup
      exact cdata_sound hmarkup
    · cases h
      exact hs

theorem run_sound {s t : State} {bytes : List Byte} (h : run names s bytes = some t)
    (hs : s.builder.Sound) : t.builder.Sound := by
  induction bytes generalizing s with
  | nil =>
    cases h
    exact hs
  | cons b bytes ih =>
    rw [run_cons] at h
    obtain ⟨next, hfeed, hrest⟩ := Option.bind_eq_some_iff.mp h
    exact ih hrest (feed_sound hfeed hs)

theorem fromstring_sound {bytes : List Byte} {root : Element}
    (h : fromstring names bytes = some root) : root.Sound := by
  unfold fromstring at h
  obtain ⟨s, hrun, hfinish⟩ := Option.bind_eq_some_iff.mp h
  have hs := run_sound hrun (.prolog true)
  obtain ⟨acc, rfl⟩ := finish_eq_some hfinish
  cases hs with
  | epilog hroot => exact hroot

end AnalyticsEngine.Library.Xml
