import AnalyticsEngine.Library.Words
import Mathlib.Data.List.Infix

/-!
# XML markup

The parts of an XML document as a non-validating processor reads them: strict UTF-8, characters,
references, names, tags, comments, instructions and the XML declaration. There is no document type
declaration, so the only entities are the five predefined ones, and a declared encoding other than
UTF-8 is refused. Which characters beyond ASCII may stand in names is a table of the processor.
-/

namespace AnalyticsEngine.Library.Xml

abbrev Str := List Char

/-! ### Characters -/

def isContinuation (b : Byte) : Bool := 0x80 ≤ b.toNat && b.toNat < 0xC0

/- Overlong forms, surrogates and codes above U+10FFFF are refused. -/
def decodeUtf8 : List Byte → Option Str
  | [] => some []
  | a :: rest =>
    if a.toNat < 0x80 then (decodeUtf8 rest).map (Char.ofNat a.toNat :: ·)
    else match rest with
      | [] => none
      | b :: rest =>
        if 0xC2 ≤ a.toNat ∧ a.toNat < 0xE0 ∧ isContinuation b then
          (decodeUtf8 rest).map (Char.ofNat (a.toNat % 0x20 * 0x40 + b.toNat % 0x40) :: ·)
        else match rest with
          | [] => none
          | c :: rest =>
            let code := a.toNat % 0x10 * 0x1000 + b.toNat % 0x40 * 0x40 + c.toNat % 0x40
            if 0xE0 ≤ a.toNat ∧ a.toNat < 0xF0 ∧ isContinuation b ∧ isContinuation c ∧
                0x800 ≤ code ∧ ¬(0xD800 ≤ code ∧ code < 0xE000) then
              (decodeUtf8 rest).map (Char.ofNat code :: ·)
            else match rest with
              | [] => none
              | d :: rest =>
                let code := a.toNat % 0x08 * 0x40000 + b.toNat % 0x40 * 0x1000 +
                  c.toNat % 0x40 * 0x40 + d.toNat % 0x40
                if 0xF0 ≤ a.toNat ∧ a.toNat < 0xF5 ∧ isContinuation b ∧ isContinuation c ∧
                    isContinuation d ∧ 0x10000 ≤ code ∧ code < 0x110000 then
                  (decodeUtf8 rest).map (Char.ofNat code :: ·)
                else none

/-- `Char`; a `Char` of Lean is never a surrogate. -/
def isChar (c : Char) : Bool :=
  c = '\t' || c = '\n' || c = '\r' ||
    (0x20 ≤ c.toNat && c.toNat ≠ 0xFFFE && c.toNat ≠ 0xFFFF)

def isSpace (c : Char) : Bool := c = ' ' || c = '\t' || c = '\n' || c = '\r'

/-- Line ends. -/
def newlines : Str → Str
  | [] => []
  | '\r' :: '\n' :: rest => '\n' :: newlines rest
  | '\r' :: rest => '\n' :: newlines rest
  | c :: rest => c :: newlines rest

/-! ### References -/

def digit (base : ℕ) (c : Char) : Option ℕ :=
  let value :=
    if c.isDigit then c.toNat - 48
    else if 'a' ≤ c ∧ c ≤ 'f' then c.toNat - 87
    else if 'A' ≤ c ∧ c ≤ 'F' then c.toNat - 55
    else base
  if value < base then some value else none

def number (base : ℕ) (digits : Str) : Option ℕ :=
  if digits = [] then none
  else digits.foldlM (fun n c => (digit base c).map fun value => n * base + value) 0

def charOfNumber (n : ℕ) : Option Char :=
  if n.isValidChar ∧ isChar (Char.ofNat n) then some (Char.ofNat n) else none

def reference : Str → Option Char
  | ['l', 't'] => some '<'
  | ['g', 't'] => some '>'
  | ['a', 'm', 'p'] => some '&'
  | ['q', 'u', 'o', 't'] => some '"'
  | ['a', 'p', 'o', 's'] => some (Char.ofNat 39)
  | '#' :: 'x' :: digits => (number 16 digits).bind charOfNumber
  | '#' :: digits => (number 10 digits).bind charOfNumber
  | _ => none

/- References expanded and other characters through `literal`; the first argument is the name of a
reference that has begun. -/
def expand (literal : Char → Char) : Option Str → Str → Option Str
  | none, [] => some []
  | some _, [] => none
  | none, c :: rest =>
    if c = '&' then expand literal (some []) rest
    else (expand literal none rest).map (literal c :: ·)
  | some name, c :: rest =>
    if c = ';' then (reference name).bind fun d => (expand literal none rest).map (d :: ·)
    else expand literal (some (name ++ [c])) rest

/-- The text between two pieces of markup. -/
def characterData (bytes : List Byte) : Option Str :=
  (decodeUtf8 bytes).bind fun text =>
    if text.all isChar ∧ ¬[']', ']', '>'] <:+: text then expand id none (newlines text) else none

def attributeValue (value : Str) : Option Str :=
  if '<' ∈ value then none
  else expand (fun c => if isSpace c then ' ' else c) none (newlines value)

/-! ### Names and attributes -/

/-- The characters beyond ASCII that may begin a name, and those that may go on with it. -/
structure NameTable where
  start : Char → Bool
  later : Char → Bool

variable (names : NameTable)

def isNameStart (c : Char) : Bool :=
  c.isAlpha || c = '_' || (0x80 ≤ c.toNat && names.start c)

def isNameChar (c : Char) : Bool :=
  isNameStart names c || c.isDigit || c = '-' || c = '.' || (0x80 ≤ c.toNat && names.later c)

/-- A name without a colon. -/
def isNCName : Str → Bool
  | [] => false
  | c :: rest => isNameStart names c && rest.all (isNameChar names)

/-- A name's prefix, empty where it has none, and its local part. -/
def qualifiedName (name : Str) : Option (Str × Str) :=
  let first := name.takeWhile (· ≠ ':')
  match name.dropWhile (· ≠ ':') with
  | [] => if isNCName names first then some ([], first) else none
  | _ :: later =>
    if isNCName names first && isNCName names later then some (first, later) else none

/-- The characters up to white space, `=`, `/` or a quotation mark. -/
def nameEnds (c : Char) : Bool :=
  isSpace c || c = '=' || c = '/' || c = '"' || c = Char.ofNat 39

/- Attributes with their values as written. Each takes more than one character, so that the length
of the text is fuel enough. -/
def rawAttributes : ℕ → Str → Option (List (Str × Str))
  | 0, text => if text.all isSpace then some [] else none
  | fuel + 1, text =>
    if text.all isSpace then some []
    else if (text.head?.map isSpace).getD false then
      let body := text.dropWhile isSpace
      let name := body.takeWhile fun c => !nameEnds c
      match (body.dropWhile fun c => !nameEnds c).dropWhile isSpace with
      | '=' :: rest =>
        match rest.dropWhile isSpace with
        | quote :: rest =>
          if quote = '"' ∨ quote = Char.ofNat 39 then
            match rest.dropWhile (· ≠ quote) with
            | _ :: later => (rawAttributes fuel later).map ((name, rest.takeWhile (· ≠ quote)) :: ·)
            | [] => none
          else none
        | [] => none
      | _ => none
    else none

def attributes (text : Str) : Option (List (Str × Str)) := do
  let raw ← rawAttributes text.length text
  raw.mapM fun a => (attributeValue a.2).map fun value => (a.1, value)

/-! ### Markup -/

inductive Event where
  -- a comment or a processing instruction
  | ignorable
  | declaration
  | cdata (text : Str)
  | opening (name : Str) (attributes : List (Str × Str)) (empty : Bool)
  | closing (name : Str)

/-- The values of a declaration. -/
def isDeclared (c : Char) : Bool := c.isAlphanum || c = '.' || c = '_' || c = '-' || c = ':'

def isDeclaration (pseudo : List (Str × Str)) : Bool :=
  let isVersion := fun a : Str × Str =>
    a.1 = "version".toList && a.2.all isDeclared && a.2 ≠ []
  let isEncoding := fun a : Str × Str =>
    a.1 = "encoding".toList && a.2.map Char.toLower = "utf-8".toList
  let isStandalone := fun a : Str × Str =>
    a.1 = "standalone".toList && (a.2 = "yes".toList || a.2 = "no".toList)
  match pseudo with
  | [a] => isVersion a
  | [a, b] => isVersion a && (isEncoding b || isStandalone b)
  | [a, b, c] => isVersion a && isEncoding b && isStandalone c
  | _ => false

def instruction (text : Str) : Option Event :=
  let target := text.takeWhile fun c => !isSpace c
  let data := text.dropWhile fun c => !isSpace c
  if target = "xml".toList then
    (rawAttributes data.length data).bind fun pseudo =>
      if isDeclaration pseudo then some .declaration else none
  else if isNCName names target ∧ target.map Char.toLower ≠ "xml".toList then some .ignorable
  else none

def openingTag (text : Str) : Option Event :=
  let empty := text.getLast? = some '/'
  let body := if empty then text.dropLast else text
  let name := body.takeWhile fun c => !nameEnds c
  (attributes (body.dropWhile fun c => !nameEnds c)).map fun list => .opening name list empty

def closingTag (text : Str) : Option Event :=
  if (text.dropWhile fun c => !isSpace c).all isSpace then
    some (.closing (text.takeWhile fun c => !isSpace c))
  else none

/-- The event of a piece of markup, from behind its `<` to before its `>`. -/
def markupEvent (bytes : List Byte) : Option Event :=
  (decodeUtf8 bytes).bind fun text =>
    if ¬text.all isChar then none
    else match text with
      | '!' :: '-' :: '-' :: rest =>
        if ['-', '-'] <:+: rest.dropLast then none else some .ignorable
      | '!' :: '[' :: 'C' :: 'D' :: 'A' :: 'T' :: 'A' :: '[' :: rest =>
        some (.cdata (newlines rest.dropLast.dropLast))
      | '?' :: rest => instruction names rest.dropLast
      | '/' :: rest => closingTag rest
      | text => openingTag text

end AnalyticsEngine.Library.Xml
