/-
  Reading XML.

  The reader reports tags and the texts between them. A text goes from one tag or instruction to the next; comments in
  it do not count, and CDATA is a part of it. Texts are trimmed of blanks at both ends and left out if nothing remains.
  Instructions and the document type are not reported. Names are reported with their prefixes.
-/
import ClassDoc.Xml.Doctype
import ClassDoc.Xml.Prolog
import ClassDoc.Xml.Tag
namespace ClassDoc.Xml

namespace Scan

variable (s : Scan)

/-! ## Texts -/

/-- Reads a token between tags. Outside of the root there are only blanks, comments and instructions. -/
def content (t : Token) : Step :=
  let inRoot := !s.stack.isEmpty
  match t with
  | .char c =>
    if inRoot then (if isLiteralChar s.version c then (s.addText [c]).proceed else none)
    else if isSpace c then { s with started := true }.proceed
    else none
  | .referenceOpen => if inRoot then { s with reference := some [] }.proceed else none
  | .commentOpen => { s with started := true }.into .comment
  | .cdataOpen => if inRoot then s.into .cdata else none
  | .tagOpen => s.openTag
  | .closingOpen => if inRoot then s.flush.into .closingName else none
  | .instructionOpen => s.flush.into .instructionName
  | .doctypeOpen => if s.noDoctype then none else { s with started := true, noDoctype := true }.inType .outside
  | .cdataClose | .declarationOpen => none
  | t => if inRoot then (s.addText t.text).proceed else none

def comment (t : Token) : Step :=
  match t with
  | .commentClose => s.into .content
  | .char c => if isChar s.version c then s.proceed else none
  | _ => s.proceed

def cdata (t : Token) : Step :=
  match t with
  | .cdataClose => s.into .content
  | .char c => if isChar s.version c then (s.addText [c]).proceed else none
  | _ => none

/-! ## References -/

/-- Adds what a reference stands for: to the text between tags, or to a value. -/
def addReferred (text : List Char) : Scan := if s.place = .content then s.addText text else s.addWord text

/-- The character a reference stands for, if it is one of a character. -/
def character? (name : List Char) : Option (Option Char) :=
  match name with
  | '#' :: digits => (numbered? s.version digits).map some
  | name => some (named? name)

/-- Replaces a reference. Between tags the text of an entity can have markup, so it is read; in a value it is taken as it
is. -/
def refer (name : List Char) : Step := do
  let s := { s with reference := none }
  match ← s.character? name with
  | some c => (s.addReferred [c]).proceed
  | none =>
    let text ← s.entity? name
    if s.place = .content then return (s, text) else (s.addWord text).proceed

/-- Reads a token of a reference, whose name so far is given in reverse. -/
def inReference (name : List Char) (t : Token) : Step :=
  match t with
  | .char c =>
    if if name.isEmpty then isNameStart c || c == '#' else isNameChar c then
      { s with reference := some (c :: name) }.proceed
    else none
  | .referenceClose => s.refer name.reverse
  | _ => none

/-! ## Tokens -/

def stepAt (t : Token) : Place → Step
  | .content => s.content t
  | .tagName => s.tagName t
  | .tag => s.inTag t
  | .attributeName => s.attributeName t
  | .attributeEquals => s.attributeEquals t
  | .attributeValue => s.attributeValue t
  | .attributeEnd => s.attributeEnd t
  | .closingName => s.closingName t
  | .closingEnd => s.closingEnd t
  | .comment => s.comment t
  | .cdata => s.cdata t
  | .instructionName => s.instructionName t
  | .instructionData => s.instructionData t
  | .declaration d => s.declaration d t
  | .doctype d => s.doctype d t

def step (t : Token) : Step :=
  match s.reference with
  | some name => s.inReference name t
  | none => s.stepAt t s.place

end Scan

/-! ## Characters -/

/-- The state of the reader between two characters. -/
structure Reader where
  lexer : Lexer := {}
  scan : Scan := {}
  /-- The number of entities that were replaced since the last character of the input itself. -/
  replaced : Nat := 0
  /-- The number of characters of entities that are still to be read. -/
  pending : Nat := 0

namespace Reader

/-- The largest number of entities that are replaced before the next character of the input. -/
def maxReplaced : Nat := 10

/-- With more characters than this still to be read, no more entities are replaced. -/
def maxPending : Nat := 1000000

def feedPending (feed : Reader → Char → Except Reader Reader) (r : Reader) (c : Char) : Except Reader Reader :=
  feed { r with pending := r.pending - 1 } c

/-- Reads a token, and the text that is to be read behind it with `feed`. A mistake gives the reader before it. -/
def token (feed : Reader → Char → Except Reader Reader) (r : Reader) (t : Token) : Except Reader Reader :=
  match r.scan.step t with
  | none => .error r
  | some (scan, text) =>
    let r := { r with scan }
    if text.isEmpty then .ok r
    else if r.replaced ≥ maxReplaced || r.pending > maxPending then .error r
    else
      let r := { r with replaced := r.replaced + 1, pending := r.pending + text.length }
      text.foldlM (feedPending feed) r

/-- Reads a character, with at most so many levels of entities in entities. -/
def feed : (levels : Nat) → Reader → Char → Except Reader Reader
  | 0, r, _ => .error r
  | levels + 1, r, c =>
    match r.lexer.feed c with
    | none => .error r
    | some (lexer, tokens) => tokens.foldlM (token (feed levels)) { r with lexer }

/-- The characters that the bytes of a character stand for in the encoding of the input. -/
def decoded? (r : Reader) (c : Char) : Option (List Char) :=
  match r.scan.encoding with
  | .unstated | .utf8 => some [c]
  | .latin1 => some ((String.utf8EncodeChar c).map fun b => Char.ofNat b.toNat)
  | .ascii => if c.toNat < 128 then some [c] else none

def input (r : Reader) (c : Char) : Except Reader Reader :=
  match r.decoded? c with
  | none => .error r
  | some cs => cs.foldlM (feed (maxReplaced + 1)) { r with replaced := 0 }

def isComplete (r : Reader) : Bool :=
  r.lexer.mode = .area .content && r.scan.place = .content && r.scan.reference.isNone && r.scan.stack.isEmpty
    && r.scan.rootSeen

/-- Reads to the end of the input, or to the first mistake; tells whether there was none. -/
def readAll : Reader → List Char → Reader × Bool
  | r, [] => (r, r.isComplete)
  | r, c :: rest =>
    match r.input c with
    | .ok r => readAll r rest
    | .error r => (r, false)

/-- The character that can stand before a text to say that it is encoded as UTF-8. -/
def byteOrderMark : Char := Char.ofNat 0xFEFF

/-- The events of an XML text up to its end, or up to the first mistake; tells whether there was none. -/
def read (xml : String) : List (Event QName) × Bool :=
  let (r, complete) := match xml.toList with
    | [] => readAll {} []
    | c :: rest => if c = byteOrderMark then readAll { scan := { encoding := .utf8 } } rest else readAll {} (c :: rest)
  (r.scan.events.reverse, complete)

end Reader

end ClassDoc.Xml
