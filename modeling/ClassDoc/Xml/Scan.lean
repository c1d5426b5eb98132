/-
  The scanner of XML between two tokens.
-/
import ClassDoc.Xml.Event
import ClassDoc.Xml.Name
import ClassDoc.Xml.Token
namespace ClassDoc.Xml

/-! ## Places -/

/-- What an XML declaration states. -/
inductive Pseudo where
  | version
  | encoding
  | standalone
  deriving DecidableEq

/-- What the declaration of a document is in the middle of. -/
inductive Declaring where
  /-- before the next part, if there is one -/
  | before (last : Option Pseudo)
  | name (p : Pseudo)
  | equals (p : Pseudo)
  | value (p : Pseudo)
  | after (p : Pseudo)
  deriving DecidableEq

/-- An entity whose text is being read. Names and texts are in reverse; names of parameter entities start with `%`. -/
structure EntityText where
  name : List Char
  mark : Token
  text : List Char := []
  deriving DecidableEq

/-- What a document type is in the middle of. Names and numbers are in reverse. -/
inductive Doctype where
  | outside
  | string (mark : Token)
  | comment
  /-- the first word of a declaration -/
  | keyword (letters : List Char)
  | beforeName
  /-- before the name of a parameter entity -/
  | beforeParameter
  | name (letters : List Char)
  | beforeValue (name : List Char)
  | value (e : EntityText)
  /-- behind `&` in a value -/
  | reference (e : EntityText)
  /-- behind `&#` in a value -/
  | number (e : EntityText) (digits : List Char)
  /-- a parameter entity in a value -/
  | inserted (e : EntityText) (name : List Char)
  /-- a parameter entity between declarations -/
  | expanded (name : List Char)
  /-- what is left of a declaration -/
  | rest
  deriving DecidableEq

/-- What the next token is a part of. -/
inductive Place where
  | content
  | tagName
  | tag
  | attributeName
  | attributeEquals
  | attributeValue
  | attributeEnd
  | closingName
  | closingEnd
  | comment
  | cdata
  | instructionName
  | instructionData
  | declaration (d : Declaring)
  | doctype (d : Doctype)
  deriving DecidableEq

/-! ## The scanner -/

/-- How the bytes of a text stand for characters. -/
inductive Encoding where
  /-- UTF-8, since nothing else was said -/
  | unstated
  | utf8
  | latin1
  | ascii
  deriving DecidableEq

/-- The tag that is read. -/
structure Tag where
  name : QName := {}
  /-- The prefixes in scope inside of the element. -/
  scope : List (List Char) := []
  attr : QName := {}
  /-- The attributes so far, in reverse. -/
  attributes : List (QName × List Char) := []

/-- The state of the reader between two tokens. -/
structure Scan where
  place : Place := .content
  version : Version := .v10
  encoding : Encoding := .unstated
  /-- The open elements, the innermost first, each with the prefixes in scope inside of it. -/
  stack : List (QName × List (List Char)) := []
  tag : Tag := {}
  /-- The text since the last tag or instruction, in reverse. -/
  run : List Char := []
  /-- The name or value that is being read, in reverse. -/
  word : List Char := []
  /-- The name that is being read has a colon. A name that starts outside of ASCII shares its colon with the name before
  it. -/
  colon : Bool := false
  mark : Option Token := none
  /-- The reference that is being read, in reverse. -/
  reference : Option (List Char) := none
  /-- The entities with their texts, the first one of a name first. -/
  entities : List (List Char × List Char) := []
  /-- The events so far, in reverse. -/
  events : List (Event QName) := []
  /-- Something was seen that cannot stand before the declaration of the document. -/
  started : Bool := false
  /-- A document type or an element was seen. -/
  noDoctype : Bool := false
  rootSeen : Bool := false

namespace Scan

variable (s : Scan)

/-- The scanner after a token, and a text that is to be read before anything else. -/
abbrev Step := Option (Scan × List Char)

def proceed : Step := some (s, [])

def into (place : Place) : Step := { s with place }.proceed

def addText (text : List Char) : Scan := { s with run := text.reverse ++ s.run }

def addWord (text : List Char) : Scan := { s with word := text.reverse ++ s.word }

/-- A text without blanks at both ends. -/
def trim (text : List Char) : List Char :=
  ((text.dropWhile isSpace).reverse.dropWhile isSpace).reverse

def flush : Scan :=
  let text := trim s.run.reverse
  { s with run := [], events := if text.isEmpty then s.events else .text (String.ofList text) :: s.events }

def scope : List (List Char) :=
  match s.stack with
  | [] => [xmlPrefix, xmlnsPrefix]
  | (_, scope) :: _ => scope

def entity? (name : List Char) : Option (List Char) := (s.entities.find? fun e => e.1 == name).map Prod.snd

/-- Adds an entity, unless there is one of this name. -/
def addEntity (name text : List Char) : Scan :=
  if (s.entity? name).isSome then s else { s with entities := s.entities ++ [(name, text)] }

/-! ## Names and values -/

/-- A name or value goes on, or it is complete. -/
inductive Progress (α : Type) where
  | more (s : Scan)
  | complete (a : α) (s : Scan)

/-- The word has no character, or only one, which is in ASCII. -/
def isShort : List Char → Bool
  | [] => true
  | [c] => c.toNat < 128
  | _ => false

def nameEnd : Option (Progress QName) := do
  let name ← qname? s.word.reverse
  return .complete name { s with word := [] }

/-- Reads a token of a name, which a blank or one of `ends` completes. A name has at most one colon. -/
def nameStep (ends : List Token) (t : Token) : Option (Progress QName) :=
  let s := { s with colon := s.colon && !isShort s.word }
  match t with
  | .char ':' => if s.word.isEmpty || s.colon then none else some (.more { s.addWord [':'] with colon := true })
  | .char c =>
    if if s.word.isEmpty then isNameStart c else isNameChar c then some (.more (s.addWord [c]))
    else if isSpace c then s.nameEnd
    else none
  | t => if ends.contains t then s.nameEnd else none

/-- Reads a token of a value between quotes. No tag and no instruction can start in it. -/
def valueStep (t : Token) : Option (Progress (List Char)) :=
  match s.mark with
  | none =>
    match t with
    | .quote | .apostrophe => some (.more { s with mark := some t })
    | .char c => if isSpace c then some (.more s) else none
    | _ => none
  | some mark =>
    if t = mark then some (.complete s.word.reverse { s with mark := none, word := [] })
    else match t with
      | .referenceOpen => some (.more { s with reference := some [] })
      | .tagOpen | .instructionOpen => none
      | .char c => if isLiteralChar s.version c then some (.more (s.addWord [c])) else none
      | t => some (.more (s.addWord t.text))

end Scan

end ClassDoc.Xml
