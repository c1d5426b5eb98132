/-
  Tags.
-/
import ClassDoc.Xml.Scan
namespace ClassDoc.Xml.Scan

variable (s : Scan)

def openTag : Step :=
  let s := { s.flush with started := true, noDoctype := true, rootSeen := true }
  { s with tag := { scope := s.scope } }.into .tagName

/-- Reports the start of an element, and its end if it is `empty`. All prefixes have to be declared. -/
def startElement (empty : Bool) : Step :=
  let tag := s.tag
  if !inScope tag.scope tag.name || !tag.attributes.all (fun a => inScope tag.scope a.1) then none
  else
    let start := Event.start tag.name (tag.attributes.reverse.map fun a => (a.1, String.ofList a.2))
    if empty then { s with events := .stop tag.name :: start :: s.events }.into .content
    else { s with events := start :: s.events, stack := (tag.name, tag.scope) :: s.stack }.into .content

/-- Reports the end of the innermost element, which must have the name of the tag. -/
def stopElement : Step :=
  match s.stack with
  | [] => none
  | (opened, _) :: stack =>
    if opened = s.tag.name then
      { s with stack, events := .stop opened :: s.events }.into .content
    else none

def addAttribute (value : List Char) : Step :=
  let tag := s.tag
  match declares tag.attr value with
  | .invalid => none
  | .declares space => { s with tag := { tag with scope := space :: tag.scope } }.into .attributeEnd
  | .noSpace => s.into .attributeEnd
  | .ordinary =>
    { s with tag := { tag with attributes := (tag.attr, value) :: tag.attributes } }.into .attributeEnd

def tagName (t : Token) : Step := do
  match ← s.nameStep [.tagClose, .emptyClose] t with
  | .more s => s.proceed
  | .complete name s =>
    if isReserved name then none
    else
      let s := { s with tag := { s.tag with name } }
      match t with
      | .tagClose => s.startElement false
      | .emptyClose => s.startElement true
      | _ => s.into .tag

def inTag (t : Token) : Step :=
  match t with
  | .tagClose => s.startElement false
  | .emptyClose => s.startElement true
  | .char c =>
    if isSpace c then s.proceed
    else if isNameStart c then { s with word := [c] }.into .attributeName
    else none
  | _ => none

/-- Reads a token of the name of an attribute, which the tag does not have yet. -/
def attributeName (t : Token) : Step := do
  match ← s.nameStep [.equals] t with
  | .more s => s.proceed
  | .complete name s =>
    if s.tag.attributes.any fun a => a.1 == name then none
    else
      let s := { s with tag := { s.tag with attr := name } }
      s.into (if t = .equals then .attributeValue else .attributeEquals)

/-- Reads a token between the name of an attribute and its value. -/
def attributeEquals (t : Token) : Step :=
  match t with
  | .equals => s.into .attributeValue
  | .char c => if isSpace c then s.proceed else none
  | _ => none

def attributeValue (t : Token) : Step := do
  match ← s.valueStep t with
  | .more s => s.proceed
  | .complete value s => s.addAttribute value

def attributeEnd (t : Token) : Step :=
  match t with
  | .tagClose => s.startElement false
  | .emptyClose => s.startElement true
  | .char c => if isSpace c then s.into .tag else none
  | _ => none

def closingName (t : Token) : Step := do
  match ← s.nameStep [.tagClose] t with
  | .more s => s.proceed
  | .complete name s =>
    let s := { s with tag := { s.tag with name } }
    if t = .tagClose then s.stopElement else s.into .closingEnd

def closingEnd (t : Token) : Step :=
  match t with
  | .tagClose => s.stopElement
  | .char c => if isSpace c then s.proceed else none
  | _ => none

end ClassDoc.Xml.Scan
