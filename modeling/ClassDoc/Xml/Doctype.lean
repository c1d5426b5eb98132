/-
  Document types.

  Of a document type only the declarations of entities count. The text of an entity takes the place of the references
  to it; numbers of characters and parameter entities in it are replaced at once, other references stay. An entity that
  is stored somewhere else has no text. All other declarations are skipped.
-/
import ClassDoc.Xml.Scan
namespace ClassDoc.Xml.Scan

variable (s : Scan)

def inType (d : Doctype) : Step := s.into (.doctype d)

/-- Reads a token between declarations. -/
def typeOutside (t : Token) : Step :=
  match t with
  | .tagClose => s.into .content
  | .declarationOpen => s.inType (.keyword [])
  | .char '%' => s.inType (.expanded ['%'])
  | .commentOpen => s.inType .comment
  | .quote | .apostrophe => s.inType (.string t)
  | .cdataOpen | .cdataClose => none
  | _ => s.proceed

def declared (word : List Char) : Step :=
  if word = "ENTITY".toList then s.inType .beforeName
  else if ["NOTATION", "ELEMENT", "ATTLIST"].contains (String.ofList word) then s.inType .rest
  else none

/-- Reads a character where the name of an entity is to come. -/
def beforeEntity (parameter : Bool) (c : Char) : Step :=
  if isSpace c then s.proceed
  else if c = '%' && !parameter then s.inType .beforeParameter
  else if isNameStart c then s.inType (.name (if parameter then [c, '%'] else [c]))
  else none

/-- Reads a token where the text of an entity is to come. A word stands there if it is stored somewhere else. -/
def beforeText (name : List Char) (t : Token) : Step :=
  match t with
  | .quote | .apostrophe => s.inType (.value { name, mark := t })
  | .char c =>
    if isSpace c then s.proceed
    else if c = 'S' || c = 'P' then (s.addEntity name.reverse []).inType .rest
    else none
  | _ => none

def entityText (e : EntityText) (t : Token) : Step :=
  match t with
  | .char '&' => s.inType (.reference e)
  | .char '%' => s.inType (.inserted e ['%'])
  | .char c => if isChar s.version c then s.inType (.value { e with text := c :: e.text }) else none
  | t => if t = e.mark then (s.addEntity e.name.reverse e.text.reverse).inType .rest else none

/-- Reads a character behind `&` in the text of an entity. -/
def entityReference (e : EntityText) (c : Char) : Step :=
  if c = '#' then s.inType (.number e [])
  else if isChar s.version c then s.inType (.value { e with text := c :: '&' :: e.text })
  else none

/-- Reads a character of a number in the text of an entity. -/
def entityNumber (e : EntityText) (digits : List Char) (c : Char) : Step :=
  if c = ';' then do
    let c ← numbered? s.version digits.reverse
    s.inType (.value { e with text := c :: e.text })
  else if isChar s.version c then s.inType (.number e (c :: digits))
  else none

/-- Reads a character of the name of a parameter entity in the text of an entity. -/
def insertedName (e : EntityText) (name : List Char) (c : Char) : Step :=
  if c = ';' then do
    let text ← s.entity? name.reverse
    s.inType (.value { e with text := text.reverse ++ e.text })
  else if isNameChar c then s.inType (.inserted e (c :: name))
  else none

/-- Reads a token of the name of a parameter entity between declarations, whose text is read in its place. -/
def expandedName (name : List Char) (t : Token) : Step :=
  match t with
  | .referenceClose => do
    let text ← s.entity? name.reverse
    return ({ s with place := .doctype .outside }, text)
  | .char c => if isNameChar c then s.inType (.expanded (c :: name)) else none
  | _ => none

def doctype (d : Doctype) (t : Token) : Step :=
  match d, t with
  | .outside, t => s.typeOutside t
  | .string mark, t => if t = mark then s.inType .outside else s.proceed
  | .comment, t => if t = .commentClose then s.inType .outside else s.proceed
  | .keyword letters, .char c =>
    if c.isUpper then s.inType (.keyword (c :: letters))
    else if isSpace c then s.declared letters.reverse
    else none
  | .beforeName, .char c => s.beforeEntity false c
  | .beforeParameter, .char c => s.beforeEntity true c
  | .name letters, .char c =>
    if isSpace c then s.inType (.beforeValue letters)
    else if isNameChar c then s.inType (.name (c :: letters))
    else none
  | .beforeValue name, t => s.beforeText name t
  | .value e, t => s.entityText e t
  | .reference e, .char c => s.entityReference e c
  | .number e digits, .char c => s.entityNumber e digits c
  | .inserted e name, .char c => s.insertedName e name c
  | .expanded name, t => s.expandedName name t
  | .rest, t => if t = .tagClose then s.inType .outside else s.proceed
  | _, _ => none

end ClassDoc.Xml.Scan
