/-
  Instructions, and the declaration of a document.

  The declaration is an instruction with the name `xml` at the very start. It says which version of XML the document
  has, and it can say how it is encoded and whether it stands alone.
-/
import ClassDoc.Xml.Scan
namespace ClassDoc.Xml

/-! ## Parts of the declaration -/

def Pseudo.word : Pseudo → List Char
  | version => "version".toList
  | encoding => "encoding".toList
  | standalone => "standalone".toList

/-- The parts that can follow a part, or stand at the start. -/
def Pseudo.following : Option Pseudo → List Pseudo
  | none => [version]
  | some version => [encoding, standalone]
  | some encoding => [standalone]
  | some standalone => []

def versionOf? (value : List Char) : Option Version :=
  if value = "1.0".toList then some .v10 else if value = "1.1".toList then some .v11 else none

/-- The name and the label agree as far as both go, in either case. -/
def agrees (name : List Char) (label : String) : Bool :=
  (label.toList.zip name).all fun p => p.1 == p.2.toLower

def encodingOf? (name : List Char) : Option Encoding :=
  if ["utf-8", "utf8"].any (agrees name) then some .utf8
  else if ["iso-8859-1", "latin1"].any (agrees name) then some .latin1
  else if ["utf-16", "utf16"].any (agrees name) then none
  else if ["ascii", "us-ascii"].any (agrees name) then some .ascii
  else none

namespace Scan

variable (s : Scan)

/-! ## Instructions -/

def isXml (name : List Char) : Bool := name.map Char.toLower == xmlPrefix

def leaveInstruction : Step := { s with started := true, word := [] }.into .content

/-- The name of an instruction is followed by a blank. -/
def instructionNamed : Step :=
  let name := s.word.reverse
  if name.isEmpty then none
  else if name = xmlPrefix && !s.started then { s with word := [] }.into (.declaration (.before none))
  else if isXml name then none
  else { s with word := [] }.into .instructionData

def instructionName (t : Token) : Step :=
  match t with
  | .char c =>
    if if s.word.isEmpty then isNameStart c else isNameChar c then (s.addWord [c]).proceed
    else if isSpace c then s.instructionNamed
    else none
  | .instructionClose => if s.word.isEmpty || isXml s.word.reverse then none else s.leaveInstruction
  | _ => none

def instructionData (t : Token) : Step :=
  match t with
  | .instructionClose => s.leaveInstruction
  | .char c => if isChar s.version c then s.proceed else none
  | _ => s.proceed

/-! ## The declaration -/

def declaring (d : Declaring) : Step := s.into (.declaration d)

/-- Takes the value of a part. An encoding may not contradict what is known. -/
def declare (p : Pseudo) (value : List Char) : Option Scan :=
  match p with
  | .version => (versionOf? value).map fun version => { s with version }
  | .encoding => do
    let encoding ← encodingOf? value
    if s.encoding = .unstated || s.encoding = encoding then return { s with encoding } else none
  | .standalone => if value = "yes".toList || value = "no".toList then some s else none

def beforePart (last : Option Pseudo) (t : Token) : Step :=
  match t with
  | .char c =>
    match (Pseudo.following last).find? fun p => p.word.head? == some c with
    | some p => s.declaring (.name p)
    | none => if isSpace c then s.proceed else none
  | .instructionClose => if last.isSome then s.leaveInstruction else none
  | _ => none

/-- Reads a token of the word of a part, of which the first letter was read before. -/
def partName (p : Pseudo) (t : Token) : Step := do
  match ← s.nameStep [.equals] t with
  | .more s => s.proceed
  | .complete name s =>
    if name.name = p.word.tail then s.declaring (if t = .equals then .value p else .equals p) else none

def partValue (p : Pseudo) (t : Token) : Step := do
  match ← s.valueStep t with
  | .more s => s.proceed
  | .complete value s => (← s.declare p value).declaring (.after p)

def declaration (d : Declaring) (t : Token) : Step :=
  match d with
  | .before last => s.beforePart last t
  | .name p => s.partName p t
  | .equals p =>
    match t with
    | .equals => s.declaring (.value p)
    | .char c => if isSpace c then s.proceed else none
    | _ => none
  | .value p => s.partValue p t
  | .after p =>
    match t with
    | .char c => if isSpace c then s.declaring (.before (some p)) else none
    | .instructionClose => s.leaveInstruction
    | _ => none

end Scan

end ClassDoc.Xml
