/-
  Attributes of nodes as values, and the children of nodes as parts.
-/
import ClassDoc.Model.Value
import ClassDoc.Name.Escape
namespace ClassDoc

namespace Attr

/-! ## Reading -/

def decimalBelow (limit : Nat) (name data : String) : Except Fault Nat :=
  if data.isEmpty || !data.toList.all Char.isDigit then Value.malformed name data .notDecimal
  else if Label.number data.toList < limit then .ok (Label.number data.toList)
  else Value.malformed name data .numberTooLarge

def numberBelow (limit : Nat) (node : Node) (name : String) : Except Fault Nat := do
  decimalBelow limit name (← node.required name)

def number8 (node : Node) (name : String) : Except Fault UInt8 := do
  return UInt8.ofNat (← numberBelow 0x100 node name)

def number16 (node : Node) (name : String) : Except Fault UInt16 := do
  return UInt16.ofNat (← numberBelow 0x10000 node name)

def number8? (node : Node) (name : String) : Except Fault (Option UInt8) := do
  if (node.attr? name).isSome then return some (← number8 node name) else return none

/-- A mark, not set if it is missing. -/
def flag (node : Node) (name : String) : Except Fault Bool :=
  match node.attr? name with
  | none | some "false" => .ok false
  | some "true" => .ok true
  | some other => Value.malformed name other .notFlag

def className (node : Node) (name : String) : Except Fault String := do
  Name.classFromDocument (← node.required name)

def className? (node : Node) (name : String) : Except Fault (Option String) :=
  match node.attr? name with
  | some text => do return some (← Name.classFromDocument text)
  | none => .ok none

def escaped (node : Node) (name : String) : Except Fault String := do
  Name.unescape (← node.required name)

def escaped? (node : Node) (name : String) : Except Fault (Option String) :=
  match node.attr? name with
  | some text => do return some (← Name.unescape text)
  | none => .ok none

def label (node : Node) (name : String) : Except Fault Label := do
  Value.labelOf (← node.required name)

def nameForFaults (node : Node) : String := (node.attr? "name").getD "<unnamed>"

/-! ## Writing -/

def optional (name : String) (value : Option String) : List (String × String) :=
  match value with
  | some value => [(name, value)]
  | none => []

def mark (name : String) (set : Bool) : List (String × String) := if set then [(name, "true")] else []

def ofNumber (name : String) (n : Nat) : String × String := (name, toString n)

def ofLabel (name : String) (l : Label) : String × String := (name, l.text)

def ofClass (name className : String) : String × String := (name, Name.classToDocument className)

def ofClass? (name : String) (className : Option String) : List (String × String) :=
  optional name (className.map Name.classToDocument)

def ofName (name text : String) : String × String := (name, Name.escape text)

end Attr

namespace Node

def unrecognized (child parent : Node) : Fault := { cause := .unrecognizedNodeKind child.kind parent.kind }

/-- Reads nodes in order, each one with the parts `found` before it, the last one first. -/
def readParts {α : Type} (read : (found : List α) → Node → Except Fault α) :
    (found : List α) → List Node → Except Fault (List α)
  | found, [] => .ok found.reverse
  | found, child :: rest =>
    match read found child with
    | .error f => .error f
    | .ok part => readParts read (part :: found) rest

/-- Reads the children of a node that are not only there for people to read. -/
def parts {α : Type} (node : Node) (read : (found : List α) → Node → Except Fault α) : Except Fault (List α) :=
  readParts read [] node.elements

end Node

end ClassDoc
