/-
  Values in documents.

  A value is a `value` node with the name of its type. A scalar is one text: numbers as hex digits of fixed width, the
  bits of floating point numbers likewise, texts as the hex digits of their modified UTF-8, labels by their name.
  Handles, dynamic constants and arrays have `value` nodes as children.
-/
import ClassDoc.Document.Node
namespace ClassDoc.Value

def nodeKind : String := "value"

/-! ## Scalars -/

def hex (width n : Nat) : String := String.ofList (Hex.fixed width n)

def hexText (t : JavaText) : String := Hex.ofBytes t.encode

def encode? : Operand → Option String
  | .none => none
  | .bool v => some (hex 2 v.toNat)
  | .byte v => some (hex 2 v.toUInt8.toNat)
  | .short v => some (hex 4 v.toUInt16.toNat)
  | .char v => some (hex 4 v.toNat)
  | .int v => some (hex 8 v.toUInt32.toNat)
  | .long v => some (hex 16 v.toUInt64.toNat)
  | .float v => some (hex 8 v.bits.toNat)
  | .double v => some (hex 16 v.bits.toNat)
  | .string v => some (hexText v)
  | .classRef name => some (hexText (.ofString name))
  | .methodType descriptor => some (hexText (.ofString descriptor))
  | .label l => some l.text
  | .handle _ | .dynamic _ _ _ _ | .array _ => none

def malformed {α : Type} (tag data : String) (problem : ValueProblem) : Except Fault α :=
  fail (.malformedValue tag data problem)

def unhex (tag : String) (width : Nat) (data : String) : Except Fault Nat :=
  if data.utf8ByteSize ≠ width then malformed tag data (.digitCount width data.utf8ByteSize)
  else match Hex.toNat? data.toList with
    | some n => .ok n
    | none => malformed tag data .notHex

def unhexBytes (tag data : String) : Except Fault (List UInt8) :=
  if data.utf8ByteSize % 2 ≠ 0 then malformed tag data .oddDigits
  else match Hex.toBytes? data.toList with
    | some bytes => .ok bytes
    | none => malformed tag data .notHex

def unhexText (tag data : String) : Except Fault JavaText := do
  let bytes ← unhexBytes tag data
  match JavaText.decode? bytes with
  | some t => .ok t
  | none => malformed tag data .notText

def unhexString (tag data : String) : Except Fault String := do
  let t ← unhexText tag data
  match t.toString? with
  | some s => .ok s
  | none => malformed tag data .loneSurrogate

def labelOf (data : String) : Except Fault Label :=
  match Label.parse data with
  | .ok l => .ok l
  | .error problem => malformed "label" data (.label problem)

def unhexBool (tag data : String) : Except Fault Bool := do
  match ← unhex tag 2 data with
  | 0 => .ok false
  | 1 => .ok true
  | _ => malformed tag data .notBool

def decodeData (tag data : String) : Except Fault Operand :=
  match tag with
  | "none" => malformed tag data .dataOfNone
  | "bool" => do return .bool (← unhexBool tag data)
  | "byte" => do return .byte (UInt8.ofNat (← unhex tag 2 data)).toInt8
  | "short" => do return .short (UInt16.ofNat (← unhex tag 4 data)).toInt16
  | "char" => do return .char (UInt16.ofNat (← unhex tag 4 data))
  | "int" => do return .int (UInt32.ofNat (← unhex tag 8 data)).toInt32
  | "long" => do return .long (UInt64.ofNat (← unhex tag 16 data)).toInt64
  | "float" => do return .float ⟨UInt32.ofNat (← unhex tag 8 data)⟩
  | "double" => do return .double ⟨UInt64.ofNat (← unhex tag 16 data)⟩
  | "string" => do return .string (← unhexText tag data)
  | "class" => do return .classRef (← unhexString tag data)
  | "method-type" => do return .methodType (← unhexString tag data)
  | "label" => do return .label (← labelOf data)
  | _ => fail (.unsupportedOperandType tag)

def isScalarTag (tag : String) : Bool :=
  ["bool", "byte", "short", "char", "int", "long", "float", "double", "string", "class", "method-type",
    "label"].contains tag

/-- Reads a scalar. Types with children are no scalars. -/
def decode (tag : String) : (data : Option String) → Except Fault Operand
  | some data => decodeData tag data
  | none =>
    if tag == "none" then .ok .none
    else if isScalarTag tag then fail (.missingRequiredChild nodeKind (.data tag))
    else fail (.unsupportedOperandType tag)

/-! ## Nodes -/

def node (tag : String) (children : List Node) : Node := { kind := nodeKind, attributes := [("type", tag)], children }

def scalarNode (operand : Operand) : Node :=
  { kind := nodeKind
    attributes := ("type", operand.tag) :: (match encode? operand with
      | some data => [("data", data)]
      | none => []) }

def textNode (s : String) : Node := scalarNode (.string (.ofString s))

def handleNodes (h : Handle) : List Node :=
  [scalarNode (.int h.kind.toUInt32.toInt32), scalarNode (.classRef h.owner), textNode h.name, textNode h.descriptor,
    scalarNode (.bool h.interface)]

mutual

def toNode : Operand → Node
  | .handle h => node "handle" (handleNodes h)
  | .dynamic name descriptor bootstrap arguments =>
    node "dynamic" [textNode name, textNode descriptor, node "handle" (handleNodes bootstrap),
      node "array" (toNodes arguments)]
  | .array values => node "array" (toNodes values)
  | operand => scalarNode operand

def toNodes : List Operand → List Node
  | [] => []
  | value :: rest => toNode value :: toNodes rest

end

def notValue (parent child : Node) : Fault := { cause := .unrecognizedNodeKind child.kind parent.kind }

def typeOf (n : Node) : Except Fault String :=
  if n.kind ≠ nodeKind then fail (.unrecognizedNodeKind n.kind "operand") else n.required "type"

def checkValues (n : Node) : Except Fault (List Node) :=
  n.elements.mapM fun child => if child.kind = nodeKind then .ok child else .error (notValue n child)

/-- The part of a value with some index, by what it is. -/
def component (parts : List (Except Fault Operand)) (index : Nat) (tag what : String) : Except Fault Operand :=
  match parts[index]? with
  | some part => part
  | none => fail (.missingRequiredChild nodeKind (.component what tag))

def textPart (tag what : String) (part : Except Fault Operand) : Except Fault String := do
  match ← part with
  | .string t =>
    match t.toString? with
    | some s => .ok s
    | none => malformed tag what .loneSurrogate
  | other => malformed tag what (.expected "a string" other.tag)

/-- A handle from its parts, which stand in a value of the type `tag`. -/
def handleOf (tag : String) (parts : List (Except Fault Operand)) : Except Fault Handle := do
  if parts.length > 5 then malformed tag "" (.components 5 parts.length) else
  let kind ← match ← component parts 0 tag "kind" with
    | .int v => if 1 ≤ v && v ≤ 9 then pure v.toUInt32.toUInt8 else malformed tag "kind" (.handleKind (.int v))
    | other => malformed tag "kind" (.handleKind other)
  let owner ← match ← component parts 1 tag "owner" with
    | .classRef name => pure name
    | other => malformed tag "owner" (.expected "a class" other.tag)
  let name ← textPart tag "name" (component parts 2 tag "name")
  let descriptor ← textPart tag "descriptor" (component parts 3 tag "descriptor")
  let interface ← match ← component parts 4 tag "interface" with
    | .bool v => pure v
    | other => malformed tag "interface" (.expected "a bool" other.tag)
  return { kind, owner, name, descriptor, interface }

/-- The results in order, each with its number in the place of its fault. -/
def elementsOf (parts : List (Except Fault Operand)) : Except Fault (List Operand) :=
  parts.zipIdx.mapM fun (part, index) => within (.inElement index) part

/-- A dynamic constant from its parts, of which the third one is read as a handle. -/
def dynamicOf (tag : String) (parts : List (Except Fault Operand)) (handles : List (Except Fault Handle)) :
    Except Fault Operand := do
  if parts.length > 4 then malformed tag "" (.components 4 parts.length) else
  let name ← textPart tag "name" (component parts 0 tag "name")
  let descriptor ← textPart tag "descriptor" (component parts 1 tag "descriptor")
  let bootstrap ← match handles[2]? with
    | some handle => handle
    | none => fail (.missingRequiredChild nodeKind (.component "bootstrap method" tag))
  match ← component parts 3 tag "arguments" with
  | .array arguments => return .dynamic name descriptor bootstrap arguments
  | other => malformed tag "arguments" (.expected "an array" other.tag)

mutual

def fromNode : Node → Except Fault Operand
  | ⟨kind, attributes, children, text⟩ => do
    let n : Node := ⟨kind, attributes, children, text⟩
    let tag ← typeOf n
    match tag with
    | "handle" => do
      let _ ← checkValues n
      return .handle (← handleOf tag (valuesOf children))
    | "dynamic" => do
      let _ ← checkValues n
      dynamicOf tag (valuesOf children) (bootstrapsOf children)
    | "array" => do
      let _ ← checkValues n
      return .array (← elementsOf (valuesOf children))
    | _ => decode tag (n.attr? "data")

/-- The values of the nodes that are not only there for people to read. -/
def valuesOf : List Node → List (Except Fault Operand)
  | [] => []
  | n :: rest => if n.isMetadata then valuesOf rest else fromNode n :: valuesOf rest

def bootstrapsOf : List Node → List (Except Fault Handle)
  | [] => []
  | ⟨kind, attributes, children, text⟩ :: rest =>
    let n : Node := ⟨kind, attributes, children, text⟩
    if n.isMetadata then bootstrapsOf rest
    else
      (if n.attr? "type" ≠ some "handle" then malformed "dynamic" "bootstrap method" .notHandle
       else do
        let _ ← checkValues n
        handleOf "dynamic" (valuesOf children)) :: bootstrapsOf rest

end

/-- The values below a node, which has no other children. -/
def fromChildren (n : Node) : Except Fault (List Operand) := do
  let children ← checkValues n
  children.mapM fromNode

end ClassDoc.Value
