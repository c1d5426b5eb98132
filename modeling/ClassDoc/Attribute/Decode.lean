/-
  Reading annotations.
-/
import ClassDoc.Attribute.Annotation
import ClassDoc.Pool.View
namespace ClassDoc

variable (pool : PoolView)

def decodeIndex {α : Type} (get : UInt16 → Except Fault α) : Decode α := do get (← Decode.u2)

/-! ## Annotations -/

/-- Reads an annotation, given how the values of its elements are read. -/
def decodeNested (value : Decode ElementValue) : Decode Annotation := do
  let descriptor ← decodeIndex pool.utf8
  let elements ← Decode.inside (.inAnnotated descriptor) (Decode.list do
    let name ← decodeIndex pool.utf8
    return (name, ← value))
  return ⟨descriptor, elements⟩

/-- Reads a value. A value is at least one byte longer than the values in it, so the length of the input is enough
`fuel`. -/
def ElementValue.decode : (fuel : Nat) → Decode ElementValue
  | 0 => Decode.problem (.endOfInput "u8")
  | fuel + 1 => do
    let tag ← Decode.u1
    match Char.ofNat tag.toNat with
    | 'B' => do return .byte (← decodeIndex pool.integer).toInt8
    | 'C' => do return .char (← decodeIndex pool.integer).toUInt32.toUInt16
    | 'D' => do return .double (← decodeIndex pool.double)
    | 'F' => do return .float (← decodeIndex pool.float)
    | 'I' => do return .int (← decodeIndex pool.integer)
    | 'J' => do return .long (← decodeIndex pool.long)
    | 'S' => do return .short (← decodeIndex pool.integer).toInt16
    | 'Z' => do return .boolean ((← decodeIndex pool.integer) != 0)
    | 's' => do return .string (← decodeIndex pool.text)
    | 'e' => do
      let descriptor ← decodeIndex pool.utf8
      let name ← decodeIndex pool.utf8
      return .enum descriptor name
    | 'c' => do return .classRef (← decodeIndex pool.utf8)
    | '@' => do
      let a ← decodeNested pool (ElementValue.decode fuel)
      return .nested a.descriptor a.elements
    | '[' => do return .array (← Decode.list (ElementValue.decode fuel))
    | _ => Decode.problem (.elementTag tag)

def bytesLeft : Decode Nat := do return (← get).rest.length

def decodeValue : Decode ElementValue := do ElementValue.decode pool (← bytesLeft)

def decodeAnnotations : Decode (List Annotation) := do
  let fuel ← bytesLeft
  Decode.list (decodeNested pool (ElementValue.decode pool fuel))

/-! ## On types -/

/-- Checks that an offset lies in code of a length, or at its end. -/
def checkOffset (length offset : UInt16) : Except Fault Unit :=
  if length < offset then .error (.read (.labelBound offset length)) else .ok ()

/-- Reads an offset into the code, which has the given length. -/
def checkedOffset (length : Option UInt16) (offset : UInt16) : Except Fault UInt16 :=
  match length with
  | some length => do
    checkOffset length offset
    return offset
  | none => .ok offset

/-- The end of a range, which is given by its start and length. -/
def rangeEnd (start length : UInt16) : Except Fault UInt16 :=
  if start.toNat + length.toNat < 0x10000 then .ok (start + length) else .error (.read .variableRange)

def decodeRange (length : Option UInt16) : Decode (LocalRange UInt16) := do
  let start ← Decode.u2
  let size ← Decode.u2
  let index ← Decode.u2
  let stop ← rangeEnd start size
  let start ← checkedOffset length start
  let stop ← checkedOffset length stop
  return ⟨start, stop, index⟩

def TypeTarget.decode (length : Option UInt16) : TargetType.Form → Decode (TypeTarget UInt16)
  | .typeParameter => do return .typeParameter (← Decode.u1)
  | .supertype => do return .supertype (← Decode.u2)
  | .typeParameterBound => do
    let parameter ← Decode.u1
    let bound ← Decode.u1
    return .typeParameterBound parameter bound
  | .empty => return .empty
  | .formalParameter => do return .formalParameter (← Decode.u1)
  | .throws => do return .throws (← Decode.u2)
  | .localVariable => do return .localVariable (← Decode.list (decodeRange length))
  | .catch => do return .catch (← Decode.u2)
  | .offset => do return .offset (← checkedOffset length (← Decode.u2))
  | .typeArgument => do
    let offset ← checkedOffset length (← Decode.u2)
    let argument ← Decode.u1
    return .typeArgument offset argument

def decodeStep : Decode PathStep := do
  let kind ← Decode.u1
  let argument ← Decode.u1
  return ⟨kind, argument⟩

/-- Reads an annotation on a type, in code of the given length or outside of code. -/
def TypeAnnotation.decode (length : Option UInt16) (fuel : Nat) : Decode <| TypeAnnotation UInt16 := do
  let targetType ← Decode.u1
  if TargetType.isCode targetType && length.isNone then Decode.problem (.targetOutsideCode targetType)
  else match TargetType.form? targetType with
    | none => Decode.problem (.unknownTarget targetType)
    | some form =>
      let target ← TypeTarget.decode length form
      let path ← Decode.shortList decodeStep
      let base ← decodeNested pool (ElementValue.decode pool fuel)
      return ⟨targetType, target, path, base⟩

def decodeTypes (length : Option UInt16) : Decode (List <| TypeAnnotation UInt16) := do
  let fuel ← bytesLeft
  Decode.list <| TypeAnnotation.decode pool length fuel

end ClassDoc
