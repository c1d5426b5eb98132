/-
  Annotations as bytes.
-/
import ClassDoc.Attribute.Basic
namespace ClassDoc

def letterByte (c : Char) : UInt8 := UInt8.ofNat c.toNat

def putInteger (v : Int32) : PoolM Bytes := indexBytes (Pool.put (.integer v))

mutual

def ElementValue.encode : ElementValue → PoolM Bytes
  | byte v => do return letterByte 'B' :: (← putInteger v.toInt32)
  | char v => do return letterByte 'C' :: (← putInteger v.toUInt32.toInt32)
  | double v => do return letterByte 'D' :: (← indexBytes (Pool.put (.double v)))
  | float v => do return letterByte 'F' :: (← indexBytes (Pool.put (.float v)))
  | int v => do return letterByte 'I' :: (← putInteger v)
  | long v => do return letterByte 'J' :: (← indexBytes (Pool.put (.long v)))
  | short v => do return letterByte 'S' :: (← putInteger v.toInt32)
  | boolean v => do return letterByte 'Z' :: (← putInteger (if v then 1 else 0))
  | string v => do return letterByte 's' :: (← indexBytes (Pool.text v))
  | enum descriptor name => do
    let descriptor ← indexBytes (Pool.utf8 descriptor)
    let name ← indexBytes (Pool.utf8 name)
    return letterByte 'e' :: (descriptor ++ name)
  | classRef descriptor => do return letterByte 'c' :: (← indexBytes (Pool.utf8 descriptor))
  | nested descriptor elements => do
    let descriptor ← indexBytes (Pool.utf8 descriptor)
    let count ← Bytes.count2 elements.length
    let elements ← ElementValue.encodeElements elements
    return letterByte '@' :: (descriptor ++ count ++ elements)
  | array values => do
    let count ← Bytes.count2 values.length
    let values ← ElementValue.encodeAll values
    return letterByte '[' :: (count ++ values)

def ElementValue.encodeElements : List (String × ElementValue) → PoolM Bytes
  | [] => pure []
  | (name, value) :: rest => do
    let name ← indexBytes (Pool.utf8 name)
    let value ← value.encode
    let rest ← ElementValue.encodeElements rest
    return name ++ value ++ rest

def ElementValue.encodeAll : List ElementValue → PoolM Bytes
  | [] => pure []
  | value :: rest => do
    let value ← value.encode
    let rest ← ElementValue.encodeAll rest
    return value ++ rest

end

def Annotation.encode (a : Annotation) : PoolM Bytes := do
  let descriptor ← indexBytes (Pool.utf8 a.descriptor)
  let count ← Bytes.count2 a.elements.length
  let elements ← ElementValue.encodeElements a.elements
  return descriptor ++ count ++ elements

/-! ## On types -/

/-- The offsets of the labels of a method, or nothing outside of code. -/
abbrev Offsets := Option (Label → Except Fault UInt16)

def Offsets.of (offsets : Offsets) (l : Label) : Except Fault UInt16 :=
  match offsets with
  | some offset => offset l
  | none => .error (.write (.labelOutsideCode l))

def LocalRange.encode (offsets : Offsets) (r : LocalRange Label) : Except Fault Bytes := do
  let start ← offsets.of r.start
  let stop ← offsets.of r.stop
  if stop < start then .error (.write (.annotatedRange r.index))
  else return Bytes.u2 start ++ Bytes.u2 (stop - start) ++ Bytes.u2 r.index

def TypeTarget.encode (offsets : Offsets) : TypeTarget Label → Except Fault Bytes
  | typeParameter index | formalParameter index => .ok (Bytes.u1 index)
  | supertype index | throws index | .catch index => .ok (Bytes.u2 index)
  | typeParameterBound parameter bound => .ok (Bytes.u1 parameter ++ Bytes.u1 bound)
  | empty => .ok []
  | localVariable ranges => do
    let count ← Bytes.count2 ranges.length
    let ranges ← ranges.mapM (LocalRange.encode offsets)
    return count ++ ranges.flatten
  | offset label => do return Bytes.u2 (← offsets.of label)
  | typeArgument label argument => do
    let offset ← offsets.of label
    return Bytes.u2 offset ++ Bytes.u1 argument

def encodePath (path : List PathStep) : Except Fault Bytes := do
  let count ← Bytes.count1 path.length
  return count ++ path.flatMap fun step => Bytes.u1 step.kind ++ Bytes.u1 step.argument

/-- Checks that the target fits its kind, and the kind the place of the annotation. -/
def TypeAnnotation.check (inCode : Bool) (a : TypeAnnotation Label) : Except Fault Unit :=
  if !a.target.fits a.targetType then .error (.write (.targetForm a.target a.targetType))
  else if TargetType.isCode a.targetType != inCode then .error (.write (.targetPlace a.targetType inCode))
  else .ok ()

def TypeAnnotation.encode (offsets : Offsets) (a : TypeAnnotation Label) : PoolM Bytes := do
  a.check offsets.isSome
  let target ← a.target.encode offsets
  let path ← encodePath a.path
  let base ← a.base.encode
  return Bytes.u1 a.targetType ++ target ++ path ++ base

/-! ## Attributes -/

/-- Annotations as events have them: with whether they are visible. -/
def withVisibility {α : Type} (visible : Bool) (xs : List (Bool × α)) : List α :=
  xs.filterMap fun x => if x.1 == visible then some x.2 else none

def annotationsAttribute (visible : Bool) (annotations : List (Bool × Annotation)) : PoolM (List Attribute) :=
  let annotations := withVisibility visible annotations
  Attribute.makeIf (!annotations.isEmpty) (Attribute.annotationsName visible) (encodeList Annotation.encode annotations)

/-- The attribute of the annotations on types with a visibility, if there are any. -/
def typeAnnotationsAttribute (offsets : Offsets) (visible : Bool) (annotations : List (Bool × TypeAnnotation Label)) :
    PoolM (List Attribute) :=
  let annotations := withVisibility visible annotations
  Attribute.makeIf (!annotations.isEmpty) (Attribute.typeAnnotationsName visible)
    (encodeList (·.encode offsets) annotations)

def annotationAttributes (annotations : List (Bool × Annotation))
    (typeAnnotations : List (Bool × TypeAnnotation Label)) : PoolM (List Attribute) := do
  let visible ← annotationsAttribute true annotations
  let invisible ← annotationsAttribute false annotations
  let visibleTypes ← typeAnnotationsAttribute none true typeAnnotations
  let invisibleTypes ← typeAnnotationsAttribute none false typeAnnotations
  return visible ++ invisible ++ visibleTypes ++ invisibleTypes

end ClassDoc
