/-
  Annotations of models and annotations of class files.

  An annotation of a model has one value for each property. One of a class file can repeat an element; then the last
  value counts, at the place of the first one.
-/
import ClassDoc.Model.TypePath
namespace ClassDoc

/-- Sets the property with a name: its value at its place if it is there, else at the end. -/
def setProperty {α : Type} (properties : List (String × α)) (name : String) (value : α) : List (String × α) :=
  if properties.any fun p => p.1 == name then properties.map fun p => if p.1 == name then (name, value) else p
  else properties ++ [(name, value)]

/-- The properties that named values set one after the other. -/
def propertiesOf {α : Type} (elements : List (String × α)) : List (String × α) :=
  elements.foldl (fun properties e => setProperty properties e.1 e.2) []

namespace AnnotationValue

mutual

def ofElement : ElementValue → AnnotationValue
  | .byte v => value (.byte v)
  | .char v => value (.char v)
  | .double v => value (.double v)
  | .float v => value (.float v)
  | .int v => value (.int v)
  | .long v => value (.long v)
  | .short v => value (.short v)
  | .boolean v => value (.bool v)
  | .string v => value (.string v)
  | .enum descriptor name => enum descriptor name
  | .classRef descriptor => classRef descriptor
  | .nested descriptor elements => nested descriptor (propertiesOf (ofNamed elements))
  | .array values => array (ofElements values)

def ofNamed : List (String × ElementValue) → List (String × AnnotationValue)
  | [] => []
  | (name, v) :: rest => (name, ofElement v) :: ofNamed rest

def ofElements : List ElementValue → List AnnotationValue
  | [] => []
  | v :: rest => ofElement v :: ofElements rest

end

def elementOf : Operand → Except Fault ElementValue
  | .byte v => .ok (.byte v)
  | .char v => .ok (.char v)
  | .double v => .ok (.double v)
  | .float v => .ok (.float v)
  | .int v => .ok (.int v)
  | .long v => .ok (.long v)
  | .short v => .ok (.short v)
  | .bool v => .ok (.boolean v)
  | .string v => .ok (.string v)
  | other => fail (.unsupportedOperandType other.tag)

mutual

def toElement : AnnotationValue → Except Fault ElementValue
  | value operand => elementOf operand
  | enum descriptor name => .ok (.enum descriptor name)
  | classRef descriptor => .ok (.classRef descriptor)
  | nested descriptor properties => do return .nested descriptor (← toNamed properties)
  | array values => do return .array (← toElements values)

def toNamed : List (String × AnnotationValue) → Except Fault (List (String × ElementValue))
  | [] => .ok []
  | (name, v) :: rest => do
    let element ← toElement v
    let elements ← toNamed rest
    return (name, element) :: elements

def toElements : List AnnotationValue → Except Fault (List ElementValue)
  | [] => .ok []
  | v :: rest => do
    let element ← toElement v
    let elements ← toElements rest
    return element :: elements

end

end AnnotationValue

def Visibility.isRuntime : Visibility → Bool
  | runtime => true
  | classFile => false

def Visibility.ofRuntime (visible : Bool) : Visibility := if visible then runtime else classFile

def Model.Annotation.ofClassFile (visible : Bool) (a : ClassDoc.Annotation) : Model.Annotation where
  descriptor := a.descriptor
  visibility := .ofRuntime visible
  properties := propertiesOf (AnnotationValue.ofNamed a.elements)

def Model.Annotation.toClassFile (a : Model.Annotation) : Except Fault (Bool × ClassDoc.Annotation) := do
  return (a.visibility.isRuntime, ⟨a.descriptor, ← AnnotationValue.toNamed a.properties⟩)

def Model.TypeAnnotation.ofClassFile (visible : Bool) (a : ClassDoc.TypeAnnotation Label) :
    Except Fault Model.TypeAnnotation := do
  return ⟨a.targetType, a.target, ← a.path.mapM TypePath.ofStep, .ofClassFile visible a.base⟩

def Model.TypeAnnotation.toClassFile (a : Model.TypeAnnotation) :
    Except Fault (Bool × ClassDoc.TypeAnnotation Label) := do
  let (visible, base) ← a.base.toClassFile
  return (visible, ⟨a.targetType, a.target, a.path.map TypePath.toStep, base⟩)

end ClassDoc
