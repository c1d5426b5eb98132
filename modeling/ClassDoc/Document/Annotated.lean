/-
  Annotations in documents.

  An annotation is a node with a `property` child for each property, which has the value as its only child. A type
  annotation also has its target: the kind by its name, the rest in attributes, the ranges of a local variable as
  `range` children.
-/
import ClassDoc.Document.Attr
import ClassDoc.Model.TypePath
namespace ClassDoc

/-! ## Values -/

namespace AnnotationValue

mutual

def toNode : AnnotationValue → Node
  | value operand => Value.toNode operand
  | enum descriptor name => .leaf "enum" [("descriptor", descriptor), Attr.ofName "name" name]
  | classRef descriptor => .leaf "class-ref" [("descriptor", descriptor)]
  | nested descriptor properties =>
    { kind := "annotation", attributes := [("descriptor", descriptor)], children := propertyNodes properties }
  | array values => { kind := "array", children := toNodes values }

def propertyNodes : List (String × AnnotationValue) → List Node
  | [] => []
  | (name, v) :: rest =>
    { kind := "property", attributes := [Attr.ofName "name" name], children := [toNode v] } :: propertyNodes rest

def toNodes : List AnnotationValue → List Node
  | [] => []
  | v :: rest => toNode v :: toNodes rest

end

/-- Adds a property to those `found` so far, the last one first; none can come twice. -/
def addProperty (parent : Node) (found : List (String × AnnotationValue)) (name : String) (v : AnnotationValue) :
    Except Fault (List (String × AnnotationValue)) :=
  if found.any fun p => p.1 == name then
    .error (.violation (.repeatedProperty ((parent.attr? "descriptor").getD "") name))
  else .ok ((name, v) :: found)

mutual

def ofNode : Node → Except Fault AnnotationValue
  | ⟨kind, attributes, children, text⟩ => do
    let n : Node := ⟨kind, attributes, children, text⟩
    if kind = Value.nodeKind then return value (← Value.fromNode n)
    else if kind = "enum" then
      let descriptor ← n.required "descriptor"
      return enum descriptor (← Attr.escaped n "name")
    else if kind = "class-ref" then return classRef (← n.required "descriptor")
    else if kind = "annotation" then
      let descriptor ← n.required "descriptor"
      return nested descriptor (← properties n (fun _ => true) [] children)
    else if kind = "array" then return array (← values [] children)
    else fail (.unrecognizedNodeKind kind "annotation value")

/-- The values of nodes, after those `found` so far, the last one first. -/
def values : (found : List AnnotationValue) → List Node → Except Fault (List AnnotationValue)
  | found, [] => .ok found.reverse
  | found, n :: rest =>
    if n.isMetadata then values found rest
    else match ofNode n with
      | .error f => .error f
      | .ok v => values (v :: found) rest

/-- The properties among the children of an annotation, after those `found` so far, the last one first. Only the
children with a kind that counts are looked at. -/
def properties (parent : Node) (counts : String → Bool) :
    (found : List (String × AnnotationValue)) → List Node → Except Fault (List (String × AnnotationValue))
  | found, [] => .ok found.reverse
  | found, ⟨kind, attributes, children, text⟩ :: rest =>
    let n : Node := ⟨kind, attributes, children, text⟩
    if n.isMetadata || !counts kind then properties parent counts found rest
    else if kind ≠ "property" then .error (n.unrecognized parent)
    else match Attr.escaped n "name" with
      | .error f => .error f
      | .ok name => match within (.inProperty name) (single n children) with
        | .error f => .error f
        | .ok v => match addProperty parent found name v with
          | .error f => .error f
          | .ok found => properties parent counts found rest

/-- The value of the only child of a node that is not only there for people to read. -/
def single (parent : Node) : List Node → Except Fault AnnotationValue
  | [] => fail (.missingRequiredChild parent.kind .annotationValue)
  | n :: rest =>
    if n.isMetadata then single parent rest
    else match rest.find? fun other => !other.isMetadata with
      | some extra => .error (extra.unrecognized parent)
      | none => ofNode n

end

def ofParent (node : Node) : Except Fault AnnotationValue := single node node.children

end AnnotationValue

/-! ## Annotations -/

def Visibility.text : Visibility → String
  | runtime => "runtime"
  | classFile => "class"

def Visibility.ofNode (node : Node) : Except Fault Visibility := do
  let text ← node.required "visibility"
  if text = "runtime" then return runtime
  else if text = "class" then return classFile
  else Value.malformed "visibility" text .notVisibility

namespace Model

def Annotation.toNode (a : Annotation) : Node where
  kind := "annotation"
  attributes := [("descriptor", a.descriptor), ("visibility", a.visibility.text)]
  children := AnnotationValue.propertyNodes a.properties

def Annotation.ofNode (node : Node) : Except Fault Annotation := do
  let descriptor ← node.required "descriptor"
  let visibility ← Visibility.ofNode node
  let properties ← AnnotationValue.properties node (fun _ => true) [] node.children
  return ⟨descriptor, visibility, properties⟩

end Model

/-! ## Type annotations -/

def TargetType.text (t : UInt8) : String := (TargetType.name? t).getD (toString t.toNat)

namespace TypeTarget

def attributes : TypeTarget Label → List (String × String)
  | typeParameter index | formalParameter index => [Attr.ofNumber "index" index.toNat]
  | supertype index | throws index | .catch index => [Attr.ofNumber "index" index.toNat]
  | typeParameterBound parameter bound => [Attr.ofNumber "index" parameter.toNat, Attr.ofNumber "bound" bound.toNat]
  | empty | localVariable _ => []
  | offset label => [Attr.ofLabel "label" label]
  | typeArgument label argument => [Attr.ofLabel "label" label, Attr.ofNumber "index" argument.toNat]

def rangeNode (r : LocalRange Label) : Node :=
  .leaf "range" [Attr.ofLabel "start" r.start, Attr.ofLabel "end" r.stop, Attr.ofNumber "index" r.index.toNat]

def rangeNodes : TypeTarget Label → List Node
  | localVariable ranges => ranges.map rangeNode
  | _ => []

def rangeOfNode (node : Node) : Except Fault (LocalRange Label) := do
  let start ← Attr.label node "start"
  let stop ← Attr.label node "end"
  let index ← Attr.number16 node "index"
  return ⟨start, stop, index⟩

/-- The target of a type annotation of some form, with the nodes of its ranges. -/
def ofNode (node : Node) (ranges : List Node) : TargetType.Form → Except Fault (TypeTarget Label)
  | .typeParameter => do return typeParameter (← Attr.number8 node "index")
  | .supertype => do return supertype (← Attr.number16 node "index")
  | .typeParameterBound => do
    let parameter ← Attr.number8 node "index"
    let bound ← Attr.number8 node "bound"
    return typeParameterBound parameter bound
  | .empty => .ok empty
  | .formalParameter => do return formalParameter (← Attr.number8 node "index")
  | .throws => do return throws (← Attr.number16 node "index")
  | .localVariable => do return localVariable (← ranges.mapM rangeOfNode)
  | .catch => do return .catch (← Attr.number16 node "index")
  | .offset => do return offset (← Attr.label node "label")
  | .typeArgument => do
    let label ← Attr.label node "label"
    let argument ← Attr.number8 node "index"
    return typeArgument label argument

end TypeTarget

namespace Model

def TypeAnnotation.toNode (a : TypeAnnotation) : Node where
  kind := "type-annotation"
  attributes := [("descriptor", a.base.descriptor), ("visibility", a.base.visibility.text),
      ("target", TargetType.text a.targetType)]
    ++ (if a.path.isEmpty then [] else [("path", TypePath.format a.path)]) ++ a.target.attributes
  children := a.target.rangeNodes ++ AnnotationValue.propertyNodes a.base.properties

def isRange (kind : String) : Bool := kind == "range"

def targetTypeOf (node : Node) : Except Fault UInt8 := do
  let name ← node.required "target"
  match TargetType.ofName? name with
  | some t => .ok t
  | none => Value.malformed "target" name .unknownTarget

def targetOf (node : Node) (targetType : UInt8) : Except Fault (TypeTarget Label) := do
  let ranges := node.elements.filter fun child => isRange child.kind
  let target ← TypeTarget.ofNode node ranges ((TargetType.form? targetType).getD .empty)
  match target.form, ranges with
  | .localVariable, _ | _, [] => return target
  | _, range :: _ => .error (range.unrecognized node)

def pathOf (node : Node) : Except Fault (List TypePathStep) :=
  match node.attr? "path" with
  | some text => TypePath.parse text
  | none => .ok []

def TypeAnnotation.ofNode (node : Node) : Except Fault TypeAnnotation := do
  let descriptor ← node.required "descriptor"
  within (.inAnnotatedType descriptor) do
    let targetType ← targetTypeOf node
    let target ← targetOf node targetType
    let path ← pathOf node
    let visibility ← Visibility.ofNode node
    let properties ← AnnotationValue.properties node (fun kind => !isRange kind) [] node.children
    return ⟨targetType, target, path, ⟨descriptor, visibility, properties⟩⟩

end Model

end ClassDoc
