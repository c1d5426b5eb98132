/-
  Members of classes in documents.

  The document names of fields and methods depend on the other members of the class, so they are given from outside.
-/
import ClassDoc.Document.Annotated
import ClassDoc.Document.Body
namespace ClassDoc

/-- What is added to documents for people to read. -/
structure DocumentOptions where
  comments : Bool := false
  listing : Bool := false
  deriving DecidableEq, Inhabited

namespace Model

/-- An annotation of either kind. -/
inductive Annotated where
  | annotate (a : Annotation)
  | annotateType (a : TypeAnnotation)

def Annotated.base? : Annotated → Option Annotation
  | annotate a => some a
  | annotateType _ => none

def Annotated.type? : Annotated → Option TypeAnnotation
  | annotateType a => some a
  | annotate _ => none

def Annotated.ofNode (node child : Node) : Except Fault Annotated :=
  match child.kind with
  | "annotation" => do return .annotate (← Annotation.ofNode child)
  | "type-annotation" => do return .annotateType (← TypeAnnotation.ofNode child)
  | _ => .error (child.unrecognized node)

/-! ## Record components -/

namespace RecordComponent

def toNode (c : RecordComponent) : Node where
  kind := "component"
  attributes := [Attr.ofName "name" c.name, ("descriptor", c.descriptor)] ++ Attr.optional "signature" c.signature
  children := c.annotations.map Annotation.toNode ++ c.typeAnnotations.map TypeAnnotation.toNode

def ofNode (node : Node) : Except Fault RecordComponent := do
  let name ← Attr.escaped node "name"
  let descriptor ← node.required "descriptor"
  let parts ← node.elements.mapM (Annotated.ofNode node)
  return ⟨name, descriptor, node.attr? "signature", parts.filterMap Annotated.base?, parts.filterMap Annotated.type?⟩

end RecordComponent

/-! ## Names of members -/

/-- The name of a member. If the document name has a descriptor, it is the one of the member. -/
def memberName (node : Node) : Except Fault (String × String) := do
  let text ← node.required "name"
  let (name, suffix) ← Name.memberFromDocument text
  let descriptor ← node.required "descriptor"
  match suffix with
  | some suffix =>
    if suffix = descriptor then return (name, descriptor)
    else fail (.nameEscapingFailure text (.otherSuffix suffix descriptor))
  | none => return (name, descriptor)

/-! ## Fields -/

namespace Field

def toNode (f : Field) (name : String) : Node where
  kind := "field"
  attributes := [("name", name), ("descriptor", f.descriptor), Attr.ofNumber "access" f.access.toNat]
    ++ Attr.optional "signature" f.signature ++ Attr.mark "deprecated" f.deprecated ++ Attr.mark "synthetic" f.synthetic
  children := f.value.toList.map Value.toNode ++ f.annotations.map Annotation.toNode
    ++ f.typeAnnotations.map TypeAnnotation.toNode

/-- A child of a field. -/
inductive Part where
  | value (v : Operand)
  | annotated (a : Annotated)

def Part.value? : Part → Option Operand
  | value v => some v
  | annotated _ => none

def Part.annotated? : Part → Option Annotated
  | annotated a => some a
  | value _ => none

/-- Reads a child of the node of a field, which has at most one value. -/
def readPart (node : Node) (found : List Part) (child : Node) : Except Fault Part :=
  if child.kind = Value.nodeKind && !found.any fun p => p.value?.isSome then do return .value (← Value.fromNode child)
  else do return .annotated (← Annotated.ofNode node child)

def ofNode (node : Node) : Except Fault Field := do
  let (name, descriptor) ← memberName node
  let access ← Attr.number16 node "access"
  let deprecated ← Attr.flag node "deprecated"
  let synthetic ← Attr.flag node "synthetic"
  let parts ← node.parts (readPart node)
  let annotated := parts.filterMap Part.annotated?
  return {
    name, descriptor, access, deprecated, synthetic
    signature := node.attr? "signature"
    value := (parts.filterMap Part.value?).head?
    annotations := annotated.filterMap Annotated.base?
    typeAnnotations := annotated.filterMap Annotated.type? }

end Field

/-! ## Methods -/

namespace Parameter

def toNode (p : Parameter) (index : Nat) : Node where
  kind := "parameter"
  attributes := [Attr.ofNumber "index" index] ++ Attr.optional "name" (p.name.map Name.escape)
    ++ (if p.access = 0 then [] else [Attr.ofNumber "access" p.access.toNat])
  children := p.annotations.map Annotation.toNode

/-- The parameter of a node, after `count` others. -/
def ofNode (count : Nat) (node : Node) : Except Fault Parameter := do
  let index ← Attr.numberBelow 0x10000000000000000 node "index"
  ensure (index = count) (.parameterOrder count index)
  let name ← Attr.escaped? node "name"
  let access ← if (node.attr? "access").isSome then Attr.number16 node "access" else pure 0
  let annotations ← node.elements.mapM fun child =>
    if child.kind = "annotation" then Annotation.ofNode child else .error (child.unrecognized node)
  return { name, access, annotations }

end Parameter

def variableNode (v : LocalVariable) : Node :=
  .leaf "local-variable" ([Attr.ofName "name" v.name, ("descriptor", v.descriptor)] ++ Attr.optional "signature" v.signature
    ++ [Attr.ofLabel "start" v.start, Attr.ofLabel "end" v.stop, Attr.ofNumber "index" v.index.toNat])

def variableOfNode (node : Node) : Except Fault LocalVariable := do
  let name ← Attr.escaped node "name"
  let descriptor ← node.required "descriptor"
  let start ← Attr.label node "start"
  let stop ← Attr.label node "end"
  let index ← Attr.number16 node "index"
  return { name, descriptor, signature := node.attr? "signature", start, stop, index }

namespace Method

/-- The attributes of the limits of the code, if both are given. -/
def maxAttributes (m : Method) : List (String × String) :=
  match m.maxStack, m.maxLocals with
  | some maxStack, some maxLocals =>
    [Attr.ofNumber "max-stack" maxStack.toNat, Attr.ofNumber "max-locals" maxLocals.toNat]
  | _, _ => []

def annotableAttr (name : String) (count : Option UInt8) : List (String × String) :=
  Attr.optional name (count.map fun n => toString n.toNat)

def toNode (options : DocumentOptions) (m : Method) (name : String) : Node where
  kind := "method"
  attributes := [("name", name), ("descriptor", m.descriptor), Attr.ofNumber "access" m.access.toNat]
    ++ Attr.optional "signature" m.signature ++ Attr.mark "deprecated" m.deprecated ++ Attr.mark "synthetic" m.synthetic
    ++ annotableAttr "visible-annotable-parameters" m.visibleAnnotable
    ++ annotableAttr "invisible-annotable-parameters" m.invisibleAnnotable ++ m.maxAttributes
  children := m.exceptions.map (fun name => .leaf "throws" [Attr.ofClass "name" name])
    ++ m.parameters.zipIdx.map (fun (p, index) => p.toNode index) ++ m.annotations.map Annotation.toNode
    ++ m.typeAnnotations.map TypeAnnotation.toNode
    ++ m.annotationDefault.toList.map (fun v => { kind := "default", children := [v.toNode] })
    ++ (if m.hasBody then [{ kind := "body", children := m.entries.map (MethodEntry.toNode options.comments) }] else [])
    ++ m.localVariables.map variableNode

/-- A child of a method. -/
inductive Part where
  | throws (name : String)
  | parameter (p : Parameter)
  | annotated (a : Annotated)
  | default (v : AnnotationValue)
  | body (entries : List MethodEntry)
  | localVariable (v : LocalVariable)

namespace Part

def throws? : Part → Option String
  | throws name => some name
  | _ => none

def parameter? : Part → Option Parameter
  | parameter p => some p
  | _ => none

def annotated? : Part → Option Annotated
  | annotated a => some a
  | _ => none

def default? : Part → Option AnnotationValue
  | default v => some v
  | _ => none

def body? : Part → Option (List MethodEntry)
  | body entries => some entries
  | _ => none

def localVariable? : Part → Option LocalVariable
  | localVariable v => some v
  | _ => none

end Part

def readPart (node : Node) (found : List Part) (child : Node) : Except Fault Part :=
  match child.kind with
  | "throws" => do return .throws (← Attr.className child "name")
  | "parameter" => do return .parameter (← Parameter.ofNode (found.countP fun p => p.parameter?.isSome) child)
  | "default" => do
    ensure (!found.any fun p => p.default?.isSome) (.repeated "annotation default")
    return .default (← AnnotationValue.ofParent child)
  | "body" => do
    ensure (!found.any fun p => p.body?.isSome) (.repeated "body")
    return .body (← MethodEntry.ofBody child)
  | "local-variable" => do return .localVariable (← variableOfNode child)
  | _ => do return .annotated (← Annotated.ofNode node child)

def maxsOf (node : Node) : Except Fault (Option UInt16 × Option UInt16) := do
  if (node.attr? "max-stack").isSome || (node.attr? "max-locals").isSome then
    let maxStack ← Attr.number16 node "max-stack"
    let maxLocals ← Attr.number16 node "max-locals"
    return (some maxStack, some maxLocals)
  else return (none, none)

def ofNode (node : Node) : Except Fault Method := do
  let (name, descriptor) ← memberName node
  let (maxStack, maxLocals) ← maxsOf node
  let access ← Attr.number16 node "access"
  let visibleAnnotable ← Attr.number8? node "visible-annotable-parameters"
  let invisibleAnnotable ← Attr.number8? node "invisible-annotable-parameters"
  let deprecated ← Attr.flag node "deprecated"
  let synthetic ← Attr.flag node "synthetic"
  let parts ← node.parts (readPart node)
  let annotated := parts.filterMap Part.annotated?
  let body := (parts.filterMap Part.body?).head?
  if body.any List.isEmpty then fail (.missingRequiredChild "body" .methodEntries)
  else return {
    name, descriptor, access, visibleAnnotable, invisibleAnnotable, deprecated, synthetic, maxStack, maxLocals
    signature := node.attr? "signature"
    exceptions := parts.filterMap Part.throws?
    parameters := parts.filterMap Part.parameter?
    annotations := annotated.filterMap Annotated.base?
    typeAnnotations := annotated.filterMap Annotated.type?
    annotationDefault := (parts.filterMap Part.default?).head?
    entries := body.getD []
    localVariables := parts.filterMap Part.localVariable? }

end Method

end Model

end ClassDoc
