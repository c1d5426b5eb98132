/-
  Classes as documents.

  The order of the nodes only depends on the order of the lists of the model, so a model has one document for given
  options.
-/
import ClassDoc.Document.Member
import ClassDoc.Document.Module
import ClassDoc.Model.Listing
namespace ClassDoc

/-! ## Writing -/

namespace ClassModel

def schema : String := "1"

def nameNode (kind name : String) : Node := .leaf kind [Attr.ofClass "name" name]

def enclosingNode (e : EnclosingMethod) : Node :=
  .leaf "enclosing-method" (Attr.ofClass "class" e.owner :: (match e.method with
    | some (name, descriptor) => [Attr.ofName "name" name, ("descriptor", descriptor)]
    | none => []))

def innerNode (i : InnerClass) : Node :=
  .leaf "inner-class" ([Attr.ofClass "name" i.name] ++ Attr.ofClass? "outer" i.outer
    ++ Attr.optional "simple-name" (i.simpleName.map Name.escape) ++ [Attr.ofNumber "access" i.access.toNat])

def fieldNodes (fields : List Model.Field) : List Node :=
  List.zipWith Model.Field.toNode fields (Name.memberNames (fields.map fun f => (f.name, f.descriptor)))

def methodNodes (options : DocumentOptions) (methods : List Model.Method) : List Node :=
  List.zipWith (Model.Method.toNode options) methods (Name.memberNames (methods.map fun m => (m.name, m.descriptor)))

def toNode (options : DocumentOptions) (c : ClassModel) : Node where
  kind := "class"
  attributes := [("schema", schema), Attr.ofClass "name" c.name, Attr.ofNumber "access" c.access.toNat,
      Attr.ofNumber "major" c.version.major.toNat, Attr.ofNumber "minor" c.version.minor.toNat]
    ++ Attr.ofClass? "super" c.superClass ++ Attr.optional "signature" c.signature ++ Attr.optional "source" c.sourceFile
    ++ Attr.optional "source-debug" c.sourceDebug ++ Attr.mark "deprecated" c.deprecated
    ++ Attr.mark "synthetic" c.synthetic
  children := (if options.listing then [{ kind := "listing", text := some c.listing }] else [])
    ++ c.interfaces.map (nameNode "interface") ++ c.enclosingMethod.toList.map enclosingNode
    ++ c.nestHost.toList.map (nameNode "nest-host") ++ c.nestMembers.map (nameNode "nest-member")
    ++ c.permittedSubclasses.map (nameNode "permitted-subclass") ++ c.innerClasses.map innerNode
    ++ c.annotations.map Model.Annotation.toNode ++ c.typeAnnotations.map Model.TypeAnnotation.toNode
    ++ c.record.toList.map (fun components => { kind := "record", children := components.map Model.RecordComponent.toNode })
    ++ c.module.toList.map ModuleInfo.toNode ++ fieldNodes c.fields ++ methodNodes options c.methods

/-! ## Reading -/

/-- A child of a class. -/
inductive Part where
  | interface (name : String)
  | enclosing (e : EnclosingMethod)
  | nestHost (name : String)
  | nestMember (name : String)
  | permitted (name : String)
  | inner (i : InnerClass)
  | annotated (a : Model.Annotated)
  | record (components : List Model.RecordComponent)
  | module (m : ModuleInfo)
  | field (f : Model.Field)
  | method (m : Model.Method)

namespace Part

def interface? : Part → Option String
  | interface name => some name
  | _ => none

def enclosing? : Part → Option EnclosingMethod
  | enclosing e => some e
  | _ => none

def nestHost? : Part → Option String
  | nestHost name => some name
  | _ => none

def nestMember? : Part → Option String
  | nestMember name => some name
  | _ => none

def permitted? : Part → Option String
  | permitted name => some name
  | _ => none

def inner? : Part → Option InnerClass
  | inner i => some i
  | _ => none

def annotated? : Part → Option Model.Annotated
  | annotated a => some a
  | _ => none

def record? : Part → Option (List Model.RecordComponent)
  | record components => some components
  | _ => none

def module? : Part → Option ModuleInfo
  | module m => some m
  | _ => none

def field? : Part → Option Model.Field
  | field f => some f
  | _ => none

def method? : Part → Option Model.Method
  | method m => some m
  | _ => none

end Part

/-- The enclosing method of a node, with a name and a descriptor or neither. -/
def enclosingOf (node : Node) : Except Fault EnclosingMethod := do
  let method ← match node.attr? "name", node.attr? "descriptor" with
    | some name, some descriptor => do pure (some (← Name.unescape name, descriptor))
    | none, none => pure none
    | some _, none => fail (.missingRequiredChild node.kind (.attr "descriptor"))
    | none, some _ => fail (.missingRequiredChild node.kind (.attr "name"))
  return ⟨← Attr.className node "class", method⟩

def innerOf (node : Node) : Except Fault InnerClass := do
  let name ← Attr.className node "name"
  let outer ← Attr.className? node "outer"
  let simpleName ← Attr.escaped? node "simple-name"
  let access ← Attr.number16 node "access"
  return ⟨name, outer, simpleName, access⟩

def componentsOf (node : Node) : Except Fault (List Model.RecordComponent) :=
  node.elements.mapM fun child =>
    if child.kind = "component" then within (.inComponent (Attr.nameForFaults child)) (Model.RecordComponent.ofNode child)
    else .error (child.unrecognized node)

/-- Checks that no part before is of the kind that can come only once. -/
def once {α : Type} (found : List Part) (part? : Part → Option α) (what : String) : Except Fault Unit :=
  ensure (!found.any fun p => (part? p).isSome) (.repeated what)

def readPart (root : Node) (found : List Part) (child : Node) : Except Fault Part :=
  match child.kind with
  | "interface" => do return .interface (← Attr.className child "name")
  | "enclosing-method" => do
    once found Part.enclosing? "enclosing method"
    return .enclosing (← enclosingOf child)
  | "nest-host" => do
    once found Part.nestHost? "nest host"
    return .nestHost (← Attr.className child "name")
  | "nest-member" => do return .nestMember (← Attr.className child "name")
  | "permitted-subclass" => do return .permitted (← Attr.className child "name")
  | "inner-class" => do return .inner (← innerOf child)
  | "record" => do
    once found Part.record? "record"
    return .record (← componentsOf child)
  | "module" => do
    once found Part.module? "module"
    return .module (← within .inModule (ModuleInfo.ofNode child))
  | "field" => do return .field (← within (.inFieldNode (Attr.nameForFaults child)) (Model.Field.ofNode child))
  | "method" => do return .method (← within (.inMethodNode (Attr.nameForFaults child)) (Model.Method.ofNode child))
  | _ => do return .annotated (← Model.Annotated.ofNode root child)

def read (root : Node) : Except Fault ClassModel := do
  let name ← Attr.className root "name"
  let access ← Attr.number16 root "access"
  let major ← Attr.number16 root "major"
  let minor ← Attr.number16 root "minor"
  let superClass ← Attr.className? root "super"
  let deprecated ← Attr.flag root "deprecated"
  let synthetic ← Attr.flag root "synthetic"
  let parts ← root.parts (readPart root)
  let annotated := parts.filterMap Part.annotated?
  return {
    name, access, superClass, deprecated, synthetic
    version := ⟨major, minor⟩
    signature := root.attr? "signature"
    sourceFile := root.attr? "source"
    sourceDebug := root.attr? "source-debug"
    interfaces := parts.filterMap Part.interface?
    enclosingMethod := (parts.filterMap Part.enclosing?).head?
    nestHost := (parts.filterMap Part.nestHost?).head?
    nestMembers := parts.filterMap Part.nestMember?
    permittedSubclasses := parts.filterMap Part.permitted?
    innerClasses := parts.filterMap Part.inner?
    annotations := annotated.filterMap Model.Annotated.base?
    typeAnnotations := annotated.filterMap Model.Annotated.type?
    record := (parts.filterMap Part.record?).head?
    module := (parts.filterMap Part.module?).head?
    fields := parts.filterMap Part.field?
    methods := parts.filterMap Part.method? }

/-- Checks that each label that a method refers to has a node. -/
def checkLabelNodes (m : Model.Method) : Except Fault Unit := within (.inMethod m.name m.descriptor) do
  match ← m.undefined? with
  | some (l, usage) => fail (.missingRequiredChild "body" (.label l usage))
  | none => .ok ()

/-- The class of a document, which follows the rules on classes. -/
def ofNode (root : Node) : Except Fault ClassModel := do
  if root.kind ≠ "class" then fail (.unrecognizedNodeKind root.kind "document")
  let version ← root.required "schema"
  if version ≠ schema then fail (.unsupportedSchemaVersion version)
  let c ← within (.inClass (Attr.nameForFaults root)) (read root)
  within (.inClass c.name) (c.methods.forM checkLabelNodes)
  c.validate
  return c

end ClassModel

end ClassDoc
