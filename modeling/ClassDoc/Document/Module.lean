/-
  Module descriptions in documents. Module names stay as they are, packages and classes are written like classes.
-/
import ClassDoc.Document.Attr
import ClassDoc.Model.Validate
namespace ClassDoc.ModuleInfo

/-! ## Writing -/

def requireNode (r : ModuleRequire) : Node :=
  .leaf "requires" ([("module", r.module), Attr.ofNumber "access" r.access.toNat] ++ Attr.optional "version" r.version)

def packageNode (kind : String) (p : ModulePackage) : Node where
  kind := kind
  attributes := [Attr.ofClass "package" p.package, Attr.ofNumber "access" p.access.toNat]
  children := p.targets.map fun module => .leaf "to" [("module", module)]

def provideNode (p : ModuleProvide) : Node where
  kind := "provides"
  attributes := [Attr.ofClass "service" p.service]
  children := p.implementations.map fun name => .leaf "with" [Attr.ofClass "class" name]

def toNode (m : ModuleInfo) : Node where
  kind := "module"
  attributes := [("name", m.name), Attr.ofNumber "access" m.access.toNat] ++ Attr.optional "version" m.version
  children := m.requires.map requireNode ++ m.exports.map (packageNode "exports") ++ m.opens.map (packageNode "opens")
    ++ m.uses.map (fun name => .leaf "uses" [Attr.ofClass "class" name]) ++ m.provides.map provideNode
    ++ m.packages.map (fun name => .leaf "package" [Attr.ofClass "name" name])
    ++ m.mainClass.toList.map (fun name => .leaf "main-class" [Attr.ofClass "name" name])

/-! ## Reading -/

/-- A child of a module. -/
inductive Part where
  | require (r : ModuleRequire)
  | exported (p : ModulePackage)
  | opened (p : ModulePackage)
  | use (name : String)
  | provide (p : ModuleProvide)
  | package (name : String)
  | mainClass (name : String)

def Part.mainClass? : Part → Option String
  | mainClass name => some name
  | _ => none

def packageOf (node : Node) : Except Fault ModulePackage := do
  let package ← Attr.className node "package"
  let access ← Attr.number16 node "access"
  let targets ← node.elements.mapM fun child =>
    if child.kind = "to" then child.required "module" else .error (child.unrecognized node)
  return ⟨package, access, targets⟩

def provideOf (node : Node) : Except Fault ModuleProvide := do
  let implementations ← node.elements.mapM fun child =>
    if child.kind = "with" then Attr.className child "class" else .error (child.unrecognized node)
  return ⟨← Attr.className node "service", implementations⟩

def readPart (node : Node) (found : List Part) (child : Node) : Except Fault Part :=
  match child.kind with
  | "requires" => do
    let module ← child.required "module"
    let access ← Attr.number16 child "access"
    return .require ⟨module, access, child.attr? "version"⟩
  | "exports" => do return .exported (← packageOf child)
  | "opens" => do return .opened (← packageOf child)
  | "uses" => do return .use (← Attr.className child "class")
  | "provides" => do return .provide (← provideOf child)
  | "package" => do return .package (← Attr.className child "name")
  | "main-class" => do
    ensure (!found.any fun p => p.mainClass?.isSome) (.repeated "main class")
    return .mainClass (← Attr.className child "name")
  | _ => .error (child.unrecognized node)

def ofParts (name : String) (access : UInt16) (version : Option String) (parts : List Part) : ModuleInfo where
  name := name
  access := access
  version := version
  requires := parts.filterMap fun p => match p with
    | .require r => some r
    | _ => none
  exports := parts.filterMap fun p => match p with
    | .exported p => some p
    | _ => none
  opens := parts.filterMap fun p => match p with
    | .opened p => some p
    | _ => none
  uses := parts.filterMap fun p => match p with
    | .use name => some name
    | _ => none
  provides := parts.filterMap fun p => match p with
    | .provide p => some p
    | _ => none
  packages := parts.filterMap fun p => match p with
    | .package name => some name
    | _ => none
  mainClass := (parts.filterMap Part.mainClass?).head?

def ofNode (node : Node) : Except Fault ModuleInfo := do
  let name ← node.required "name"
  let access ← Attr.number16 node "access"
  return ofParts name access (node.attr? "version") (← node.parts (readPart node))

end ClassDoc.ModuleInfo
