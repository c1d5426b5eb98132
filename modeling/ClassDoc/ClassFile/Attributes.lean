/-
  The attributes of classes, fields and methods.
-/
import ClassDoc.ClassFile.Element
import ClassDoc.Code.Attribute
import ClassDoc.Pool.Encode
namespace ClassDoc

/-! ## Any element -/

def signatureAttribute (signature : Option String) : PoolM (List Attribute) :=
  Attribute.makeFor signature Attribute.signatureName fun s => indexBytes (Pool.utf8 s)

def markerAttributes (events : List ClassEvent) : PoolM (List Attribute) := do
  let deprecated ← Attribute.makeIf (Element.deprecated events) Attribute.deprecatedName (pure [])
  let synthetic ← Attribute.makeIf (Element.synthetic events) Attribute.syntheticName (pure [])
  return deprecated ++ synthetic

def elementAnnotations (events : List ClassEvent) : PoolM (List Attribute) :=
  annotationAttributes (Element.annotations events) (Element.typeAnnotations events)

def encodeClasses (names : List String) : PoolM Bytes := encodeList (fun name => indexBytes (Pool.classRef name)) names

/-! ## Fields -/

def checkValue : Option Constant → Except Fault Unit
  | none | some (.integer _) | some (.float _) | some (.long _) | some (.double _) | some (.string _) => .ok ()
  | some value => .error (.write (.fieldValue value))

def fieldAttributes (header : FieldHeader) (events : List ClassEvent) : PoolM (List Attribute) := do
  checkValue header.value
  let value ← Attribute.makeFor header.value Attribute.constantValueName fun v => indexBytes (Pool.constant v)
  let signature ← signatureAttribute (Element.signature events)
  let markers ← markerAttributes events
  let annotations ← elementAnnotations events
  return value ++ signature ++ markers ++ annotations

/-! ## Methods -/

def encodeParameters (parameters : List (Option String × UInt16)) : PoolM Bytes := do
  let count ← Bytes.count1 parameters.length
  let parameters ← parameters.mapM fun p => do
    let name ← Pool.optionalUtf8 p.1
    return Bytes.u2 name ++ Bytes.u2 p.2
  return count ++ parameters.flatten

def byParameter (count : Nat) (annotations : List (UInt8 × Annotation)) : Except Fault (List (List Annotation)) :=
  match annotations.find? fun a => count ≤ a.1.toNat with
  | some a => .error (.write (.annotableParameter a.1 count))
  | none => .ok ((List.range count).map fun i =>
      annotations.filterMap fun a => if a.1.toNat = i then some a.2 else none)

def encodeByParameter (parameters : List (List Annotation)) : PoolM Bytes := do
  let count ← Bytes.count1 parameters.length
  let parameters ← parameters.mapM (encodeList Annotation.encode)
  return count ++ parameters.flatten

def parameterAnnotationsAttribute (visible : Bool) (arguments : Nat) (events : List ClassEvent) :
    PoolM (List Attribute) := do
  let given := Element.annotableParameters visible events
  let annotations := Element.parameterAnnotations visible events
  if given.isNone && annotations.isEmpty then return []
  else
    let count := match given with
      | some count => count.toNat
      | none => arguments
    let parameters ← byParameter count annotations
    return [← Attribute.make (Attribute.parameterAnnotationsName visible) (encodeByParameter parameters)]

def methodAttributes (header : MethodHeader) (arguments : Nat) (events : List ClassEvent) :
    PoolM (List Attribute) := do
  let codeEvents := Element.code events
  let code ← Attribute.makeIf (!codeEvents.isEmpty) Attribute.codeName
    ((Body.ofEvents codeEvents).encode header.access header.descriptor)
  let exceptions ← Attribute.makeIf (!header.exceptions.isEmpty) Attribute.exceptionsName
    (encodeClasses header.exceptions)
  let signature ← signatureAttribute (Element.signature events)
  let parameters ← Attribute.makeIf (!(Element.parameters events).isEmpty) Attribute.methodParametersName
    (encodeParameters (Element.parameters events))
  let markers ← markerAttributes events
  let annotations ← elementAnnotations events
  let visible ← parameterAnnotationsAttribute true arguments events
  let invisible ← parameterAnnotationsAttribute false arguments events
  let default ← Attribute.makeFor (Element.annotationDefault events) Attribute.annotationDefaultName ElementValue.encode
  return code ++ exceptions ++ signature ++ parameters ++ markers ++ annotations ++ visible ++ invisible ++ default

/-! ## Classes -/

def encodeEnclosing (enclosing : String × Option String × Option String) : PoolM Bytes := do
  let owner ← Pool.classRef enclosing.1
  match enclosing.2 with
  | (some name, some descriptor) => return Bytes.u2 owner ++ Bytes.u2 (← Pool.nameAndType name descriptor)
  | (none, none) => return Bytes.u2 owner ++ Bytes.u2 0
  | _ => throw (.write .enclosingMethod)

def encodeInner (inner : InnerClass) : PoolM Bytes := do
  let name ← Pool.classRef inner.name
  let outer ← Pool.optionalClass inner.outer
  let simpleName ← Pool.optionalUtf8 inner.simpleName
  return Bytes.u2 name ++ Bytes.u2 outer ++ Bytes.u2 simpleName ++ Bytes.u2 inner.access

def encodeComponent (c : RecordComponent) : PoolM Bytes := inPlace (.writingComponent c.name) do
  ofDescriptor (Descriptor.checkField c.descriptor)
  let name ← Pool.utf8 c.name
  let descriptor ← Pool.utf8 c.descriptor
  let signature ← signatureAttribute c.signature
  let annotations ← annotationAttributes c.annotations c.typeAnnotations
  let attributes ← Attribute.encodeAll (signature ++ annotations)
  return Bytes.u2 name ++ Bytes.u2 descriptor ++ attributes

def encodeRequire (r : ModuleRequire) : PoolM Bytes := do
  let module ← Pool.module r.module
  let version ← Pool.optionalUtf8 r.version
  return Bytes.u2 module ++ Bytes.u2 r.access ++ Bytes.u2 version

def encodePackage (p : ModulePackage) : PoolM Bytes := do
  let package ← Pool.package p.package
  let targets ← encodeList (fun name => indexBytes (Pool.module name)) p.targets
  return Bytes.u2 package ++ Bytes.u2 p.access ++ targets

def encodeProvide (p : ModuleProvide) : PoolM Bytes := do
  let service ← Pool.classRef p.service
  let implementations ← encodeClasses p.implementations
  return Bytes.u2 service ++ implementations

def encodeModule (m : ModuleInfo) : PoolM Bytes := do
  let name ← Pool.module m.name
  let version ← Pool.optionalUtf8 m.version
  let requires ← encodeList encodeRequire m.requires
  let exports ← encodeList encodePackage m.exports
  let opens ← encodeList encodePackage m.opens
  let uses ← encodeClasses m.uses
  let provides ← encodeList encodeProvide m.provides
  return Bytes.u2 name ++ Bytes.u2 m.access ++ Bytes.u2 version ++ requires ++ exports ++ opens ++ uses ++ provides

def moduleAttributes (m : ModuleInfo) : PoolM (List Attribute) := do
  let module ← Attribute.make Attribute.moduleName (encodeModule m)
  let packages ← Attribute.makeIf (!m.packages.isEmpty) Attribute.modulePackagesName
    (encodeList (fun name => indexBytes (Pool.package name)) m.packages)
  let mainClass ← Attribute.makeFor m.mainClass Attribute.moduleMainClassName
    fun name => indexBytes (Pool.classRef name)
  return module :: packages ++ mainClass

def bootstrapAttribute : PoolM (List Attribute) := do
  if (← get).methodCount = 0 then return []
  else return [← Attribute.make Attribute.bootstrapMethodsName (do (← get).encodeMethods)]

def optionalModule : Option ModuleInfo → PoolM (List Attribute)
  | some m => moduleAttributes m
  | none => pure []

/-- The attributes of a class but for the bootstrap methods. -/
def ownAttributes (events : List ClassEvent) : PoolM (List Attribute) := do
  let (file, debug) := Element.source events
  let file ← Attribute.makeFor file Attribute.sourceFileName fun s => indexBytes (Pool.utf8 s)
  let debug ← Attribute.makeFor debug Attribute.sourceDebugName fun s => pure (JavaText.ofString s).encode
  let signature ← signatureAttribute (Element.signature events)
  let enclosing ← Attribute.makeFor (Element.enclosingMethod events) Attribute.enclosingMethodName encodeEnclosing
  let host ← Attribute.makeFor (Element.nestHost events) Attribute.nestHostName
    fun name => indexBytes (Pool.classRef name)
  let members ← Attribute.makeIf (!(Element.nestMembers events).isEmpty) Attribute.nestMembersName
    (encodeClasses (Element.nestMembers events))
  let permitted ← Attribute.makeIf (!(Element.permittedSubclasses events).isEmpty) Attribute.permittedSubclassesName
    (encodeClasses (Element.permittedSubclasses events))
  let inner ← Attribute.makeIf (!(Element.innerClasses events).isEmpty) Attribute.innerClassesName
    (encodeList encodeInner (Element.innerClasses events))
  let markers ← markerAttributes events
  let annotations ← elementAnnotations events
  let record ← Attribute.makeFor (Element.record events) Attribute.recordName (encodeList encodeComponent)
  let module ← optionalModule (Element.module events)
  return file ++ debug ++ signature ++ enclosing ++ host ++ members ++ permitted ++ inner ++ markers ++ annotations
    ++ record ++ module

/-- The attributes of a class. The bootstrap methods come last, since all other parts can put some. -/
def classAttributes (events : List ClassEvent) : PoolM (List Attribute) := do
  let own ← ownAttributes events
  let bootstrap ← bootstrapAttribute
  return own ++ bootstrap

end ClassDoc
