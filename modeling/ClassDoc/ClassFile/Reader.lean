/-
  Reading class files into events.

  The members are read after the attributes of the class, since their constants can refer to the bootstrap methods.
  Where an attribute comes several times, the last one counts, or all of them if they are lists that can grow.
-/
import ClassDoc.ClassFile.Attributes
import ClassDoc.ClassFile.Writer
import ClassDoc.Code.Read
namespace ClassDoc

/-! ## Attributes -/

/-- What an attribute of a class, a field, a method or a component says. -/
inductive Part where
  | signature (s : String)
  | deprecated
  | synthetic
  | annotations (visible : Bool) (l : List Annotation)
  | typeAnnotations (visible : Bool) (l : List <| TypeAnnotation UInt16)
  | bootstrapMethods (l : List (Handle × List UInt16))
  | sourceFile (s : String)
  | sourceDebug (s : String)
  | enclosingMethod (owner : String) (method : Option (String × String))
  | nestHost (name : String)
  | nestMembers (l : List String)
  | permittedSubclasses (l : List String)
  | innerClasses (l : List InnerClass)
  | record (l : List RecordComponent)
  | module (m : ModuleInfo)
  | modulePackages (l : List String)
  | moduleMainClass (name : String)
  | constantValue (c : Constant)
  | code (input : Input)
  | exceptions (l : List String)
  | parameters (l : List (Option String × UInt16))
  | parameterAnnotations (l : List ClassEvent)
  | annotationDefault (v : ElementValue)

namespace Part

/-- What only one of several attributes says: the last one. -/
def last? {α : Type} (f : Part → Option α) (parts : List Part) : Option α := (parts.filterMap f).getLast?

def signatureEvents (parts : List Part) : List ClassEvent :=
  parts.filterMap fun | .signature s => some (.signature s) | _ => none

def lastSignature (parts : List Part) : List ClassEvent := (signatureEvents parts).getLast?.toList

def markerEvents (parts : List Part) : List ClassEvent :=
  (if parts.any fun | .deprecated => true | _ => false then [.deprecated] else [])
    ++ (if parts.any fun | .synthetic => true | _ => false then [.synthetic] else [])

def annotationsOf (parts : List Part) : List (Bool × Annotation) :=
  parts.flatMap fun | .annotations visible l => l.map fun a => (visible, a) | _ => []

/-- An annotation on a type outside of code, which has no labels. -/
def withoutLabels (a : TypeAnnotation UInt16) : TypeAnnotation Label :=
  Id.run (a.mapLabels fun offset => (⟨offset.toUInt32⟩ : Label))

def typeAnnotationsOf (parts : List Part) : List (Bool × TypeAnnotation Label) :=
  parts.flatMap fun | .typeAnnotations visible l => l.map fun a => (visible, withoutLabels a) | _ => []

def annotationEvents (parts : List Part) : List ClassEvent :=
  (annotationsOf parts).map (fun a => .annotate a.1 a.2)
    ++ (typeAnnotationsOf parts).map fun a => .annotateType a.1 a.2

end Part

def readAnyPart (pool : PoolView) (name : String) : ReadM (Option Part) := do
  if name = Attribute.signatureName then return some (.signature (← take (decodeIndex pool.utf8)))
  else if name = Attribute.annotationsName true then
    return some (.annotations true (← take (decodeAnnotations pool)))
  else if name = Attribute.annotationsName false then
    return some (.annotations false (← take (decodeAnnotations pool)))
  else if name = Attribute.typeAnnotationsName true then
    return some (.typeAnnotations true (← take (decodeTypes pool none)))
  else if name = Attribute.typeAnnotationsName false then
    return some (.typeAnnotations false (← take (decodeTypes pool none)))
  else return none

def marker? (name : String) : Option Part :=
  if name = Attribute.deprecatedName then some .deprecated
  else if name = Attribute.syntheticName then some .synthetic
  else none

/-- Reads an attribute that classes, fields and methods can have, or skips it with a warning. -/
def readElementPart (pool : PoolView) (w : Warning) (name : String) (length : Nat) : ReadM (Option Part) := do
  match ← readAnyPart pool name with
  | some part => return some part
  | none =>
    match marker? name with
    | some part =>
      take (Decode.skip length)
      return some part
    | none => skipAttribute w length

/-! ## Fields -/

def readFieldPart (pool : PoolView) (field name : String) (length : Nat) : ReadM (Option Part) := do
  if name = Attribute.constantValueName then return some (.constantValue (← take (decodeIndex pool.constantValue)))
  else readElementPart pool (.fieldAttribute name field) name length

def fieldEvents (access : UInt16) (name descriptor : String) (parts : List Part) : List ClassEvent :=
  let value := Part.last? (fun | .constantValue c => some c | _ => none) parts
  .field ⟨access, name, descriptor, value⟩ ::
    (Part.lastSignature parts ++ Part.markerEvents parts ++ Part.annotationEvents parts)

def readField (pool : PoolView) : ReadM Unit := do
  let access ← take Decode.u2
  let name ← take (decodeIndex pool.utf8)
  let descriptor ← take (decodeIndex pool.utf8)
  tracedInside (.inField name descriptor) do
    let parts ← readAttributes pool (readFieldPart pool name)
    (fieldEvents access name descriptor parts).forM emit

/-! ## Methods -/

/-- Reads the annotations on parameters with a visibility. Their number is only worth an event if it is not the one of
the arguments. -/
def decodeParameterAnnotations (pool : PoolView) (visible : Bool) (descriptor : String) :
    Decode (List ClassEvent) := do
  let count ← Decode.u1
  let (arguments, _) ← ofDescriptor (Descriptor.splitMethod descriptor)
  let lists ← Decode.times count.toNat (decodeAnnotations pool)
  let head := if count.toNat = arguments.length then [] else [.annotableParameterCount count visible]
  return head ++ lists.zipIdx.flatMap fun (annotations, i) =>
    annotations.map fun a => .annotateParameter (UInt8.ofNat i) visible a

def decodeParameter (pool : PoolView) : Decode (Option String × UInt16) := do
  let name ← decodeIndex (PoolView.optional pool.utf8)
  let access ← Decode.u2
  return (name, access)

def decodeClasses (pool : PoolView) : Decode (List String) := Decode.list (decodeIndex pool.classRef)

def readMethodPart (pool : PoolView) (method descriptor name : String) (length : Nat) : ReadM (Option Part) := do
  if name = Attribute.codeName then
    let (input, _) ← get
    take (Decode.skip length)
    return some (.code input)
  else if name = Attribute.exceptionsName then return some (.exceptions (← take (decodeClasses pool)))
  else if name = Attribute.methodParametersName then
    return some (.parameters (← take (Decode.shortList (decodeParameter pool))))
  else if name = Attribute.parameterAnnotationsName true then
    return some (.parameterAnnotations (← take (decodeParameterAnnotations pool true descriptor)))
  else if name = Attribute.parameterAnnotationsName false then
    return some (.parameterAnnotations (← take (decodeParameterAnnotations pool false descriptor)))
  else if name = Attribute.annotationDefaultName then return some (.annotationDefault (← take (decodeValue pool)))
  else readElementPart pool (.methodAttribute name method descriptor) name length

def methodEvents (access : UInt16) (name descriptor : String) (parts : List Part) : List ClassEvent :=
  let exceptions := (Part.last? (fun | .exceptions l => some l | _ => none) parts).getD []
  let parameters := (Part.last? (fun | .parameters l => some l | _ => none) parts).getD []
  let default := Part.last? (fun | .annotationDefault v => some v | _ => none) parts
  .method ⟨access, name, descriptor, exceptions⟩ ::
    (Part.lastSignature parts ++ Part.markerEvents parts
      ++ parameters.map (fun p => .parameter p.1 p.2)
      ++ Part.annotationEvents parts
      ++ parts.flatMap (fun | .parameterAnnotations l => l | _ => [])
      ++ default.toList.map ClassEvent.annotationDefault)

/-- Reads from another place of the input, then goes on where it was. -/
def readAt {α : Type} (input : Input) (x : ReadM α) : ReadM α := do
  let (after, _) ← get
  modify fun (_, items) => (input, items)
  let a ← x
  modify fun (_, items) => (after, items)
  return a

def readMethodBody (pool : PoolView) (access : UInt16) (name descriptor : String) : ReadM Unit := do
  let parts ← readAttributes pool (readMethodPart pool name descriptor)
  (methodEvents access name descriptor parts).forM emit
  match Part.last? (fun | .code input => some input | _ => none) parts with
  | some input => readAt input (readCode pool)
  | none => pure ()

def readMethod (pool : PoolView) : ReadM Unit := do
  let access ← take Decode.u2
  let name ← take (decodeIndex pool.utf8)
  let descriptor ← take (decodeIndex pool.utf8)
  tracedInside (.readingMethod name descriptor) (readMethodBody pool access name descriptor)

/-! ## Classes -/

def readComponentPart (pool : PoolView) (component name : String) (length : Nat) : ReadM (Option Part) := do
  match ← readAnyPart pool name with
  | some part => return some part
  | none => skipAttribute (.componentAttribute name component) length

def readComponent (pool : PoolView) : ReadM RecordComponent := do
  let name ← take (decodeIndex pool.utf8)
  let descriptor ← take (decodeIndex pool.utf8)
  let parts ← readAttributes pool (readComponentPart pool name)
  let signature := Part.last? (fun | .signature s => some s | _ => none) parts
  return ⟨name, descriptor, signature, Part.annotationsOf parts, Part.typeAnnotationsOf parts⟩

def readComponentsFrom (pool : PoolView) : (count : Nat) → (found : List RecordComponent) →
    ReadM (List RecordComponent)
  | 0, found => pure found.reverse
  | count + 1, found => do readComponentsFrom pool count ((← readComponent pool) :: found)

def readComponents (pool : PoolView) : ReadM (List RecordComponent) := do
  readComponentsFrom pool (← take Decode.u2).toNat []

def decodeBootstrapMethod (pool : PoolView) : Decode (Handle × List UInt16) := do
  let handle ← decodeIndex pool.methodHandle
  let arguments ← Decode.list Decode.u2
  return (handle, arguments)

def decodeInnerClass (pool : PoolView) : Decode InnerClass := do
  let name ← decodeIndex pool.classRef
  let outer ← decodeIndex (PoolView.optional pool.classRef)
  let simpleName ← decodeIndex (PoolView.optional pool.utf8)
  let access ← Decode.u2
  return ⟨name, outer, simpleName, access⟩

def decodeEnclosing (pool : PoolView) : Decode Part := do
  let owner ← decodeIndex pool.classRef
  let method ← decodeIndex (PoolView.optional pool.nameAndType)
  return .enclosingMethod owner method

def decodeRequire (pool : PoolView) : Decode ModuleRequire := do
  let module ← decodeIndex pool.module
  let access ← Decode.u2
  let version ← decodeIndex (PoolView.optional pool.utf8)
  return ⟨module, access, version⟩

def decodePackage (pool : PoolView) : Decode ModulePackage := do
  let package ← decodeIndex pool.package
  let access ← Decode.u2
  let targets ← Decode.list (decodeIndex pool.module)
  return ⟨package, access, targets⟩

def decodeProvide (pool : PoolView) : Decode ModuleProvide := do
  let service ← decodeIndex pool.classRef
  let implementations ← decodeClasses pool
  return ⟨service, implementations⟩

/-- Reads a module. Its packages and its main class are attributes of their own. -/
def decodeModule (pool : PoolView) : Decode ModuleInfo := do
  let name ← decodeIndex pool.module
  let access ← Decode.u2
  let version ← decodeIndex (PoolView.optional pool.utf8)
  let requires ← Decode.list (decodeRequire pool)
  let exports ← Decode.list (decodePackage pool)
  let opens ← Decode.list (decodePackage pool)
  let uses ← decodeClasses pool
  let provides ← Decode.list (decodeProvide pool)
  return { name, access, version, requires, exports, opens, uses, provides }

def decodeDebug (length : Nat) : Decode String := do
  plainText (← decodeText (← Decode.bytes length))

def readClassPart (pool : PoolView) (className name : String) (length : Nat) : ReadM (Option Part) := do
  if name = Attribute.bootstrapMethodsName then
    return some (.bootstrapMethods (← take (Decode.list (decodeBootstrapMethod pool))))
  else if name = Attribute.sourceFileName then return some (.sourceFile (← take (decodeIndex pool.utf8)))
  else if name = Attribute.sourceDebugName then return some (.sourceDebug (← take (decodeDebug length)))
  else if name = Attribute.enclosingMethodName then return some (← take (decodeEnclosing pool))
  else if name = Attribute.nestHostName then return some (.nestHost (← take (decodeIndex pool.classRef)))
  else if name = Attribute.nestMembersName then return some (.nestMembers (← take (decodeClasses pool)))
  else if name = Attribute.permittedSubclassesName then
    return some (.permittedSubclasses (← take (decodeClasses pool)))
  else if name = Attribute.innerClassesName then
    return some (.innerClasses (← take (Decode.list (decodeInnerClass pool))))
  else if name = Attribute.recordName then return some (.record (← readComponents pool))
  else if name = Attribute.moduleName then return some (.module (← take (decodeModule pool)))
  else if name = Attribute.modulePackagesName then
    return some (.modulePackages (← take (Decode.list (decodeIndex pool.package))))
  else if name = Attribute.moduleMainClassName then
    return some (.moduleMainClass (← take (decodeIndex pool.classRef)))
  else readElementPart pool (.classAttribute name className) name length

def skipAttributes : Decode Unit := do
  let _ ← Decode.list (do
    let _ ← Decode.u2
    let length ← Decode.u4
    Decode.skip length.toNat)

/-- Skips members without looking at them, their number first. -/
def skipMembers : Decode Unit := do
  let _ ← Decode.list (do
    Decode.skip 6
    skipAttributes)

def moduleOf? (parts : List Part) : Option ModuleInfo :=
  (Part.last? (fun | .module m => some m | _ => none) parts).map fun m =>
    { m with
      packages := (Part.last? (fun | .modulePackages l => some l | _ => none) parts).getD []
      mainClass := Part.last? (fun | .moduleMainClass name => some name | _ => none) parts }

/-- The class has packages or a main class of a module, but no module. -/
def hasLooseModuleParts (parts : List Part) : Bool :=
  !(parts.any fun | .module _ => true | _ => false)
    && parts.any fun | .modulePackages _ | .moduleMainClass _ => true | _ => false

def sourceEvents (parts : List Part) : List ClassEvent :=
  let file := Part.last? (fun | .sourceFile s => some s | _ => none) parts
  let debug := Part.last? (fun | .sourceDebug s => some s | _ => none) parts
  if file.isSome || debug.isSome then [.source file debug] else []

def classEvents (header : ClassHeader) (parts : List Part) : List ClassEvent :=
  let nestMembers := (Part.last? (fun | .nestMembers l => some l | _ => none) parts).getD []
  let permitted := (Part.last? (fun | .permittedSubclasses l => some l | _ => none) parts).getD []
  let inner := (Part.last? (fun | .innerClasses l => some l | _ => none) parts).getD []
  let record := Part.last? (fun | .record l => some l | _ => none) parts
  .header header ::
    (sourceEvents parts
      ++ Part.signatureEvents parts
      ++ parts.filterMap (fun
        | .enclosingMethod owner method => some (.enclosingMethod owner (method.map Prod.fst) (method.map Prod.snd))
        | _ => none)
      ++ parts.filterMap (fun | .nestHost name => some (.nestHost name) | _ => none)
      ++ nestMembers.map ClassEvent.nestMember
      ++ permitted.map ClassEvent.permittedSubclass
      ++ inner.map ClassEvent.innerClass
      ++ Part.markerEvents parts
      ++ Part.annotationEvents parts
      ++ record.toList.map ClassEvent.record
      ++ (moduleOf? parts).toList.map ClassEvent.module)

def repeatRead (x : ReadM Unit) : (count : Nat) → ReadM Unit
  | 0 => pure ()
  | count + 1 => do
    x
    repeatRead x count

def readMembers (pool : PoolView) : ReadM Unit := do
  repeatRead (readField pool) (← take Decode.u2).toNat
  repeatRead (readMethod pool) (← take Decode.u2).toNat

def maxMajor : UInt16 := 67

def decodeVersion : Decode Version := do
  let magic ← Decode.u4
  if magic ≠ ClassWriter.magic then Decode.problem (.magic magic)
  else
    let minor ← Decode.u2
    let major ← Decode.u2
    if major > maxMajor then Decode.problem (.version ⟨major, minor⟩) else return ⟨major, minor⟩

def decodeHeader (version : Version) (pool : PoolView) : Decode ClassHeader := do
  let access ← Decode.u2
  let name ← decodeIndex pool.classRef
  let superClass ← decodeIndex (PoolView.optional pool.classRef)
  let interfaces ← decodeClasses pool
  return ⟨version, access, name, superClass, interfaces⟩

def readClass : ReadM Unit := do
  let version ← take decodeVersion
  let pool ← take PoolView.decode
  let header ← take (decodeHeader version pool)
  let (members, _) ← get
  take skipMembers
  take skipMembers
  let parts ← readAttributes pool (readClassPart pool header.name)
  if hasLooseModuleParts parts then warn (.moduleParts header.name)
  let methods := (Part.last? (fun | .bootstrapMethods l => some l | _ => none) parts).getD []
  (classEvents header parts).forM emit
  tracedInside (.inClass header.name) (readAt members (readMembers { pool with methods }))
  emit .done

def readTrace (bytes : Bytes) : Trace := traceOf readClass { rest := bytes }

def readEvents (bytes : Bytes) : Except Fault (List ClassEvent) := (readTrace bytes).events

end ClassDoc
