/-
  Writing class files from events.

  The events of a member are kept until the next member or the end; then the member is written. The header and the
  attributes of the class are written last, when the pool is complete. A writer can go on after a fault: what was put
  into the pool and what was already written of a member stays.
-/
import ClassDoc.ClassFile.Attributes
namespace ClassDoc

/-- A field or a method, by its header. -/
inductive Member where
  | field (header : FieldHeader)
  | method (header : MethodHeader)

/-- The header of a class with the names in the pool. -/
structure WrittenHeader where
  version : Version
  access : UInt16
  thisClass : UInt16
  superClass : UInt16
  interfaces : List UInt16

/-- Where in a class an event stands. -/
inductive Level where
  | header
  | member
  | done
  | element
  /-- in a class, before the members -/
  | preamble
  | method
  deriving DecidableEq

def ClassEvent.level : ClassEvent → Level
  | header _ => .header
  | field _ | method _ => .member
  | done => .done
  | signature _ | annotate _ _ | annotateType _ _ | deprecated | synthetic => .element
  | parameter _ _ | annotableParameterCount _ _ | annotateParameter _ _ _ | annotationDefault _ | code _ => .method
  | source _ _ | enclosingMethod _ _ _ | nestHost _ | nestMember _ | permittedSubclass _ | innerClass _ | record _
  | module _ => .preamble

/-- The state of a writer between two events. -/
structure ClassWriter where
  pool : Pool := {}
  header : Option WrittenHeader := none
  /-- The events of the class itself, the last one first. -/
  events : List ClassEvent := []
  /-- The last member with its events, the last one first. -/
  member : Option (Member × List ClassEvent) := none
  fieldCount : Nat := 0
  /-- The bytes of the fields, the last part first. -/
  fields : List Bytes := []
  methodCount : Nat := 0
  /-- The bytes of the methods, the last part first. -/
  methods : List Bytes := []
  ended : Bool := false

/-- A computation that changes a writer. Changes stay even if it fails later. -/
abbrev WriterM := EStateM Fault ClassWriter

namespace ClassWriter

def inPool {α : Type} (x : PoolM α) : WriterM α := fun w =>
  let rest := { w with pool := {} }
  match x w.pool with
  | .ok a pool => .ok a { rest with pool }
  | .error f pool => .error f { rest with pool }

/-! ## Members -/

def addToFields (bytes : Bytes) : WriterM Unit := modify fun w => { w with fields := bytes :: w.fields }

def addToMethods (bytes : Bytes) : WriterM Unit := modify fun w => { w with methods := bytes :: w.methods }

def writeField (header : FieldHeader) (events : List ClassEvent) : WriterM Unit := do
  ofDescriptor (Descriptor.checkField header.descriptor)
  addToFields (Bytes.u2 header.access)
  addToFields (← inPool (indexBytes (Pool.utf8 header.name)))
  addToFields (← inPool (indexBytes (Pool.utf8 header.descriptor)))
  let attributes ← inPool (fieldAttributes header events)
  addToFields (← Attribute.encodeAll attributes)

def writeMethod (header : MethodHeader) (events : List ClassEvent) : WriterM Unit := do
  let (arguments, _) ← ofDescriptor (Descriptor.splitMethod header.descriptor)
  addToMethods (Bytes.u2 header.access)
  addToMethods (← inPool (indexBytes (Pool.utf8 header.name)))
  addToMethods (← inPool (indexBytes (Pool.utf8 header.descriptor)))
  let attributes ← inPool (methodAttributes header arguments.length events)
  addToMethods (← Attribute.encodeAll attributes)

def finishMember : WriterM Unit := do
  let member := (← get).member
  modify fun w => { w with member := none }
  match member with
  | none => pure ()
  | some (.field header, events) =>
    inPlace (.writingField header.name) (writeField header events.reverse)
    modify fun w => { w with fieldCount := w.fieldCount + 1 }
  | some (.method header, events) =>
    inPlace (.writingMethod (header.name ++ header.descriptor)) (writeMethod header events.reverse)
    modify fun w => { w with methodCount := w.methodCount + 1 }

def startMember (member : Member) : WriterM Unit := do
  finishMember
  modify fun w => { w with member := some (member, []) }

/-! ## Events -/

/-- Keeps an event for the last member, or for the class before the first member. -/
def keep (event : ClassEvent) : WriterM Unit := modify fun w =>
  match w.member with
  | none => { w with events := event :: w.events }
  | some (member, events) => { w with member := some (member, event :: events) }

def keepInMethod (event : ClassEvent) : WriterM Unit := do
  match (← get).member with
  | some (.method _, _) => keep event
  | _ => throw (.write .outsideMethod)

def keepInClass (event : ClassEvent) : WriterM Unit := do
  if (← get).member.isSome then throw (.write (.afterMember event)) else keep event

def writeHeader (header : ClassHeader) : WriterM Unit := do
  if (← get).header.isSome then throw (.write (.secondHeader header))
  else
    let interfaces ← header.interfaces.mapM fun name => inPool (Pool.classRef name)
    let thisClass ← inPool (Pool.classRef header.name)
    let superClass ← inPool (Pool.optionalClass header.superClass)
    let written : WrittenHeader := ⟨header.version, header.access, thisClass, superClass, interfaces⟩
    modify fun w => { w with header := some written }

def acceptInside (event : ClassEvent) : WriterM Unit := do
  match event with
  | .field header => startMember (.field header)
  | .method header => startMember (.method header)
  | .done =>
    finishMember
    modify fun w => { w with ended := true }
  | event =>
    match event.level with
    | .element => keep event
    | .method => keepInMethod event
    | _ => keepInClass event

def accept (event : ClassEvent) : WriterM Unit := do
  if (← get).ended then throw (.write (.afterEnd event))
  else match event with
    | .header header => writeHeader header
    | event => if (← get).header.isNone then throw (.write (.headerFirst event)) else acceptInside event

/-! ## The class file -/

def magic : UInt32 := 0xCAFEBABE

def encodeHeader (header : WrittenHeader) (pool : Pool) : Except Fault Bytes := do
  let entries ← pool.encode
  let interfaceCount ← Bytes.count2 header.interfaces.length
  return Bytes.u4 magic ++ Bytes.u2 header.version.minor ++ Bytes.u2 header.version.major ++ entries
    ++ Bytes.u2 header.access ++ Bytes.u2 header.thisClass ++ Bytes.u2 header.superClass ++ interfaceCount
    ++ header.interfaces.flatMap Bytes.u2

def finish (w : ClassWriter) : Except Fault Bytes :=
  match w.header with
  | none => .error (.write .noHeader)
  | some header =>
    if !w.ended then .error (.write .notEnded)
    else
      match classAttributes w.events.reverse w.pool with
      | .error f _ => .error f
      | .ok attributes pool => do
        let header ← encodeHeader header pool
        let fieldCount ← Bytes.count2 w.fieldCount
        let methodCount ← Bytes.count2 w.methodCount
        let attributes ← Attribute.encodeAll attributes
        return header ++ fieldCount ++ w.fields.reverse.flatten ++ methodCount ++ w.methods.reverse.flatten
          ++ attributes

end ClassWriter

def writeEvents (events : List ClassEvent) : Except Fault Bytes :=
  match events.forM ClassWriter.accept {} with
  | .ok _ w => w.finish
  | .error f _ => .error f

end ClassDoc
