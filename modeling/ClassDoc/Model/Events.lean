/-
  The class events of a model.

  The events come in the order in which reading a class file brings them about. Part of a model may have no
  counterpart in class files; then the events end there with a fault.
-/
import ClassDoc.ClassFile.Reader
import ClassDoc.ClassFile.Writer
import ClassDoc.Model.Builder
import ClassDoc.Model.Validate
namespace ClassDoc

namespace Model

/-- Gives the events of a model. -/
abbrev EventM := TraceM Unit

def emitFor {α : Type} (value : Option α) (event : α → ClassEvent) : EventM Unit :=
  match value with
  | some a => emit (event a)
  | none => pure ()

def emitEach {α : Type} (values : List α) (event : α → ClassEvent) : EventM Unit :=
  values.forM fun a => emit (event a)

def emitMarkers (deprecated synthetic : Bool) : EventM Unit := do
  if deprecated then emit .deprecated
  if synthetic then emit .synthetic

def emitAnnotations (annotations : List Annotation) : EventM Unit :=
  annotations.forM fun a => do
    let (visible, a) ← a.toClassFile
    emit (.annotate visible a)

def emitTypeAnnotations (annotations : List TypeAnnotation) : EventM Unit :=
  annotations.forM fun a => do
    let (visible, a) ← a.toClassFile
    emit (.annotateType visible a)

def RecordComponent.toClassFile (c : RecordComponent) : Except Fault ClassDoc.RecordComponent := do
  let annotations ← c.annotations.mapM Annotation.toClassFile
  let typeAnnotations ← c.typeAnnotations.mapM TypeAnnotation.toClassFile
  return ⟨c.name, c.descriptor, c.signature, annotations, typeAnnotations⟩

def Field.emitEvents (f : Field) : EventM Unit := do
  let value ← f.value.mapM fun v => (v.toConstant : Except Fault Constant)
  emit (.field ⟨f.access, f.name, f.descriptor, value⟩)
  emitFor f.signature .signature
  emitMarkers f.deprecated f.synthetic
  emitAnnotations f.annotations
  emitTypeAnnotations f.typeAnnotations

namespace Method

def declarationTypeAnnotations (m : Method) : List TypeAnnotation :=
  m.typeAnnotations.filter fun a => !TargetType.isCode a.targetType

def codeTypeAnnotations (m : Method) : List TypeAnnotation :=
  m.typeAnnotations.filter fun a => TargetType.isCode a.targetType

def namesParameters (m : Method) : Bool := m.parameters.any fun p => p.name.isSome || p.access != 0

/-- The number of a parameter among the annotable ones, of which `skipped` are none. -/
def annotableIndex (skipped index : Nat) : Except Fault UInt8 :=
  if index < skipped then .error (.violation (.notAnnotable index))
  else if index - skipped < 256 then .ok (UInt8.ofNat (index - skipped))
  else fail .tooManyParameters

/-- The number of parameters that cannot be annotated, after the event that tells so. -/
def emitAnnotable (m : Method) (arguments : Nat) (visibility : Visibility) : EventM Nat :=
  match m.annotable visibility with
  | none => pure 0
  | some count => do
    emit (.annotableParameterCount count visibility.isRuntime)
    if arguments < count.toNat then throw (.violation (.annotableArguments count arguments))
    return arguments - count.toNat

def emitParameterAnnotations (m : Method) (arguments : Nat) (visibility : Visibility) : EventM Unit := do
  let skipped ← m.emitAnnotable arguments visibility
  m.parameters.zipIdx.forM fun (p, index) =>
    (p.annotations.filter fun a => a.visibility == visibility).forM fun a => do
      let index ← annotableIndex skipped index
      let (visible, a) ← a.toClassFile
      emit (.annotateParameter index visible a)

def entryEvent (index : Nat) : MethodEntry → Except Fault CodeEvent
  | .instruction i => do return .insn (← within (.inEntry index i.mnemonic) i.toInsn)
  | .label l => .ok (.label l)
  | .tryCatch t => .ok (.tryCatch t)
  | .frame f => .ok (.frame f)
  | .line number l => .ok (.lineNumber number l)

def emitCode (m : Method) : EventM Unit := do
  m.entries.zipIdx.forM fun (entry, index) => do
    let e ← entryEvent index entry
    emit (.code e)
  emitEach m.localVariables fun v => .code (.localVariable v)
  m.codeTypeAnnotations.forM fun a => do
    let (visible, a) ← a.toClassFile
    emit (.code (.annotateType visible a))
  match m.maxStack, m.maxLocals with
  | some maxStack, some maxLocals => emit (.code (.maxs maxStack maxLocals))
  | _, _ => pure ()

def emitEvents (m : Method) : EventM Unit := do
  emit (.method ⟨m.access, m.name, m.descriptor, m.exceptions⟩)
  emitFor m.signature .signature
  emitMarkers m.deprecated m.synthetic
  if m.namesParameters then emitEach m.parameters fun p => .parameter p.name p.access
  emitAnnotations m.annotations
  emitTypeAnnotations m.declarationTypeAnnotations
  let arguments ← ModelBuilder.argumentCount m
  m.emitParameterAnnotations arguments .runtime
  m.emitParameterAnnotations arguments .classFile
  match m.annotationDefault with
  | some value => emit (.annotationDefault (← value.toElement))
  | none => pure ()
  m.emitCode

end Method

end Model

namespace ClassModel

open Model

def emitClass (c : ClassModel) : EventM Unit := do
  emit (.header ⟨c.version, c.access, c.name, c.superClass, c.interfaces⟩)
  if c.sourceFile.isSome || c.sourceDebug.isSome then emit (.source c.sourceFile c.sourceDebug)
  emitFor c.signature .signature
  emitFor c.enclosingMethod fun e => .enclosingMethod e.owner (e.method.map Prod.fst) (e.method.map Prod.snd)
  emitFor c.nestHost .nestHost
  emitEach c.nestMembers .nestMember
  emitEach c.permittedSubclasses .permittedSubclass
  emitEach c.innerClasses .innerClass
  emitMarkers c.deprecated c.synthetic
  emitAnnotations c.annotations
  emitTypeAnnotations c.typeAnnotations
  match c.record with
  | some components =>
    let components ← components.mapM fun r => within (.inComponent r.name) r.toClassFile
    emit (.record components)
  | none => pure ()
  emitFor c.module .module

def emitEvents (c : ClassModel) : EventM Unit := do
  c.emitClass
  c.fields.forM fun f => tracedInside (.inField f.name f.descriptor) f.emitEvents
  c.methods.forM fun m => tracedInside (.inMethod m.name m.descriptor) m.emitEvents
  emit .done

def trace (c : ClassModel) : Trace := traceOf c.emitEvents ()

def events (c : ClassModel) : Except Fault (List ClassEvent) := c.trace.events

end ClassModel

def writeModel (c : ClassModel) : Except Fault Bytes := do
  let writer ← (c.trace.feed ClassWriter.accept {}).value
  writer.finish

def readModel (bytes : Bytes) : Report ClassModel := do
  let b ← (readTrace bytes).feed ModelBuilder.accept {}
  b.finish

end ClassDoc
