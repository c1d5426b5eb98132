/-
  The rules on classes.

  `ClassModel.validate` checks what a class file needs beyond its format: access flags that go together, descriptors,
  methods with a body exactly where they need one, members that are different, annotations in places where they can
  be, labels that are defined, and operands that the instructions take. It reports the first rule that is broken.
-/
import ClassDoc.Access
import ClassDoc.Model.Labels
namespace ClassDoc

def ensure (holds : Bool) (v : Violation) : Except Fault Unit :=
  if holds then .ok () else .error (.violation v)

/-- A descriptor that breaks a rule if it is wrong. -/
def ensureDescriptor {α : Type} (v : Descriptor.Problem → Violation) : Except Descriptor.Problem α → Except Fault α
  | .ok a => .ok a
  | .error problem => .error (.violation (v problem))

def Access.oneVisibility (access : UInt16) : Bool :=
  ([public_, private_, protected_].filter (has access)).length ≤ 1

/-- Checks that at most one of public, private and protected is set. -/
def checkVisibility (access : UInt16) : Except Fault Unit :=
  ensure (Access.oneVisibility access) (.visibility access)

/-! ## Annotations -/

def Operand.annotates : Operand → Bool
  | bool _ | byte _ | short _ | char _ | int _ | long _ | float _ | double _ | string _ => true
  | _ => false

mutual

def AnnotationValue.check : AnnotationValue → Except Fault Unit
  | value operand => if operand.annotates then .ok () else fail (.unsupportedOperandType operand.tag)
  | enum _ _ => .ok ()
  | classRef _ => .ok ()
  | nested _ properties => AnnotationValue.checkProperties properties
  | array values => AnnotationValue.checkAll values

def AnnotationValue.checkProperties : List (String × AnnotationValue) → Except Fault Unit
  | [] => .ok ()
  | (name, v) :: rest =>
    match within (.inProperty name) v.check with
    | .error f => .error f
    | .ok () => AnnotationValue.checkProperties rest

def AnnotationValue.checkAll : List AnnotationValue → Except Fault Unit
  | [] => .ok ()
  | v :: rest =>
    match v.check with
    | .error f => .error f
    | .ok () => AnnotationValue.checkAll rest

end

namespace Model

def Annotation.validate (a : Annotation) : Except Fault Unit :=
  within (.inAnnotated a.descriptor) (AnnotationValue.checkProperties a.properties)

/-- Checks a type annotation on something where only some kinds of targets are `allowed`. -/
def TypeAnnotation.validate (allowed : UInt8 → Bool) (a : TypeAnnotation) : Except Fault Unit := do
  ensure (allowed a.targetType) (.targetPlace a.targetType)
  ensure (a.target.fits a.targetType) (.targetForm a.target a.targetType)
  within (.inAnnotatedType a.base.descriptor) (AnnotationValue.checkProperties a.base.properties)

def targetsClass (t : UInt8) : Bool :=
  t == TargetType.classTypeParameter || t == TargetType.classExtends || t == TargetType.classTypeParameterBound

def targetsField (t : UInt8) : Bool := t == TargetType.field

/-- The kinds of targets on a method, and those in its code if it has any. -/
def targetsMethod (hasBody : Bool) (t : UInt8) : Bool :=
  t == TargetType.methodTypeParameter || (TargetType.methodTypeParameterBound ≤ t && t ≤ TargetType.throws)
    || (hasBody && TargetType.isCode t)

/-! ## Components and fields -/

def RecordComponent.validate (c : RecordComponent) : Except Fault Unit := do
  ensureDescriptor (.componentDescriptor c.name) (Descriptor.checkField c.descriptor)
  c.annotations.forM Annotation.validate
  c.typeAnnotations.forM (·.validate targetsField)

/-- The value can be the initial value of a field with a descriptor. -/
def initialises : (value : Operand) → (descriptor : String) → Bool
  | .int _, descriptor => ["I", "S", "C", "B", "Z"].contains descriptor
  | .long _, descriptor => descriptor == "J"
  | .float _, descriptor => descriptor == "F"
  | .double _, descriptor => descriptor == "D"
  | .string _, descriptor => descriptor == "Ljava/lang/String;"
  | _, _ => false

def Field.validate (f : Field) : Except Fault Unit := do
  checkVisibility f.access
  ensure (!(Access.has f.access Access.final && Access.has f.access Access.volatile)) (.finalVolatile f.name)
  ensureDescriptor (.fieldDescriptor f.name) (Descriptor.checkField f.descriptor)
  match f.value with
  | some value => ensure (initialises value f.descriptor) (.initialValue f.name f.descriptor value)
  | none => pure ()
  f.annotations.forM Annotation.validate
  f.typeAnnotations.forM (·.validate targetsField)

/-! ## Methods -/

namespace Method

def notAbstract : UInt16 :=
  Access.private_ ||| Access.static ||| Access.final ||| Access.synchronized ||| Access.native

def needsBody (m : Method) : Bool := !Access.has m.access (Access.abstract ||| Access.native)

/-- Checks the flags of an abstract method, and that there is code where there must be and nowhere else. -/
def checkBody (m : Method) : Except Fault Unit := do
  ensure (!(Access.has m.access Access.abstract && Access.has m.access notAbstract)) (.abstractAccess m.name m.access)
  ensure (!m.needsBody || m.hasBody) (.noBody m.name)
  ensure (m.needsBody || !m.hasBody) (.unexpectedBody m.name)
  ensure (m.hasBody || (m.localVariables.isEmpty && m.maxStack.isNone && m.maxLocals.isNone)) (.bodyParts m.name)
  ensure (m.maxStack.isSome == m.maxLocals.isSome) (.singleMax m.name)

def annotable (m : Method) : Visibility → Option UInt8
  | .runtime => m.visibleAnnotable
  | .classFile => m.invisibleAnnotable

/-- Checks that no parameter before the annotable ones has an annotation of a visibility. -/
def checkAnnotable (m : Method) (arguments : Nat) (visibility : Visibility) : Except Fault Unit :=
  match m.annotable visibility with
  | none => .ok ()
  | some count => do
    ensure (count.toNat ≤ arguments) (.annotableCount count m.descriptor arguments)
    let before := m.parameters.take (arguments - count.toNat)
    match before.findIdx? fun p => p.annotations.any fun a => a.visibility == visibility with
    | some index => .error (.violation (.annotatedParameter index count))
    | none => .ok ()

def checkParameters (m : Method) (arguments : Nat) : Except Fault Unit := do
  ensure (m.parameters.isEmpty || m.parameters.length == arguments)
    (.parameterCount m.name m.parameters.length m.descriptor arguments)
  m.checkAnnotable arguments .runtime
  m.checkAnnotable arguments .classFile

def tryCatches (m : Method) : Nat :=
  m.entries.countP fun entry => match entry with
    | .tryCatch _ => true
    | _ => false

/-- Checks that a type annotation on the exception of a try-catch is on one that is there. -/
def checkCatch (tryCatches : Nat) (a : TypeAnnotation) : Except Fault Unit :=
  match a.target with
  | .catch index => ensure (index.toNat < tryCatches) (.catchIndex index tryCatches)
  | _ => .ok ()

/-- Checks the annotations of a method and its parameters, and the default of an annotation element. -/
def checkAnnotated (m : Method) : Except Fault Unit := do
  m.annotations.forM Annotation.validate
  m.parameters.zipIdx.forM fun (p, index) => within (.inParameter index) (p.annotations.forM Annotation.validate)
  m.typeAnnotations.forM (·.validate (targetsMethod m.hasBody))
  m.typeAnnotations.forM (checkCatch m.tryCatches)
  match m.annotationDefault with
  | some value => within .inDefault value.check
  | none => .ok ()

def checkEntry (index : Nat) : MethodEntry → Except Fault Unit
  | .instruction i => do let _ ← within (.inEntry index i.mnemonic) i.toInsn
  | .frame f => within (.inEntry index "a frame")
      (ensure f.wellFormed (.frameLists f.kind f.locals.length f.stack.length))
  | _ => .ok ()

def validate (m : Method) : Except Fault Unit := do
  checkVisibility m.access
  let (arguments, _) ← ensureDescriptor (.methodDescriptor m.name) (Descriptor.splitMethod m.descriptor)
  m.checkBody
  m.checkParameters arguments.length
  m.checkAnnotated
  m.checkLabels
  m.entries.zipIdx.forM fun (entry, index) => checkEntry index entry

end Method

end Model

/-! ## Classes -/

namespace ClassModel

def checkAccess (c : ClassModel) : Except Fault Unit := do
  checkVisibility c.access
  ensure (!Access.has c.access Access.interface || Access.has c.access Access.abstract) .interfaceNotAbstract
  ensure (!Access.has c.access Access.interface || !Access.has c.access Access.final) .interfaceFinal
  ensure (c.module.isNone || Access.has c.access Access.module) (.moduleFlag c.access)

def checkComponents : List Model.RecordComponent → Except Fault Unit :=
  eachOnce (fun c => c.name) (fun c => within (.inComponent c.name) c.validate)
    (fun c => .violation (.duplicateComponent c.name)) {}

def checkFields : List Model.Field → Except Fault Unit :=
  eachOnce (fun f => (f.name, f.descriptor)) (fun f => within (.inField f.name f.descriptor) f.validate)
    (fun f => .violation (.duplicateField f.name f.descriptor)) {}

def checkMethods : List Model.Method → Except Fault Unit :=
  eachOnce (fun m => (m.name, m.descriptor)) (fun m => within (.inMethod m.name m.descriptor) m.validate)
    (fun m => .violation (.duplicateMethod m.name m.descriptor)) {}

def validate (c : ClassModel) : Except Fault Unit := within (.inClass c.name) do
  c.checkAccess
  c.annotations.forM Model.Annotation.validate
  c.typeAnnotations.forM (·.validate Model.targetsClass)
  checkComponents (c.record.getD [])
  checkFields c.fields
  checkMethods c.methods

end ClassModel

end ClassDoc
