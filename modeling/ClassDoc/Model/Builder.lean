/-
  Models from class events.

  A builder takes the events of a class one by one. Labels get new numbers, in each method from zero and in the order
  they come up. An event that does not fit leaves the builder as it is, apart from numbers that labels already got and
  parameters that were already made; it can go on with other events.
-/
import ClassDoc.Fault.State
import ClassDoc.Model.Annotation
import ClassDoc.Model.Instruction
namespace ClassDoc

/-- A model that is being built. What events add to one after the other is in reverse order: the fields and methods,
and all lists of the class, its fields, its methods and their parameters that have an event for each element. -/
structure ModelBuilder where
  stage : Stage := .awaitingClass
  model : ClassModel := default
  labels : Label.Numbering := {}

namespace ModelBuilder

/-- A step of the building of a model. -/
abbrev BuildM := EStateM Fault ModelBuilder

def unexpected {α : Type} (e : ClassEvent) : BuildM α := do
  throw (.violation (.unexpectedEvent e (← get).stage))

def onClass (f : ClassModel → ClassModel) : BuildM Unit := modify fun b => { b with model := f b.model }

def onField (f : Model.Field → Model.Field) : BuildM Unit := onClass fun c =>
  { c with fields := match c.fields with
      | [] => []
      | field :: rest => f field :: rest }

def lastMethod : BuildM Model.Method := do
  match (← get).model.methods with
  | [] => throw { cause := .noMethod }
  | method :: _ => return method

def onMethod (f : Model.Method → Model.Method) : BuildM Unit := do
  match (← get).model.methods with
  | [] => throw { cause := .noMethod }
  | method :: rest => onClass fun c => { c with methods := f method :: rest }

def renumber {α : Type} (x : StateM Label.Numbering α) : BuildM α := do
  let (a, labels) := x.run (← get).labels
  modify fun b => { b with labels }
  return a

/-- The type annotation of a model, with the labels numbered first. -/
def typeAnnotated (visible : Bool) (a : TypeAnnotation Label) : BuildM Model.TypeAnnotation := do
  let a ← renumber (a.mapLabels Label.Numbering.get)
  Model.TypeAnnotation.ofClassFile visible a

def component (c : RecordComponent) : BuildM Model.RecordComponent := do
  let typeAnnotations ← c.typeAnnotations.mapM fun (visible, a) => typeAnnotated visible a
  return ⟨c.name, c.descriptor, c.signature,
    c.annotations.map fun (visible, a) => .ofClassFile visible a, typeAnnotations⟩

/-! ## Parameters -/

def argumentCount (m : Model.Method) : Except Fault Nat := do
  return (← ofDescriptor (Descriptor.splitMethod m.descriptor)).1.length

/-- The number of a parameter, given its number among the annotable ones. -/
def annotatedIndex (m : Model.Method) (index : UInt8) (visible : Bool) : Except Fault UInt8 :=
  match if visible then m.visibleAnnotable else m.invisibleAnnotable with
  | none => .ok index
  | some count => do
    let arguments ← argumentCount m
    if arguments < count.toNat then .error (.violation (.annotableArguments count arguments))
    else
      let moved := index.toNat + (arguments - count.toNat)
      if moved < 256 then .ok (UInt8.ofNat moved) else .error (.violation (.annotatedRange index))

/-- Makes a parameter for each argument, if there are none yet. -/
def makeParameters : BuildM Unit := do
  let m ← lastMethod
  if m.parameters.isEmpty then
    let count ← argumentCount m
    onMethod fun m => { m with parameters := List.replicate count {} }

/-- Adds an annotation to a parameter; the last parameter stands first. -/
def annotateParameter (index : UInt8) (visible : Bool) (a : Annotation) : BuildM Unit := do
  let index ← annotatedIndex (← lastMethod) index visible
  makeParameters
  let m ← lastMethod
  if index.toNat < m.parameters.length then
    onMethod fun m => { m with parameters := m.parameters.modify (m.parameters.length - 1 - index.toNat) fun p =>
      { p with annotations := .ofClassFile visible a :: p.annotations } }
  else throw (.violation (.noParameter m.name index))

/-! ## Code -/

def addEntry (entry : MethodEntry) : BuildM Unit := onMethod fun m => { m with entries := entry :: m.entries }

def number (l : Label) : BuildM Label := renumber (Label.Numbering.get l)

def addCode : CodeEvent → BuildM Unit
  | .tryCatch t => do
    let start ← number t.start
    let stop ← number t.stop
    let handler ← number t.handler
    addEntry (.tryCatch ⟨start, stop, handler, t.catchType⟩)
  | .label l => do addEntry (.label (← number l))
  | .lineNumber line start => do addEntry (.line line (← number start))
  | .frame f => do addEntry (.frame (← renumber (f.mapLabels Label.Numbering.get)))
  | .insn i => do addEntry (.instruction (.ofInsn (← renumber (i.mapLabels Label.Numbering.get))))
  | .localVariable v => do
    let start ← number v.start
    let stop ← number v.stop
    onMethod fun m => { m with localVariables := { v with start, stop } :: m.localVariables }
  | .annotateType visible a => do
    let a ← typeAnnotated visible a
    onMethod fun m => { m with typeAnnotations := a :: m.typeAnnotations }
  | .maxs maxStack maxLocals => onMethod fun m => { m with maxStack := some maxStack, maxLocals := some maxLocals }

def code (e : CodeEvent) : BuildM Unit := do
  if (← get).model.methods.isEmpty then throw { cause := .codeWithoutMethod } else addCode e

/-! ## Events by stage -/

def start (h : ClassHeader) : BuildM Unit := do
  onClass fun c => { c with
    name := h.name
    access := h.access
    version := h.version
    superClass := h.superClass
    interfaces := h.interfaces }
  modify fun b => { b with stage := .inClass false }

def startField (h : FieldHeader) : BuildM Unit := do
  onClass fun c => { c with fields :=
    { name := h.name, descriptor := h.descriptor, access := h.access, value := h.value.map Operand.ofConstant } :: c.fields }
  modify fun b => { b with stage := .inClass true }

def startMethod (h : MethodHeader) : BuildM Unit := do
  onClass fun c => { c with methods :=
    { name := h.name, descriptor := h.descriptor, access := h.access, exceptions := h.exceptions } :: c.methods }
  modify fun b => { b with stage := .inMethod, labels := {} }

/-- Takes an event that is possible in every element of the class: the start of the next one, or the end. -/
def next : ClassEvent → BuildM Unit
  | .field h => startField h
  | .method h => startMethod h
  | .done => modify fun b => { b with stage := .closed }
  | e => unexpected e

def addPreamble : ClassEvent → BuildM Unit
  | .source file debug => onClass fun c => { c with sourceFile := file, sourceDebug := debug }
  | .enclosingMethod owner name descriptor => onClass fun c =>
    { c with enclosingMethod := some ⟨owner, name.bind fun n => descriptor.map fun d => (n, d)⟩ }
  | .nestHost name => onClass fun c => { c with nestHost := some name }
  | .nestMember name => onClass fun c => { c with nestMembers := name :: c.nestMembers }
  | .permittedSubclass name => onClass fun c => { c with permittedSubclasses := name :: c.permittedSubclasses }
  | .innerClass inner => onClass fun c => { c with innerClasses := inner :: c.innerClasses }
  | .record components => do
    let components ← components.mapM component
    onClass fun c => { c with record := some components }
  | .module m => onClass fun c => { c with module := some m }
  | e => unexpected e

/-- Takes an event that only the class itself can have, before its members. -/
def preambleEvent (e : ClassEvent) : BuildM Unit := do
  let c := (← get).model
  if c.fields.isEmpty && c.methods.isEmpty then addPreamble e else unexpected e

def classEvent : ClassEvent → BuildM Unit
  | .signature s => onClass fun c => { c with signature := some s }
  | .annotate visible a => onClass fun c => { c with annotations := .ofClassFile visible a :: c.annotations }
  | .annotateType visible a => do
    let a ← typeAnnotated visible a
    onClass fun c => { c with typeAnnotations := a :: c.typeAnnotations }
  | .deprecated => onClass fun c => { c with deprecated := true }
  | .synthetic => onClass fun c => { c with synthetic := true }
  | e@(.source _ _) | e@(.enclosingMethod _ _ _) | e@(.nestHost _) | e@(.nestMember _) | e@(.permittedSubclass _)
  | e@(.innerClass _) | e@(.record _) | e@(.module _) => preambleEvent e
  | e => next e

def fieldEvent : ClassEvent → BuildM Unit
  | .signature s => onField fun f => { f with signature := some s }
  | .annotate visible a => onField fun f => { f with annotations := .ofClassFile visible a :: f.annotations }
  | .annotateType visible a => do
    let a ← typeAnnotated visible a
    onField fun f => { f with typeAnnotations := a :: f.typeAnnotations }
  | .deprecated => onField fun f => { f with deprecated := true }
  | .synthetic => onField fun f => { f with synthetic := true }
  | e => next e

def methodEvent : ClassEvent → BuildM Unit
  | .signature s => onMethod fun m => { m with signature := some s }
  | .annotate visible a => onMethod fun m => { m with annotations := .ofClassFile visible a :: m.annotations }
  | .annotateType visible a => do
    let a ← typeAnnotated visible a
    onMethod fun m => { m with typeAnnotations := a :: m.typeAnnotations }
  | .deprecated => onMethod fun m => { m with deprecated := true }
  | .synthetic => onMethod fun m => { m with synthetic := true }
  | .parameter name access => onMethod fun m => { m with parameters := { name, access } :: m.parameters }
  | .annotableParameterCount count visible => onMethod fun m =>
    if visible then { m with visibleAnnotable := some count } else { m with invisibleAnnotable := some count }
  | .annotateParameter index visible a => annotateParameter index visible a
  | .annotationDefault value => onMethod fun m => { m with annotationDefault := some (.ofElement value) }
  | .code e => code e
  | e => next e

def accept (e : ClassEvent) : BuildM Unit := do
  match (← get).stage, e with
  | .awaitingClass, .header h => start h
  | .inClass false, e => classEvent e
  | .inClass true, e => fieldEvent e
  | .inMethod, e => methodEvent e
  | _, e => unexpected e

/-! ## The model -/

def orderField (f : Model.Field) : Model.Field :=
  { f with annotations := f.annotations.reverse, typeAnnotations := f.typeAnnotations.reverse }

def orderParameter (p : Model.Parameter) : Model.Parameter := { p with annotations := p.annotations.reverse }

def orderMethod (m : Model.Method) : Model.Method :=
  { m with
    annotations := m.annotations.reverse
    typeAnnotations := m.typeAnnotations.reverse
    parameters := m.parameters.reverse.map orderParameter
    entries := m.entries.reverse
    localVariables := m.localVariables.reverse }

def orderClass (c : ClassModel) : ClassModel :=
  { c with
    nestMembers := c.nestMembers.reverse
    permittedSubclasses := c.permittedSubclasses.reverse
    innerClasses := c.innerClasses.reverse
    annotations := c.annotations.reverse
    typeAnnotations := c.typeAnnotations.reverse
    fields := c.fields.reverse.map orderField
    methods := c.methods.reverse.map orderMethod }

def finish (b : ModelBuilder) : Except Fault ClassModel :=
  if b.stage = .closed then .ok (orderClass b.model) else .error (.violation (.eventsEnded b.stage))

end ModelBuilder

def buildModel (events : List ClassEvent) : Except Fault ClassModel :=
  match (events.forM ModelBuilder.accept) {} with
  | .ok () b => b.finish
  | .error f _ => .error f

end ClassDoc
