/-
  What a builder makes of events.
-/
import ClassDoc.Proofs.ClassFile.Elements
import ClassDoc.Proofs.Model.Emit
import ClassDoc.Proofs.Model.Numbering
namespace ClassDoc

namespace ClassEvent

def typeAnnotation? : ClassEvent → Option (Bool × TypeAnnotation Label)
  | code e => Body.annotatedType? e
  | annotateType visible a => some (visible, a)
  | _ => none

def isParameter : ClassEvent → Bool
  | parameter _ _ | annotateParameter _ _ _ => true
  | _ => false

end ClassEvent

namespace Model

def typesOf (g : Label → Label) (events : List ClassEvent) : List TypeAnnotation :=
  events.filterMap fun e => e.typeAnnotation?.bind fun a =>
    Except.toOption <| TypeAnnotation.ofClassFile a.1 (a.2.map g)

/-- What the events of a method say about it, its parameters aside. -/
def Method.ofEvents (header : MethodHeader) (g : Label → Label) (events : List ClassEvent) : Method where
  name := header.name
  descriptor := header.descriptor
  access := header.access
  exceptions := header.exceptions
  signature := Element.signature events
  visibleAnnotable := Element.annotableParameters true events
  invisibleAnnotable := Element.annotableParameters false events
  deprecated := Element.deprecated events
  synthetic := Element.synthetic events
  annotations := (Element.annotations events).map fun a => .ofClassFile a.1 a.2
  typeAnnotations := typesOf g events
  annotationDefault := (Element.annotationDefault events).map .ofElement
  entries := (Element.code events).filterMap fun e => (e.map g).inBody?
  localVariables := (Element.code events).filterMap fun e => Body.localVariable? (e.map g)
  maxStack := ((Element.code events).filterMap Body.maxs?).getLast?.map Prod.fst
  maxLocals := ((Element.code events).filterMap Body.maxs?).getLast?.map Prod.snd

def Method.add (m : Method) (g : Label → Label) : ClassEvent → Method
  | .signature s => { m with signature := some s }
  | .annotableParameterCount count true => { m with visibleAnnotable := some count }
  | .annotableParameterCount count false => { m with invisibleAnnotable := some count }
  | .deprecated => { m with deprecated := true }
  | .synthetic => { m with synthetic := true }
  | .annotate visible a => { m with annotations := m.annotations ++ [.ofClassFile visible a] }
  | .annotateType visible a =>
    { m with typeAnnotations := m.typeAnnotations
        ++ Option.toList (Except.toOption <| TypeAnnotation.ofClassFile visible (a.map g)) }
  | .annotationDefault value => { m with annotationDefault := some (.ofElement value) }
  | .code e =>
    { m with
      entries := m.entries ++ (e.map g).inBody?.toList
      localVariables := m.localVariables ++ (Body.localVariable? (e.map g)).toList
      typeAnnotations := m.typeAnnotations ++ ((Body.annotatedType? e).bind fun a =>
        Except.toOption <| TypeAnnotation.ofClassFile a.1 (a.2.map g)).toList
      maxStack := ((Body.maxs? e).map Prod.fst).or m.maxStack
      maxLocals := ((Body.maxs? e).map Prod.snd).or m.maxLocals }
  | _ => m

theorem filterMap_concat {α β : Type} (f : α → Option β) (xs : List α) (x : α) :
    (xs ++ [x]).filterMap f = xs.filterMap f ++ (f x).toList := by
  rw [List.filterMap_append]
  cases h : f x <;> simp [h]

theorem Method.ofEvents_concat (header : MethodHeader) (g : Label → Label) (events : List ClassEvent) (e : ClassEvent) :
    ofEvents header g (events ++ [e]) = (ofEvents header g events).add g e := by
  simp only [ofEvents, typesOf, Element.signature, Element.annotableParameters, Element.deprecated, Element.synthetic,
    Element.annotations, Element.annotationDefault, Element.code, filterMap_concat, List.any_append, List.any_cons,
    List.any_nil, Bool.or_false]
  cases e with
  | code e =>
    simp only [Option.toList_some, filterMap_concat]
    cases e <;> simp [add, ClassEvent.typeAnnotation?, Body.maxs?]
  | annotableParameterCount count visible => cases visible <;> simp [add, ClassEvent.typeAnnotation?]
  | _ => simp [add, ClassEvent.typeAnnotation?]

end Model

namespace ModelBuilder

open Model

def inMethod (c : ClassModel) (m : Method) (n : Label.Numbering) : ModelBuilder :=
  ⟨.inMethod, { c with methods := m :: c.methods }, n⟩

variable {c : ClassModel} {m : Method} {n : Label.Numbering} {e : ClassEvent} {b : ModelBuilder} {header : MethodHeader}
  {events : List ClassEvent}

theorem accept_inMethod (e : ClassEvent) : accept e (inMethod c m n) = methodEvent e (inMethod c m n) := by
  cases e <;> rfl

def soFar (m : Method) : Method := { orderMethod m with parameters := [] }

theorem renumber_run {α : Type} (x : StateM Label.Numbering α) (b : ModelBuilder) :
    renumber x b = .ok (x b.labels).1 { b with labels := (x b.labels).2 } := rfl

variable {a : ClassDoc.TypeAnnotation Label} {visible : Bool} {t : Model.TypeAnnotation}

theorem typeAnnotated_eq_ok {b' : ModelBuilder} : typeAnnotated visible a b = .ok t b' ↔
      Model.TypeAnnotation.ofClassFile visible (a.mapLabels Label.Numbering.get b.labels).1 = .ok t ∧
        b' = { b with labels := (a.mapLabels Label.Numbering.get b.labels).2 } := by
  constructor
  · intro h
    obtain ⟨a', r, hr, h⟩ := run_bind_eq_ok.1 h
    rw [renumber_run] at hr
    cases hr
    obtain ⟨ht, rfl⟩ := run_lift_eq_ok.1 h
    exact ⟨ht, rfl⟩
  · rintro ⟨ht, rfl⟩
    exact run_bind_eq_ok.2 ⟨_, _, renumber_run _ b, run_lift_eq_ok.2 ⟨ht, rfl⟩⟩

/-- What the event does to a method and to the numbering of labels. -/
structure Adds (e : ClassEvent) (m : Method) (n : Label.Numbering) (m' : Method) (n' : Label.Numbering) : Prop where
  met : ∀ ls, n.Met ls → n'.Met (ls ++ e.labels)
  method : ∀ ls g, n.Met ls → (∀ l ∈ ls ++ e.labels, g l = Label.renumber (ls ++ e.labels) l) →
    soFar m' = (soFar m).add g e

theorem adds_of_numbers {α : Type} {x : StateM Label.Numbering α} {f : (Label → Label) → α} (hx : Numbers x e.labels f)
    (m' : α → Method) (hm : ∀ g, soFar (m' (f g)) = (soFar m).add g e) : Adds e m n (m' (x n).1) (x n).2 := by
  constructor
  · exact fun ls h => (hx n ls h).1
  · intro ls g h hg
    rw [(hx n ls h).2 g hg, hm g]

theorem adds_entry {e : CodeEvent} {x : StateM Label.Numbering MethodEntry} {f : (Label → Label) → MethodEntry}
    (hx : Numbers x e.labels f) (hf : ∀ g, (e.map g).inBody? = some (f g)) :
    Adds (.code e) m n { m with entries := (x n).1 :: m.entries } (x n).2 := by
  refine adds_of_numbers (e := .code e) hx (fun entry => { m with entries := entry :: m.entries }) fun g => ?_
  have hf := hf g
  cases e with
  | localVariable | annotateType | maxs => cases hf
  | _ =>
    simp [soFar, orderMethod, Method.add, hf]
    simp [CodeEvent.map, Body.localVariable?, Body.annotatedType?, Body.maxs?]

theorem adds_types (hl : e.labels = a.target.labels)
    (ht : Model.TypeAnnotation.ofClassFile visible (a.mapLabels Label.Numbering.get n).1 = .ok t)
    (he : ∀ g, (soFar m).add g e = { soFar m with
      typeAnnotations := (soFar m).typeAnnotations
        ++ Option.toList (Except.toOption <| Model.TypeAnnotation.ofClassFile visible (a.map g)) }) :
    Adds e m n { m with typeAnnotations := t :: m.typeAnnotations } (a.mapLabels Label.Numbering.get n).2 := by
  have hx := numbers_typeAnnotated a
  constructor
  · intro ls h
    rw [hl]
    exact (hx n ls h).1
  · intro ls g h hg
    rw [hl] at hg
    rw [(hx n ls h).2 g hg] at ht
    rw [he, ht]
    simp [soFar, orderMethod, Except.toOption]

theorem code_inMethod (e : CodeEvent) : code e (inMethod c m n) = addCode e (inMethod c m n) := rfl

theorem code_step {e : CodeEvent} (h : code e (inMethod c m n) = .ok () b) :
    ∃ m' n', b = inMethod c m' n' ∧ (∀ c', code e (inMethod c' m n) = .ok () (inMethod c' m' n')) ∧
      Adds (.code e) m n m' n' ∧ m'.parameters = m.parameters := by
  simp only [code_inMethod] at h ⊢
  cases e with
  | tryCatch t =>
    have hx : Numbers (do
        let start ← Label.Numbering.get t.start
        let stop ← Label.Numbering.get t.stop
        let handler ← Label.Numbering.get t.handler
        return MethodEntry.tryCatch ⟨start, stop, handler, t.catchType⟩) [t.start, t.stop, t.handler]
          fun g => .tryCatch ⟨g t.start, g t.stop, g t.handler, t.catchType⟩ :=
      (Numbers.get t.start).bind fun _ => (Numbers.get t.stop).bind fun _ => (Numbers.get t.handler).map
    cases h
    exact ⟨_, _, rfl, fun _ => rfl, adds_entry (e := .tryCatch t) hx fun _ => rfl, rfl⟩
  | label l =>
    cases h
    exact ⟨_, _, rfl, fun _ => rfl,
      adds_entry (e := .label l) ((Numbers.get l).map (h := MethodEntry.label)) fun _ => rfl, rfl⟩
  | lineNumber line l =>
    cases h
    exact ⟨_, _, rfl, fun _ => rfl, adds_entry (e := .lineNumber line l)
      ((Numbers.get l).map (h := MethodEntry.line line)) fun _ => rfl,
      rfl⟩
  | frame f =>
    cases h
    exact ⟨_, _, rfl, fun _ => rfl,
      adds_entry (e := .frame f) ((numbers_frame f).map (h := MethodEntry.frame)) fun _ => rfl, rfl⟩
  | insn i =>
    cases h
    exact ⟨_, _, rfl, fun _ => rfl, adds_entry (e := .insn i) ((numbers_insn i).map (h := fun i => .instruction (.ofInsn i)))
      fun _ => rfl, rfl⟩
  | localVariable v =>
    have hx : Numbers (do
        let start ← Label.Numbering.get v.start
        let stop ← Label.Numbering.get v.stop
        return { v with start, stop }) [v.start, v.stop] fun g => { v with start := g v.start, stop := g v.stop } :=
      (Numbers.get v.start).bind fun _ => (Numbers.get v.stop).map
    cases h
    refine ⟨_, _, rfl, fun _ => rfl, adds_of_numbers (e := .code (.localVariable v)) hx
      (fun v => { m with localVariables := v :: m.localVariables }) fun g => ?_, rfl⟩
    simp [soFar, orderMethod, Method.add, CodeEvent.map, CodeEvent.inBody?, Body.localVariable?,
      Body.annotatedType?, Body.maxs?]
  | annotateType visible a =>
    obtain ⟨t, r, hr, h⟩ := run_bind_eq_ok.1 h
    obtain ⟨ht, rfl⟩ := typeAnnotated_eq_ok.1 hr
    cases h
    refine ⟨_, _, rfl, fun _ => run_bind_eq_ok.2 ⟨t, _, typeAnnotated_eq_ok.2 ⟨ht, rfl⟩, rfl⟩,
      adds_types (e := .code (.annotateType visible a)) rfl ht fun g => ?_, rfl⟩
    simp [Method.add, CodeEvent.map, CodeEvent.inBody?, Body.localVariable?, Body.annotatedType?, Body.maxs?]
  | maxs maxStack maxLocals =>
    cases h
    refine ⟨_, _, rfl, fun _ => rfl, adds_of_numbers (e := .code (.maxs maxStack maxLocals)) (Numbers.pure ())
      (fun _ => { m with maxStack := some maxStack, maxLocals := some maxLocals }) fun g => ?_, rfl⟩
    simp [soFar, orderMethod, Method.add, CodeEvent.map, CodeEvent.inBody?, Body.localVariable?,
      Body.annotatedType?, Body.maxs?]

def madeParameters (m : Method) : Except Fault (List Parameter) :=
  if m.parameters.isEmpty then (argumentCount m).map fun count => List.replicate count {} else .ok m.parameters

theorem makeParameters_run (c : ClassModel) (m : Method) (n : Label.Numbering) :
    makeParameters (inMethod c m n) = match madeParameters m with
      | .ok ps => .ok () (inMethod c { m with parameters := ps } n)
      | .error f => .error f (inMethod c m n) := by
  have hl : makeParameters (inMethod c m n) = (if m.parameters.isEmpty then do
      let count ← argumentCount m
      onMethod fun m => { m with parameters := List.replicate count {} }
    else pure () : BuildM Unit) (inMethod c m n) := rfl
  rw [hl, madeParameters]
  by_cases he : m.parameters.isEmpty = true
  · rw [if_pos he, if_pos he]
    cases argumentCount m <;> rfl
  · rw [if_neg he, if_neg he]
    rfl

def annotated (visible : Bool) (a : ClassDoc.Annotation) (p : Parameter) : Parameter :=
  { p with annotations := .ofClassFile visible a :: p.annotations }

theorem annotateParameter_eq_ok {index : UInt8} {a : ClassDoc.Annotation} :
    annotateParameter index visible a (inMethod c m n) = .ok () b ↔
      ∃ i ps, annotatedIndex m index visible = .ok i ∧ madeParameters m = .ok ps ∧ i.toNat < ps.length ∧
        b = inMethod c { m with parameters := ps.modify (ps.length - 1 - i.toNat) (annotated visible a) } n := by
  have hl : ∀ m, lastMethod (inMethod c m n) = .ok m (inMethod c m n) := fun _ => rfl
  constructor
  · intro h
    obtain ⟨m', r, hm, h⟩ := run_bind_eq_ok.1 h
    rw [hl] at hm
    cases hm
    obtain ⟨i, r, hr, h⟩ := run_bind_eq_ok.1 h
    obtain ⟨hi, rfl⟩ := run_lift_eq_ok.1 hr
    obtain ⟨_, r, hp, h⟩ := run_bind_eq_ok.1 h
    rw [makeParameters_run] at hp
    split at hp
    next ps hps =>
      cases hp
      obtain ⟨m', r, hm, h⟩ := run_bind_eq_ok.1 h
      rw [hl] at hm
      cases hm
      split at h
      next hlt =>
        cases h
        exact ⟨i, ps, hi, hps, hlt, rfl⟩
      next => cases h
    next => cases hp
  · rintro ⟨i, ps, hi, hps, hlt, rfl⟩
    refine run_bind_eq_ok.2 ⟨m, _, hl m, run_bind_eq_ok.2 ⟨i, _, run_lift_eq_ok.2 ⟨hi, rfl⟩, run_bind_eq_ok.2 ⟨(), _, ?_,
      run_bind_eq_ok.2 ⟨_, _, hl { m with parameters := ps }, ?_⟩⟩⟩⟩
    · rw [makeParameters_run, hps]
    · rw [if_pos hlt]
      rfl

/-- **Each event inside of a method adds what it says.** -/
theorem method_step (he : e.isInMethod = true) (h : accept e (inMethod c m n) = .ok () b) :
    ∃ m' n', b = inMethod c m' n' ∧ (∀ c', accept e (inMethod c' m n) = .ok () (inMethod c' m' n')) ∧
      Adds e m n m' n' ∧ (e.isParameter = false → m'.parameters = m.parameters) := by
  simp only [accept_inMethod] at h ⊢
  have hplain : ∀ {m' : Method}, e.labels = [] → (∀ g, soFar m' = (soFar m).add g e) → Adds e m n m' n := by
    intro m' hl hm
    refine ⟨fun ls hls => ?_, fun ls g _ _ => hm g⟩
    rwa [hl, List.append_nil]
  cases e with
  | signature s =>
    cases h
    exact ⟨_, _, rfl, fun _ => rfl, hplain rfl fun g => rfl, fun _ => rfl⟩
  | annotate visible a =>
    cases h
    exact ⟨_, _, rfl, fun _ => rfl, hplain rfl fun g => by simp [soFar, orderMethod, Method.add], fun _ => rfl⟩
  | annotateType visible a =>
    obtain ⟨t, r, hr, h⟩ := run_bind_eq_ok.1 h
    obtain ⟨ht, rfl⟩ := typeAnnotated_eq_ok.1 hr
    cases h
    exact ⟨_, _, rfl, fun _ => run_bind_eq_ok.2 ⟨t, _, typeAnnotated_eq_ok.2 ⟨ht, rfl⟩, rfl⟩,
      adds_types (e := .annotateType visible a) rfl ht fun g => rfl, fun _ => rfl⟩
  | deprecated =>
    cases h
    exact ⟨_, _, rfl, fun _ => rfl, hplain rfl fun g => rfl, fun _ => rfl⟩
  | synthetic =>
    cases h
    exact ⟨_, _, rfl, fun _ => rfl, hplain rfl fun g => rfl, fun _ => rfl⟩
  | parameter name access =>
    cases h
    exact ⟨_, _, rfl, fun _ => rfl, hplain rfl fun g => rfl, fun he => by cases he⟩
  | annotableParameterCount count visible =>
    cases h
    cases visible
    · exact ⟨_, _, rfl, fun _ => rfl, hplain rfl fun g => rfl, fun _ => rfl⟩
    · exact ⟨_, _, rfl, fun _ => rfl, hplain rfl fun g => rfl, fun _ => rfl⟩
  | annotateParameter index visible a =>
    obtain ⟨i, ps, hi, hps, hlt, rfl⟩ := annotateParameter_eq_ok.1 h
    exact ⟨_, _, rfl, fun _ => annotateParameter_eq_ok.2 ⟨i, ps, hi, hps, hlt, rfl⟩, hplain rfl fun g => rfl,
      fun he => by cases he⟩
  | annotationDefault value =>
    cases h
    exact ⟨_, _, rfl, fun _ => rfl, hplain rfl fun g => rfl, fun _ => rfl⟩
  | code e =>
    obtain ⟨m', n', hb, hc, ha, hp⟩ := code_step h
    exact ⟨m', n', hb, hc, ha, fun _ => hp⟩
  | _ => cases he

end ModelBuilder

end ClassDoc
