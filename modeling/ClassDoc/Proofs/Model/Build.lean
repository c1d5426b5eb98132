/-
  What a builder makes of the events of an element.
-/
import ClassDoc.Proofs.Model.Builder
namespace ClassDoc

open List

open Model

/-! ## Events that models can say -/

def Model.RecordComponent.ofClassFile (c : ClassDoc.RecordComponent) : Except Fault Model.RecordComponent := do
  let typeAnnotations ← c.typeAnnotations.mapM fun a => Model.TypeAnnotation.ofClassFile a.1 a.2
  return ⟨c.name, c.descriptor, c.signature, c.annotations.map fun a => .ofClassFile a.1 a.2, typeAnnotations⟩

/-- Types are annotated along paths that there are. -/
def ClassEvent.Readable : ClassEvent → Prop
  | annotateType visible a | code (.annotateType visible a) => ∃ t, Model.TypeAnnotation.ofClassFile visible a = .ok t
  | record components => ∃ rs, components.mapM Model.RecordComponent.ofClassFile = .ok rs
  | _ => True

namespace ModelBuilder

variable {c : ClassModel} {m m' m'' : Method} {n n' n'' : Label.Numbering} {e : ClassEvent} {b : ModelBuilder}
  {events : List ClassEvent} {a : ClassDoc.TypeAnnotation Label} {visible : Bool} {ps : List Parameter} {count i : Nat}

/-! ## Methods -/

/-- What the events do to a method and to the numbering of labels. -/
structure AddsAll (events : List ClassEvent) (m : Method) (n : Label.Numbering) (m' : Method) (n' : Label.Numbering) :
    Prop where
  met : ∀ ls, n.Met ls → n'.Met (ls ++ events.flatMap ClassEvent.labels)
  method : ∀ ls g, n.Met ls → (∀ l ∈ ls ++ events.flatMap ClassEvent.labels,
    g l = Label.renumber (ls ++ events.flatMap ClassEvent.labels) l) →
    soFar m' = events.foldl (fun m e => m.add g e) (soFar m)

theorem AddsAll.nil : AddsAll [] m n m n where
  met ls h := by simpa using h
  method _ _ _ _ := rfl

theorem AddsAll.cons (h : Adds e m n m' n') (h' : AddsAll events m' n' m'' n'') : AddsAll (e :: events) m n m'' n'' := by
  constructor
  · intro ls hls
    rw [flatMap_cons, ← append_assoc]
    exact h'.met _ (h.met ls hls)
  · intro ls g hls hg
    rw [flatMap_cons, ← append_assoc] at hg
    rw [h'.method _ g (h.met ls hls) hg, foldl_cons, h.method ls g hls fun l hl => ?_]
    rw [hg l (mem_append_left _ hl), Label.renumber_append hl]

/-- **What is built from events of a method is what they say.** -/
theorem method_run (he : ∀ e ∈ events, e.isInMethod = true) (h : events.forM accept (inMethod c m n) = .ok () b) :
    ∃ m' n', b = inMethod c m' n' ∧ (∀ c', events.forM accept (inMethod c' m n) = .ok () (inMethod c' m' n')) ∧
      AddsAll events m n m' n' ∧ ((∀ e ∈ events, e.isParameter = false) → m'.parameters = m.parameters) := by
  induction events generalizing m n with
  | nil =>
    cases h
    exact ⟨m, n, rfl, fun _ => rfl, .nil, fun _ => rfl⟩
  | cons e events ih =>
    rw [forall_mem_cons] at he
    obtain ⟨r, h1, h2⟩ := run_forM_cons.1 h
    obtain ⟨m₁, n₁, rfl, hc, ha, hp⟩ := method_step he.1 h1
    obtain ⟨m', n', rfl, hc', ha', hp'⟩ := ih he.2 h2
    refine ⟨m', n', rfl, fun c' => run_forM_cons.2 ⟨_, hc c', hc' c'⟩, .cons ha ha', fun hn => ?_⟩
    rw [forall_mem_cons] at hn
    rw [hp' hn.2, hp hn.1]

theorem ofEvents_eq_foldl (header : MethodHeader) (g : Label → Label) (events : List ClassEvent) :
    Method.ofEvents header g events = events.foldl (fun m e => m.add g e) (Method.ofEvents header g []) := by
  induction events using List.reverseRecOn with
  | nil => rfl
  | append_singleton events e ih => rw [Method.ofEvents_concat, ih, foldl_append]; rfl

theorem typeAnnotated_accepts (h : ∃ t, Model.TypeAnnotation.ofClassFile visible a = .ok t) (b : ModelBuilder) :
    ∃ t b', typeAnnotated visible a b = .ok t b' ∧ b' = { b with labels := b'.labels } := by
  have hp : (a.mapLabels Label.Numbering.get b.labels).1.path = a.path := rfl
  have ht : ∃ t, Model.TypeAnnotation.ofClassFile visible (a.mapLabels Label.Numbering.get b.labels).1 = .ok t := by
    simpa [bind_eq_ok, Model.TypeAnnotation.ofClassFile, hp] using h
  obtain ⟨t, ht⟩ := ht
  exact ⟨t, _, run_bind_eq_ok.2 ⟨_, _, renumber_run _ b, run_lift_eq_ok.2 ⟨ht, rfl⟩⟩, rfl⟩

theorem method_accepts (he : e.isInMethod = true) (hp : e.isParameter = false) (hr : e.Readable) :
    ∃ b, accept e (inMethod c m n) = .ok () b := by
  rw [accept_inMethod]
  cases e with
  | annotateParameter | parameter => cases hp
  | annotateType visible a =>
    obtain ⟨t, b', hb, hb'⟩ := typeAnnotated_accepts hr (inMethod c m n)
    rw [hb'] at hb
    exact ⟨_, run_bind_eq_ok.2 ⟨t, _, hb, rfl⟩⟩
  | code e =>
    cases e with
    | annotateType visible a =>
      obtain ⟨t, b', hb, hb'⟩ := typeAnnotated_accepts hr (inMethod c m n)
      rw [hb'] at hb
      exact ⟨_, (code_inMethod _).trans (run_bind_eq_ok.2 ⟨t, _, hb, rfl⟩)⟩
    | _ => exact ⟨_, rfl⟩
  | signature | annotate | deprecated | synthetic | annotableParameterCount | annotationDefault => exact ⟨_, rfl⟩
  | _ => cases he

theorem method_run_accepts (he : ∀ e ∈ events, e.isInMethod = true ∧ e.isParameter = false ∧ e.Readable)
    (c : ClassModel) (m : Method) (n : Label.Numbering) :
    ∃ m' n', events.forM accept (inMethod c m n) = .ok () (inMethod c m' n') ∧ m'.parameters = m.parameters := by
  induction events generalizing m n with
  | nil => exact ⟨m, n, rfl, rfl⟩
  | cons e events ih =>
    rw [forall_mem_cons] at he
    obtain ⟨⟨hm, hp, hr⟩, he⟩ := he
    obtain ⟨b, hb⟩ := method_accepts (c := c) (m := m) (n := n) hm hp hr
    obtain ⟨m₁, n₁, rfl, -, -, h1⟩ := method_step hm hb
    obtain ⟨m', n', h, h2⟩ := ih he m₁ n₁
    exact ⟨m', n', run_forM_cons.2 ⟨_, hb, h⟩, h2.trans (h1 hp)⟩

/-! ### Parameters -/

theorem parameter_run (ps : List (Option String × UInt16)) :
    (ps.map fun p => ClassEvent.parameter p.1 p.2).forM accept (inMethod c m n) =
      .ok () (inMethod c { m with parameters := (ps.map fun p => { name := p.1, access := p.2 }).reverse ++ m.parameters } n)
      := by
  induction ps generalizing m with
  | nil => rfl
  | cons p ps ih =>
    rw [map_cons, run_forM_cons]
    refine ⟨inMethod c { m with parameters := { name := p.1, access := p.2 } :: m.parameters } n, rfl, ?_⟩
    rw [ih]
    simp

def annotateAll (visible : Bool) (as : List (Nat × ClassDoc.Annotation)) (ps : List Parameter) : List Parameter :=
  ps.mapIdx fun index p => { p with
    annotations := p.annotations ++ (as.filter fun a => a.1 == index).map fun a => .ofClassFile visible a.2 }

theorem annotateAll_nil (visible : Bool) (ps : List Parameter) : annotateAll visible [] ps = ps := by
  refine ext_getElem? fun index => ?_
  rw [annotateAll, getElem?_mapIdx]
  cases ps[index]? with
  | none => rfl
  | some p => simp

theorem length_annotateAll (visible : Bool) (as : List (Nat × ClassDoc.Annotation)) (ps : List Parameter) :
    (annotateAll visible as ps).length = ps.length := by
  simp [annotateAll]

theorem annotateAll_modify (visible : Bool) (a : Nat × ClassDoc.Annotation) (as : List (Nat × ClassDoc.Annotation))
    (ps : List Parameter) : annotateAll visible as (ps.modify a.1 fun p =>
      { p with annotations := p.annotations ++ [.ofClassFile visible a.2] }) = annotateAll visible (a :: as) ps := by
  refine ext_getElem? fun index => ?_
  simp only [annotateAll, getElem?_mapIdx, getElem?_modify]
  cases ps[index]? with
  | none => rfl
  | some p =>
    by_cases h : a.1 = index
    · simp [h]
    · simp [h]

def parametersOf (m : Method) : List Parameter := (orderMethod m).parameters

theorem parametersOf_congr {m m' : Method} (h : m.parameters = m'.parameters) : parametersOf m = parametersOf m' := by
  rw [parametersOf, parametersOf, orderMethod, orderMethod, h]

theorem reverse_modify {α : Type} (f : α → α) (xs : List α) (h : i < xs.length) :
    (xs.modify (xs.length - 1 - i) f).reverse = xs.reverse.modify i f := by
  refine ext_getElem? fun j => ?_
  by_cases hj : j < xs.length
  · rw [getElem?_reverse (by simpa using hj), getElem?_modify, getElem?_modify, length_modify,
      getElem?_reverse hj]
    have hi : xs.length - 1 - i = xs.length - 1 - j ↔ i = j := by omega
    simp only [hi]
  · rw [getElem?_eq_none (by simpa using hj), getElem?_eq_none (by simpa using hj)]

def Stands (count : Nat) (m : Method) (ps : List Parameter) : Prop :=
  parametersOf m = ps ∨ parametersOf m = [] ∧ ps = List.replicate count {}

theorem Stands.made (h : Stands count m ps) (hc : argumentCount m = .ok count)
    (hl : ps.length = count) : ∃ qs, madeParameters m = .ok qs ∧ qs.reverse.map orderParameter = ps := by
  have hr : (List.replicate count ({} : Parameter)).reverse.map orderParameter = List.replicate count {} := by
    rw [reverse_replicate, map_replicate]
    rfl
  have he : parametersOf m = [] ↔ m.parameters.isEmpty = true := by simp [parametersOf, orderMethod]
  unfold madeParameters
  by_cases hm : m.parameters.isEmpty = true
  · rw [if_pos hm, hc]
    refine ⟨List.replicate count {}, rfl, hr.trans ?_⟩
    rcases h with h | h
    · have hp : ps = [] := h ▸ he.2 hm
      have h0 : count = 0 := by rw [← hl, hp]; rfl
      rw [hp, h0]
      rfl
    · exact h.2.symm
  · rw [if_neg hm]
    refine ⟨m.parameters, rfl, ?_⟩
    rcases h with h | h
    · exact h
    · exact absurd (he.1 h.1) hm

theorem parametersOf_annotated {qs : List Parameter} (a : ClassDoc.Annotation) (h : i < qs.length) :
    parametersOf { m with parameters := qs.modify (qs.length - 1 - i) (annotated visible a) } =
      (qs.reverse.map orderParameter).modify i fun p =>
        { p with annotations := p.annotations ++ [.ofClassFile visible a] } := by
  change (List.reverse _).map orderParameter = _
  rw [reverse_modify _ _ h]
  refine ext_getElem? fun j => ?_
  simp only [getElem?_map, getElem?_modify]
  cases qs.reverse[j]? with
  | none => rfl
  | some q =>
    by_cases hj : i = j
    · simp [hj, annotated, orderParameter]
    · simp [hj]

theorem annotate_step {index : UInt8} {a : ClassDoc.Annotation}
    (hs : Stands count m ps) (hc : argumentCount m = .ok count) (hl : ps.length = count)
    (hi : annotatedIndex m index visible = .ok (UInt8.ofNat i)) (h256 : i < 256) (hlt : i < count) :
    ∃ m', accept (.annotateParameter index visible a) (inMethod c m n) = .ok () (inMethod c m' n) ∧
      (∃ qs, m' = { m with parameters := qs }) ∧
      parametersOf m' = ps.modify i fun p => { p with annotations := p.annotations ++ [.ofClassFile visible a] } := by
  obtain ⟨qs, hq, rfl⟩ := hs.made hc hl
  have hn : (UInt8.ofNat i).toNat = i := by simpa using Nat.mod_eq_of_lt h256
  have hlen : i < qs.length := by simpa [← hl] using hlt
  exact ⟨_, annotateParameter_eq_ok.2 ⟨_, qs, hi, hq, by rwa [hn], rfl⟩, ⟨_, rfl⟩, by rw [hn, parametersOf_annotated a hlen]⟩

/-- **Annotations come to the parameters with their numbers.** -/
theorem annotate_run (visible : Bool) (index : Nat → UInt8) (as : List (Nat × ClassDoc.Annotation))
    (hs : Stands count m ps) (hc : argumentCount m = .ok count) (hl : ps.length = count)
    (hi : ∀ a ∈ as, annotatedIndex m (index a.1) visible = .ok (UInt8.ofNat a.1) ∧ a.1 < 256 ∧ a.1 < count) :
    ∃ m', (as.map fun a => ClassEvent.annotateParameter (index a.1) visible a.2).forM accept (inMethod c m n) =
        .ok () (inMethod c m' n) ∧ (∃ qs, m' = { m with parameters := qs }) ∧
      parametersOf m' = if as = [] then parametersOf m else annotateAll visible as ps := by
  induction as generalizing m ps with
  | nil => exact ⟨m, rfl, ⟨_, rfl⟩, rfl⟩
  | cons a as ih =>
    rw [forall_mem_cons] at hi
    obtain ⟨m₁, h1, ⟨qs, rfl⟩, hp⟩ := annotate_step (c := c) (n := n) (a := a.2) hs hc hl hi.1.1 hi.1.2.1 hi.1.2.2
    obtain ⟨m', h2, ⟨qs', rfl⟩, hp'⟩ := ih (m := { m with parameters := qs }) (.inl hp) hc (by simpa using hl) hi.2
    refine ⟨_, run_forM_cons.2 ⟨_, h1, h2⟩, ⟨qs', rfl⟩, ?_⟩
    rw [hp', if_neg (cons_ne_nil a as), ← annotateAll_modify]
    split
    next h0 => rw [hp, h0, annotateAll_nil]
    next => rfl

/-! ## What has no labels -/

theorem mapLabels_none (h : a.target.labels = []) (n : Label.Numbering) :
    a.mapLabels Label.Numbering.get n = (a, n) := by
  obtain ⟨t, target, path, base⟩ := a
  cases target with
  | localVariable rs =>
    cases rs with
    | nil => rfl
    | cons => cases h
  | offset | typeArgument => cases h
  | _ => rfl

theorem typeAnnotated_none (h : a.target.labels = []) :
    typeAnnotated visible a = (liftM <| Model.TypeAnnotation.ofClassFile visible a) := by
  funext b
  have hr : typeAnnotated visible a b = (liftM <| Model.TypeAnnotation.ofClassFile visible
      (a.mapLabels Label.Numbering.get b.labels).1 : BuildM _) { b with
        labels := (a.mapLabels Label.Numbering.get b.labels).2 } := rfl
  rw [hr, mapLabels_none h]

theorem mapM_lift {α β σ : Type} {f : α → EStateM Fault σ β} {g : α → Except Fault β} {xs : List α}
    (h : ∀ x ∈ xs, f x = liftM (g x)) : xs.mapM f = liftM (xs.mapM g) := by
  induction xs with
  | nil => rfl
  | cons x xs ih =>
    rw [forall_mem_cons] at h
    rw [mapM_cons, mapM_cons, h.1, ih h.2]
    cases g x with
    | error => rfl
    | ok => cases xs.mapM g <;> rfl

theorem component_none {comp : ClassDoc.RecordComponent} (h : ∀ a ∈ comp.typeAnnotations, a.2.target.labels = []) :
    component comp = liftM (Model.RecordComponent.ofClassFile comp) := by
  have ht : comp.typeAnnotations.mapM (fun a => typeAnnotated a.1 a.2) = liftM
      (comp.typeAnnotations.mapM fun a => Model.TypeAnnotation.ofClassFile a.1 a.2) :=
    mapM_lift fun a ha => typeAnnotated_none (h a ha)
  change comp.typeAnnotations.mapM (fun a => typeAnnotated a.1 a.2) >>= _ = _
  rw [ht, Model.RecordComponent.ofClassFile]
  cases comp.typeAnnotations.mapM fun a => Model.TypeAnnotation.ofClassFile a.1 a.2 <;> rfl

def Step {σ S M : Type} (at_ : S → σ) (view : S → M) (result : M → M) (P : Prop) (x : EStateM Fault σ Unit) : Prop :=
  ∀ s, (P → ∃ s', x (at_ s) = .ok () (at_ s') ∧ view s' = result (view s)) ∧ ∀ t, x (at_ s) = .ok () t → P

theorem Step.run {σ S M E : Type} {accept : E → EStateM Fault σ Unit} {at_ : S → σ} {view : S → M} {add : M → E → M}
    {P : E → Prop} {events : List E} (step : ∀ e ∈ events, Step at_ view (add · e) (P e) (accept e)) :
    Step at_ view (events.foldl add) (∀ e ∈ events, P e) (events.forM accept) := by
  induction events with
  | nil => exact fun s => ⟨fun _ => ⟨s, rfl, rfl⟩, by simp⟩
  | cons e events ih =>
    rw [forall_mem_cons] at step
    simp only [Step, forall_mem_cons, run_forM_cons]
    refine fun s => ⟨fun hp => ?_, ?_⟩
    · obtain ⟨s₁, h1, hv⟩ := (step.1 s).1 hp.1
      obtain ⟨s', h2, hv'⟩ := (ih step.2 s₁).1 hp.2
      exact ⟨s', ⟨_, h1, h2⟩, by rw [hv', hv]; rfl⟩
    · rintro t ⟨r, h1, h2⟩
      have hp := (step.1 s).2 r h1
      obtain ⟨s₁, h1', -⟩ := (step.1 s).1 hp
      obtain rfl : r = at_ s₁ := by
        rw [h1] at h1'
        exact (EStateM.Result.ok.inj h1').2
      exact ⟨hp, (ih step.2 s₁).2 t h2⟩

end ModelBuilder

/-! ## Fields -/

def Model.Field.ofEvents (header : FieldHeader) (events : List ClassEvent) : Model.Field where
  name := header.name
  descriptor := header.descriptor
  access := header.access
  signature := Element.signature events
  value := header.value.map Operand.ofConstant
  deprecated := Element.deprecated events
  synthetic := Element.synthetic events
  annotations := (Element.annotations events).map fun a => .ofClassFile a.1 a.2
  typeAnnotations := typesOf (fun l => l) events

def Model.Field.add (f : Model.Field) : ClassEvent → Model.Field
  | .signature s => { f with signature := some s }
  | .deprecated => { f with deprecated := true }
  | .synthetic => { f with synthetic := true }
  | .annotate visible a => { f with annotations := f.annotations ++ [.ofClassFile visible a] }
  | .annotateType visible a =>
    { f with typeAnnotations := f.typeAnnotations
        ++ Option.toList (Except.toOption <| Model.TypeAnnotation.ofClassFile visible a) }
  | _ => f

variable {s : Elements} {c : ClassModel} {events : List ClassEvent}

theorem Model.Field.ofEvents_eq_foldl (header : FieldHeader)
    (h : ∀ e ∈ events, e.level = .element) : ofEvents header events = events.foldl add (ofEvents header []) := by
  induction events using List.reverseRecOn with
  | nil => rfl
  | append_singleton events e ih =>
    rw [forall_mem_append] at h
    rw [foldl_append, ← ih h.1]
    have he := h.2 e (by simp)
    simp only [ofEvents, typesOf, Element.signature, Element.deprecated, Element.synthetic, Element.annotations,
      filterMap_concat, any_append, any_cons, any_nil, Bool.or_false]
    cases e with
    | signature | deprecated | synthetic | annotate | annotateType =>
      simp [add, ClassEvent.typeAnnotation?, ClassDoc.TypeAnnotation.map_id]
    | _ => cases he

namespace ModelBuilder

def inField (c : ClassModel) (n : Label.Numbering) (f : Field) : ModelBuilder :=
  ⟨.inClass true, { c with fields := f :: c.fields }, n⟩

theorem field_step {n : Label.Numbering} {e : ClassEvent} (he : e.level = .element) (hl : e.labels = []) :
    Step (inField c n) orderField (·.add e) e.Readable (accept e) := by
  refine fun f => ⟨fun hr => ?_, fun b h => ?_⟩
  · cases e with
    | signature | deprecated | synthetic => exact ⟨_, rfl, rfl⟩
    | annotate => exact ⟨_, rfl, by simp [orderField, Field.add]⟩
    | annotateType visible a =>
      obtain ⟨t, ht⟩ := hr
      refine ⟨_, (run_bind_eq_ok (x := typeAnnotated visible a)).2 ⟨t, inField c n f, ?_, rfl⟩, ?_⟩
      · rw [typeAnnotated_none hl]
        exact run_lift_eq_ok.2 ⟨ht, rfl⟩
      · simp [orderField, Field.add, ht, Except.toOption]
    | _ => cases he
  · cases e with
    | annotateType visible a =>
      obtain ⟨t, r, hr, -⟩ := run_bind_eq_ok.1 (show (typeAnnotated visible a >>= _) _ = _ from h)
      rw [typeAnnotated_none hl] at hr
      exact ⟨t, (run_lift_eq_ok.1 hr).1⟩
    | signature | deprecated | synthetic | annotate => trivial
    | _ => cases he

end ModelBuilder

/-! ## Classes -/

/-- What the events of the class itself say about it. -/
def ClassModel.ofEvents (header : ClassHeader) (events : List ClassEvent) : ClassModel where
  name := header.name
  access := header.access
  version := header.version
  superClass := header.superClass
  interfaces := header.interfaces
  signature := Element.signature events
  sourceFile := (Element.source events).1
  sourceDebug := (Element.source events).2
  enclosingMethod := (Element.enclosingMethod events).map fun e =>
    ⟨e.1, e.2.1.bind fun name => e.2.2.map fun d => (name, d)⟩
  nestHost := Element.nestHost events
  nestMembers := Element.nestMembers events
  permittedSubclasses := Element.permittedSubclasses events
  innerClasses := Element.innerClasses events
  deprecated := Element.deprecated events
  synthetic := Element.synthetic events
  annotations := (Element.annotations events).map fun a => .ofClassFile a.1 a.2
  typeAnnotations := typesOf (fun l => l) events
  record := (Element.record events).map fun cs => (cs.mapM Model.RecordComponent.ofClassFile).toOption.getD []
  module := Element.module events

def ClassModel.add (c : ClassModel) : ClassEvent → ClassModel
  | .source file debug => { c with sourceFile := file, sourceDebug := debug }
  | .signature s => { c with signature := some s }
  | .enclosingMethod owner name descriptor =>
    { c with enclosingMethod := some ⟨owner, name.bind fun n => descriptor.map fun d => (n, d)⟩ }
  | .nestHost name => { c with nestHost := some name }
  | .nestMember name => { c with nestMembers := c.nestMembers ++ [name] }
  | .permittedSubclass name => { c with permittedSubclasses := c.permittedSubclasses ++ [name] }
  | .innerClass inner => { c with innerClasses := c.innerClasses ++ [inner] }
  | .deprecated => { c with deprecated := true }
  | .synthetic => { c with synthetic := true }
  | .annotate visible a => { c with annotations := c.annotations ++ [.ofClassFile visible a] }
  | .annotateType visible a =>
    { c with typeAnnotations := c.typeAnnotations
        ++ Option.toList (Except.toOption <| Model.TypeAnnotation.ofClassFile visible a) }
  | .record components =>
    { c with record := some ((components.mapM Model.RecordComponent.ofClassFile).toOption.getD []) }
  | .module m => { c with module := some m }
  | _ => c

theorem ClassModel.ofEvents_eq_foldl (header : ClassHeader)
    (h : ∀ e ∈ events, e.isInClass = true) : ofEvents header events = events.foldl add (ofEvents header []) := by
  induction events using List.reverseRecOn with
  | nil => rfl
  | append_singleton events e ih =>
    rw [forall_mem_append] at h
    rw [foldl_append, ← ih h.1]
    have he := h.2 e (by simp)
    simp only [ofEvents, typesOf, Element.signature, Element.deprecated, Element.synthetic, Element.annotations,
      Element.source, Element.enclosingMethod, Element.nestHost, Element.nestMembers, Element.permittedSubclasses,
      Element.innerClasses, Element.record, Element.module, filterMap_concat, any_append, any_cons,
      any_nil, Bool.or_false]
    cases e with
    | header | field | method | parameter | annotableParameterCount | annotateParameter | annotationDefault | code | done =>
      cases he
    | _ => simp [add, ClassEvent.typeAnnotation?, ClassDoc.TypeAnnotation.map_id]

namespace ModelBuilder

def inClass (n : Label.Numbering) (c : ClassModel) : ModelBuilder := ⟨.inClass false, c, n⟩

@[simp] theorem inClass_model (n : Label.Numbering) (c : ClassModel) : (inClass n c).model = c := rfl

def Bare (c : ClassModel) : Prop := c.fields = [] ∧ c.methods = []

variable {c : ClassModel} {methods : List (MethodHeader × List ClassEvent)} {n : Label.Numbering} {e : ClassEvent}

theorem accept_preamble (hc : Bare c) (he : e.level = .preamble) :
    accept e (inClass n c) = addPreamble e (inClass n c) := by
  have hp : accept e (inClass n c) = preambleEvent e (inClass n c) := by
    cases e <;> first | rfl | cases he
  have hr : preambleEvent e (inClass n c) =
      (if c.fields.isEmpty && c.methods.isEmpty then addPreamble e else unexpected e) (inClass n c) := rfl
  rw [hp, hr, hc.1, hc.2]
  rfl

theorem class_step (he : e.isInClass = true) (hl : e.labels = []) :
    Step (fun c : { c // Bare c } => inClass n c.1) (fun c => orderClass c.1) (·.add e) e.Readable (accept e) := by
  rintro ⟨c, hc⟩
  have hcomponents : ∀ components, e = .record components →
      components.mapM component = liftM (components.mapM Model.RecordComponent.ofClassFile) := by
    rintro components rfl
    have hl : ∀ comp ∈ components, ∀ a ∈ comp.typeAnnotations, a.2.target.labels = [] := by
      simpa [ClassEvent.labels] using hl
    exact mapM_lift fun comp hc => component_none (hl comp hc)
  refine ⟨fun hr => ?_, fun b h => ?_⟩
  · cases e with
    | header | field | method | parameter | annotableParameterCount | annotateParameter | annotationDefault | code | done =>
      cases he
    | annotateType visible a =>
      obtain ⟨t, ht⟩ := hr
      refine ⟨⟨_, by exact hc⟩, (run_bind_eq_ok (x := typeAnnotated visible a)).2 ⟨t, inClass n c, ?_, rfl⟩, ?_⟩
      · rw [typeAnnotated_none hl]
        exact run_lift_eq_ok.2 ⟨ht, rfl⟩
      · simp [orderClass, ClassModel.add, ht, Except.toOption]
    | record components =>
      obtain ⟨rs, ht⟩ := hr
      rw [accept_preamble hc rfl]
      refine ⟨⟨_, by exact hc⟩, (run_bind_eq_ok (x := components.mapM component)).2 ⟨rs, inClass n c, ?_, rfl⟩, ?_⟩
      · rw [hcomponents components rfl]
        exact run_lift_eq_ok.2 ⟨ht, rfl⟩
      · simp [orderClass, ClassModel.add, ht, Except.toOption]
    | nestMember | permittedSubclass | innerClass =>
      rw [accept_preamble hc rfl]
      exact ⟨⟨_, by exact hc⟩, rfl, by simp [orderClass, ClassModel.add]⟩
    | source | enclosingMethod | nestHost | module =>
      rw [accept_preamble hc rfl]
      exact ⟨⟨_, by exact hc⟩, rfl, rfl⟩
    | annotate => exact ⟨⟨_, by exact hc⟩, rfl, by simp [orderClass, ClassModel.add]⟩
    | signature | deprecated | synthetic => exact ⟨⟨_, by exact hc⟩, rfl, rfl⟩
  · cases e with
    | annotateType visible a =>
      obtain ⟨t, r, hr, -⟩ := run_bind_eq_ok.1 (show (typeAnnotated visible a >>= _) _ = _ from h)
      rw [typeAnnotated_none hl] at hr
      exact ⟨t, (run_lift_eq_ok.1 hr).1⟩
    | record components =>
      rw [accept_preamble hc rfl] at h
      obtain ⟨rs, r, hr, -⟩ := run_bind_eq_ok.1 (show (components.mapM component >>= _) _ = _ from h)
      rw [hcomponents components rfl] at hr
      exact ⟨rs, (run_lift_eq_ok.1 hr).1⟩
    | code => cases he
    | _ => trivial

/-! ## All elements -/

def fieldOf (h : FieldHeader) : Field :=
  { name := h.name, descriptor := h.descriptor, access := h.access, value := h.value.map Operand.ofConstant }

def methodOf (h : MethodHeader) : Method :=
  { name := h.name, descriptor := h.descriptor, access := h.access, exceptions := h.exceptions }

theorem inMethod_inj {m m' : Method} {n' : Label.Numbering} (h : inMethod c m n = inMethod c m' n') :
    m = m' ∧ n = n' := by
  simpa [inMethod] using h

/-- **What is built from the events of a method is what they say, with the labels numbered as they come up.** -/
theorem soFar_run {header : MethodHeader} (he : ∀ e ∈ events, e.isInMethod = true)
    (h : events.forM accept (inMethod c (methodOf header) {}) = .ok () (inMethod c m n)) :
    soFar m = Method.ofEvents header (Label.renumber (events.flatMap ClassEvent.labels)) events := by
  obtain ⟨m', n', hb, -, ha, -⟩ := method_run he h
  obtain ⟨rfl, rfl⟩ := inMethod_inj hb
  rw [ofEvents_eq_foldl]
  exact ha.method [] _ Label.Numbering.met_empty fun _ _ => rfl

/-- The method is what is built of its events. -/
def BuildsMethod (x : MethodHeader × List ClassEvent) (m : Method) : Prop :=
  ∃ m' n, (∀ c, x.2.forM accept (inMethod c (methodOf x.1) {}) = .ok () (inMethod c m' n)) ∧ m = orderMethod m'

def Open (b : ModelBuilder) (c : ClassModel) : Prop :=
  b.stage ≠ .awaitingClass ∧ b.stage ≠ .closed ∧ orderClass b.model = c

theorem Open.accept_eq (h : Open b c) :
    (∀ header, accept (.field header) b = .ok () (inField b.model b.labels (fieldOf header))) ∧
      (∀ header, accept (.method header) b = .ok () (inMethod b.model (methodOf header) {})) ∧
      accept .done b = .ok () { b with stage := .closed } := by
  obtain ⟨stage, model, labels⟩ := b
  obtain ⟨h1, h2, -⟩ := h
  cases stage with
  | awaitingClass => exact absurd rfl h1
  | closed => exact absurd rfl h2
  | inClass inMember => cases inMember <;> exact ⟨fun _ => rfl, fun _ => rfl, rfl⟩
  | inMethod => exact ⟨fun _ => rfl, fun _ => rfl, rfl⟩

theorem fields_run {fields : List (FieldHeader × List ClassEvent)} (ho : Open b c)
    (hf : ∀ f ∈ fields, ∀ e ∈ f.2, e.level = .element) (hl : ∀ f ∈ fields, ∀ e ∈ f.2, e.labels = []) :
    ((∀ f ∈ fields, ∀ e ∈ f.2, e.Readable) → ∃ b', (fields.flatMap fun f => .field f.1 :: f.2).forM accept b = .ok () b' ∧
      Open b' { c with fields := c.fields ++ fields.map fun f => Field.ofEvents f.1 f.2 }) ∧
    ∀ b', (fields.flatMap fun f => .field f.1 :: f.2).forM accept b = .ok () b' → ∀ f ∈ fields, ∀ e ∈ f.2, e.Readable := by
  induction fields generalizing b c with
  | nil => exact ⟨fun _ => ⟨b, rfl, by simpa using ho⟩, by simp⟩
  | cons f fields ih =>
    rw [forall_mem_cons] at hf hl
    have hstep := Step.run (fun e he => field_step (c := b.model) (n := b.labels) (hf.1 e he) (hl.1 e he)) (fieldOf f.1)
    -- What is to be shown of the rest, once the first field is built.
    have hrest : ∀ f', orderField f' = f.2.foldl Field.add (orderField (fieldOf f.1)) →
        Open (inField b.model b.labels f') { c with fields := c.fields ++ [Field.ofEvents f.1 f.2] } := by
      intro f' hv
      have hf' : orderField f' = Field.ofEvents f.1 f.2 := hv.trans (Field.ofEvents_eq_foldl f.1 hf.1).symm
      refine ⟨by simp [inField], by simp [inField], ?_⟩
      rw [← hf', ← ho.2.2]
      simp [inField, orderClass]
    simp only [forall_mem_cons, flatMap_cons, run_forM_append, run_forM_cons, ho.accept_eq.1]
    refine ⟨fun hr => ?_, ?_⟩
    · obtain ⟨f', h1, hv⟩ := hstep.1 hr.1
      obtain ⟨b', h2, ho'⟩ := (ih (hrest f' hv) hf.2 hl.2).1 hr.2
      exact ⟨b', ⟨_, ⟨_, rfl, h1⟩, h2⟩, by simpa using ho'⟩
    · rintro b' ⟨r, ⟨_, hq, h1⟩, h2⟩
      cases hq
      have hr := hstep.2 r h1
      obtain ⟨f', h1', hv⟩ := hstep.1 hr
      obtain rfl : r = inField b.model b.labels f' := by
        rw [h1] at h1'
        exact (EStateM.Result.ok.inj h1').2
      exact ⟨hr, (ih (hrest f' hv) hf.2 hl.2).2 b' h2⟩

theorem open_inMethod (ho : Open b c) (m : Method) (n : Label.Numbering) :
    Open (inMethod b.model m n) { c with methods := c.methods ++ [orderMethod m] } := by
  refine ⟨by simp [inMethod], by simp [inMethod], ?_⟩
  rw [← ho.2.2]
  simp [inMethod, orderClass]

theorem methods_run (ho : Open b c) (hm : ∀ m ∈ methods, ∀ e ∈ m.2, e.isInMethod = true) {b' : ModelBuilder}
    (h : (methods.flatMap fun m => .method m.1 :: m.2).forM accept b = .ok () b') :
    ∃ ms, Forall₂ BuildsMethod methods ms ∧ Open b' { c with methods := c.methods ++ ms } := by
  induction methods generalizing b c with
  | nil =>
    cases h
    exact ⟨[], .nil, by simpa using ho⟩
  | cons x methods ih =>
    rw [forall_mem_cons] at hm
    obtain ⟨r, h1, h2⟩ := run_forM_append.1 h
    obtain ⟨q, hq, h1⟩ := run_forM_cons.1 h1
    rw [ho.accept_eq.2.1] at hq
    cases hq
    obtain ⟨m', n', rfl, hr, -, -⟩ := method_run hm.1 h1
    obtain ⟨ms, hms, ho'⟩ := ih (open_inMethod ho m' n') hm.2 h2
    exact ⟨orderMethod m' :: ms, .cons ⟨m', n', hr, rfl⟩ hms, by simpa using ho'⟩

theorem methods_accept {ms : List Method} (ho : Open b c) (hm : Forall₂ BuildsMethod methods ms) :
    ∃ b', (methods.flatMap fun m => .method m.1 :: m.2).forM accept b = .ok () b' ∧
      Open b' { c with methods := c.methods ++ ms } := by
  induction hm generalizing b c with
  | nil => exact ⟨b, rfl, by simpa using ho⟩
  | @cons x m methods ms hx _ ih =>
    obtain ⟨m', n', hr, rfl⟩ := hx
    obtain ⟨b', h2, ho'⟩ := ih (open_inMethod ho m' n')
    exact ⟨b', run_forM_append.2 ⟨_, run_forM_cons.2 ⟨_, ho.accept_eq.2.1 x.1, hr b.model⟩, h2⟩, by simpa using ho'⟩

/-- The class is what is built of the elements. -/
structure Builds (s : Elements) (c : ClassModel) : Prop where
  readable : ∀ e ∈ s.events, e.Readable
  fieldsReadable : ∀ f ∈ s.fields, ∀ e ∈ f.2, e.Readable
  methods : Forall₂ BuildsMethod s.methods c.methods
  model : c = { ClassModel.ofEvents s.header s.events with
    fields := s.fields.map fun f => Field.ofEvents f.1 f.2, methods := c.methods }

def classOf (h : ClassHeader) : ClassModel :=
  { name := h.name, access := h.access, version := h.version, superClass := h.superClass, interfaces := h.interfaces }

theorem bare_classOf (h : ClassHeader) : Bare (classOf h) := ⟨rfl, rfl⟩

theorem open_inClass {d : ClassModel} (h : orderClass c = d) : Open (inClass n c) d :=
  ⟨by simp [inClass], by simp [inClass], h⟩

end ModelBuilder

open ModelBuilder

theorem classEvents_run (hp : s.Proper) (hl : s.LabelsInCode) :
    ((∀ e ∈ s.events, e.Readable) → ∃ b, s.events.forM accept (inClass {} (classOf s.header)) = .ok () b ∧
      Open b (ClassModel.ofEvents s.header s.events)) ∧
    ∀ b, s.events.forM accept (inClass {} (classOf s.header)) = .ok () b → ∀ e ∈ s.events, e.Readable := by
  have hstep := Step.run (fun e he => class_step (n := {}) (hp.events e he) (hl.events e he))
    ⟨classOf s.header, bare_classOf s.header⟩
  refine ⟨fun hr => ?_, hstep.2⟩
  obtain ⟨c, h, hc⟩ := hstep.1 hr
  exact ⟨_, h, open_inClass (hc.trans (ClassModel.ofEvents_eq_foldl s.header hp.events).symm)⟩

theorem builds_of_buildModel (hp : s.Proper) (hl : s.LabelsInCode) (h : buildModel s.flatten = .ok c) : Builds s c := by
  unfold buildModel at h
  split at h
  next b hr =>
    obtain ⟨b₁, h1, hr⟩ := run_forM_cons.1 hr
    obtain rfl : inClass {} (classOf s.header) = b₁ := by cases h1; rfl
    obtain ⟨b₂, hr, h2⟩ := run_forM_append.1 hr
    obtain ⟨b₃, hr, h3⟩ := run_forM_append.1 hr
    obtain ⟨b₄, hr, h4⟩ := run_forM_append.1 hr
    have hrc := (classEvents_run hp hl).2 b₄ hr
    obtain ⟨_, hr', ho⟩ := (classEvents_run hp hl).1 hrc
    obtain rfl := (EStateM.Result.ok.inj (hr.symm.trans hr')).2
    have hrf := (fields_run ho hp.fields hl.fields).2 b₃ h4
    obtain ⟨_, h4', ho⟩ := (fields_run ho hp.fields hl.fields).1 hrf
    obtain rfl := (EStateM.Result.ok.inj (h4.symm.trans h4')).2
    obtain ⟨ms, hms, ho⟩ := methods_run ho hp.methods h3
    obtain ⟨b₅, h5, h2⟩ := run_forM_cons.1 h2
    rw [ho.accept_eq.2.2] at h5
    cases h5
    cases h2
    obtain rfl : orderClass b₂.model = c := Except.ok.inj h
    refine ⟨hrc, hrf, ?_, ?_⟩
    · rw [ho.2.2]
      simpa [ClassModel.ofEvents] using hms
    · rw [ho.2.2]
      simp [ClassModel.ofEvents]
  next => cases h

theorem buildModel_of_builds (hp : s.Proper) (hl : s.LabelsInCode) (h : Builds s c) : buildModel s.flatten = .ok c := by
  obtain ⟨b₀, h1, ho⟩ := (classEvents_run hp hl).1 h.readable
  obtain ⟨b₁, h2, ho⟩ := (fields_run ho hp.fields hl.fields).1 h.fieldsReadable
  obtain ⟨b₂, h3, ho'⟩ := methods_accept ho h.methods
  have hr : s.flatten.forM accept {} = .ok () { b₂ with stage := .closed } :=
    run_forM_cons.2 ⟨inClass {} (classOf s.header), rfl, run_forM_append.2 ⟨b₂, run_forM_append.2 ⟨b₁,
      run_forM_append.2 ⟨_, h1, h2⟩, h3⟩, run_forM_cons.2 ⟨_, ho'.accept_eq.2.2, rfl⟩⟩⟩
  have hm : orderClass b₂.model = c := by
    rw [ho'.2.2, h.model]
    simp [ClassModel.ofEvents]
  rw [buildModel, hr]
  exact congrArg Except.ok hm

/-- **A builder makes of the elements of a class what they say.** -/
theorem buildModel_flatten (hp : s.Proper) (hl : s.LabelsInCode) : buildModel s.flatten = .ok c ↔ Builds s c :=
  ⟨builds_of_buildModel hp hl, buildModel_of_builds hp hl⟩

end ClassDoc
