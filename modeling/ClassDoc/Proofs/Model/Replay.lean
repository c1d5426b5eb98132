/-
  Building a class again from its own events.

  Events do not tell everything a model does. `Model.Method.normal` is what is left of a method: its labels are numbered in
  the order they come up, type annotations outside of code stand before those in code, annotations of a parameter that the
  running program can see before the others, and parameters about which nothing is said are gone.
-/
import ClassDoc.Proofs.ClassFile.Form
import ClassDoc.Proofs.Document.Class
import ClassDoc.Proofs.Model.Build
namespace ClassDoc

open List

/-! ## Normal forms -/

namespace MethodEntry

def labels : MethodEntry → List Label
  | instruction i => i.labels
  | label l => [l]
  | tryCatch t => [t.start, t.stop, t.handler]
  | frame f => f.labels
  | line _ l => [l]

def relabel (f : Label → Label) : MethodEntry → MethodEntry
  | instruction i => instruction (i.relabel f)
  | label l => label (f l)
  | tryCatch t => tryCatch ⟨f t.start, f t.stop, f t.handler, t.catchType⟩
  | frame frame' => frame (frame'.map f)
  | line number l => line number (f l)

end MethodEntry

namespace Model

def Parameter.isPlain (p : Parameter) : Bool := p.name.isNone && p.access == 0 && p.annotations.isEmpty

/-- The parameter with the annotations that the running program can see first. -/
def Parameter.normal (p : Parameter) : Parameter :=
  { p with annotations := (p.annotations.filter fun a => a.visibility == .runtime)
      ++ p.annotations.filter fun a => a.visibility == .classFile }

namespace Method

def mentions (m : Method) : List Label :=
  m.entries.flatMap MethodEntry.labels ++ m.localVariables.flatMap (fun v => [v.start, v.stop])
    ++ m.codeTypeAnnotations.flatMap fun a => a.target.labels

def normalParameters (m : Method) : List Parameter :=
  if m.parameters.all Parameter.isPlain then [] else m.parameters.map Parameter.normal

/-- The method as its events tell it. -/
def normal (m : Method) : Method :=
  let number := Label.renumber m.mentions
  { m with
    parameters := m.normalParameters
    typeAnnotations := m.declarationTypeAnnotations ++ m.codeTypeAnnotations.map (·.relabel number)
    entries := m.entries.map (MethodEntry.relabel number)
    localVariables := m.localVariables.map fun v => { v with start := number v.start, stop := number v.stop } }

end Method

end Model

def ClassModel.normal (c : ClassModel) : ClassModel := { c with methods := c.methods.map Model.Method.normal }

/-! ## Events and entries -/

theorem CodeEvent.inBody?_map (f : Label → Label) (e : CodeEvent) :
    (e.map f).inBody? = e.inBody?.map (MethodEntry.relabel f) := by
  cases e <;> simp [map, inBody?, MethodEntry.relabel, Instruction.relabel_ofInsn]

theorem CodeEvent.labels_eq {e : CodeEvent} {entry : MethodEntry} (h : e.inBody? = some entry) :
    e.labels = entry.labels := by
  cases e <;> cases h <;> simp [labels, MethodEntry.labels, Instruction.labels_ofInsn]

namespace Model

open ModelBuilder

theorem filterMap_eq_of_forall₂ {α β : Type} {f : β → Option α} {as : List α} {bs : List β}
    (h : Forall₂ (fun a b => f b = some a) as bs) : bs.filterMap f = as := by
  induction h with
  | nil => rfl
  | cons hab _ ih => rw [filterMap_cons_some hab, ih]

theorem map_ofClassFile {as : List Annotation} {bs : List (Bool × ClassDoc.Annotation)}
    (h : Forall₂ Annotation.Encodes as bs) : bs.map (fun b => Annotation.ofClassFile b.1 b.2) = as := by
  rw [← forall₂_eq_eq_eq, forall₂_map_left_iff]
  exact (h.imp fun _ _ hab => hab.back).flip

theorem filterMap_ofClassFile {as : List TypeAnnotation} {bs : List (Bool × ClassDoc.TypeAnnotation Label)}
    (h : Forall₂ TypeAnnotation.Encodes as bs) (g : Label → Label) :
    bs.filterMap (fun b => Except.toOption <| TypeAnnotation.ofClassFile b.1 (b.2.map g)) = as.map (·.relabel g) :=
  filterMap_eq_of_forall₂ (forall₂_map_left_iff.2 (h.imp fun a b hab => by rw [hab.back]; rfl))

theorem TypeAnnotation.Encodes.labels_eq_nil {a : TypeAnnotation} {b : Bool × ClassDoc.TypeAnnotation Label}
    (h : a.Encodes b) {allowed : UInt8 → Bool} (hv : TypeAnnotation.validate allowed a = .ok ())
    (hc : TargetType.isCode a.targetType = false) : b.2.target.labels = [] := by
  obtain ⟨-, hf, -⟩ := TypeAnnotation.validate_iff.1 hv
  rw [h.target]
  exact TypeTarget.labels_eq_nil hf hc

theorem typesOf_of_not_code {events : List ClassEvent} (h : ∀ e ∈ events, e.isCode = false) (g : Label → Label) :
    typesOf g events = (Element.typeAnnotations events).filterMap fun a =>
      Except.toOption <| TypeAnnotation.ofClassFile a.1 (a.2.map g) := by
  rw [typesOf, Element.typeAnnotations, filterMap_filterMap]
  refine filterMap_congr fun e he => ?_
  have := h e he
  cases e <;> first | rfl | cases this

theorem typesOf_append {head : List ClassEvent} (h : ∀ e ∈ head, e.isCode = false) (code : List CodeEvent)
    (g : Label → Label) :
    typesOf g (head ++ code.map .code) = (Element.typeAnnotations (head ++ code.map .code)
      ++ (Body.ofEvents code).typeAnnotations).filterMap fun a =>
        Except.toOption <| TypeAnnotation.ofClassFile a.1 (a.2.map g) := by
  have hc : Element.typeAnnotations (head ++ code.map .code) = Element.typeAnnotations head := by
    simp [Element.typeAnnotations, filterMap_map]
  rw [hc, filterMap_append, ← typesOf_of_not_code h, Body.ofEvents, filterMap_filterMap, typesOf,
    filterMap_append, filterMap_map]
  rfl

namespace Method

variable {m : Method} {p : MethodParts} {arguments : List String} {result : String} {v : Visibility} {m₁ : Method}
  {P : ClassEvent → Prop} {ps : List Parameter}

/-! ## Parameters -/

def annotationsFor (p : MethodParts) (v : Visibility) : List (Nat × ClassDoc.Annotation) :=
  p.parameters.zipIdx.flatMap fun x => (x.1.filter fun a => a.1 == v.isRuntime).map fun a => (x.2, a.2)

theorem parameterEvents_eq (m : Method) (p : MethodParts) (count : Nat) (v : Visibility) :
    m.parameterEvents p count v = (m.annotable v).toList.map (fun count => .annotableParameterCount count v.isRuntime)
      ++ (annotationsFor p v).map fun a => .annotateParameter (UInt8.ofNat (a.1 - m.skipped count v)) v.isRuntime a.2 := by
  rw [parameterEvents, annotationsFor, map_flatMap]
  congr 1
  refine flatMap_congr fun x _ => ?_
  rw [map_map]
  refine map_congr_left fun a ha => ?_
  have hv := (mem_filter.1 ha).2
  rw [beq_iff_eq] at hv
  simp [hv]

theorem filter_zipIdx_flatMap {α β : Type} (f : α → List β) (xs : List α) (start index : Nat) :
    ((xs.zipIdx start).flatMap fun x => (f x.1).map fun b => (x.2, b)).filter (fun b => b.1 == index) =
      (if start ≤ index then (xs[index - start]?.map f).getD [] else []).map fun b => (index, b) := by
  induction xs generalizing start with
  | nil => simp
  | cons x xs ih =>
    rw [zipIdx_cons, flatMap_cons, filter_append, ih]
    by_cases h1 : start = index
    · subst h1
      simp [filter_map, Function.comp_def]
    · by_cases h2 : start ≤ index
      · have h3 : start + 1 ≤ index := by omega
        have h4 : index - start = index - (start + 1) + 1 := by omega
        simp [filter_map, Function.comp_def, h1, h2, h3, h4]
      · have h3 : ¬ start + 1 ≤ index := by omega
        simp [filter_map, Function.comp_def, h1, h2, h3]

theorem filter_annotationsFor (p : MethodParts) (v : Visibility) (index : Nat) :
    ((annotationsFor p v).filter fun a => a.1 == index).map (fun a => Annotation.ofClassFile v.isRuntime a.2) =
      ((p.parameters[index]?.getD []).filter fun a => a.1 == v.isRuntime).map fun a => .ofClassFile a.1 a.2 := by
  have hf := filter_zipIdx_flatMap (fun as : List (Bool × ClassDoc.Annotation) =>
    (as.filter fun a => a.1 == v.isRuntime).map Prod.snd) p.parameters 0 index
  simp only [map_map, Function.comp_def, Nat.zero_le, if_true, Nat.sub_zero] at hf
  rw [annotationsFor, hf]
  cases p.parameters[index]? with
  | none => rfl
  | some as =>
    simp only [Option.map_some, Option.getD_some, map_map, Function.comp_def]
    refine map_congr_left fun a ha => ?_
    have hv := (mem_filter.1 ha).2
    rw [beq_iff_eq] at hv
    rw [hv]

def bareParameters (m : Method) (count : Nat) : List Parameter :=
  if m.parameters.isEmpty then List.replicate count {} else m.parameters.map fun q => { q with annotations := [] }

theorem annotateAll_bare (h : m.Encodes p) (hm : m.parameters.isEmpty = false) (count : Nat) :
    annotateAll false (annotationsFor p .classFile) (annotateAll true (annotationsFor p .runtime) (m.bareParameters count)) =
      m.parameters.map Parameter.normal := by
  have hl : m.bareParameters count = m.parameters.map fun q => { q with annotations := [] } := by
    rw [bareParameters, hm]
    rfl
  refine ext_getElem? fun index => ?_
  simp only [annotateAll, hl, getElem?_mapIdx, getElem?_map, Option.map_map, Function.comp_def, nil_append]
  cases hq : m.parameters[index]? with
  | none => rfl
  | some q =>
    obtain ⟨as, has, hqa⟩ := forall₂_getElem? h.parameters hq
    have hf : ∀ v : Visibility, ((annotationsFor p v).filter fun a => a.1 == index).map
        (fun a => Annotation.ofClassFile v.isRuntime a.2) = q.annotations.filter fun a => a.visibility == v := by
      intro v
      rw [filter_annotationsFor, has, Option.getD_some, ← forall₂_eq_eq_eq, forall₂_map_left_iff]
      exact ((forall₂_filter hqa fun a b hab => hab.beq_visibility v).imp fun a b hab => hab.1.back).flip
    simp only [Option.map_some, Parameter.normal]
    rw [← hf .runtime, ← hf .classFile]
    rfl

/-! ## What the events of a method say -/

def headerOf (m : Method) : MethodHeader := ⟨m.access, m.name, m.descriptor, m.exceptions⟩

/-- The method in the form in which it is read, without its code. -/
def form (m : Method) (p : MethodParts) (n : Nat) : MethodForm where
  header := m.headerOf
  common := ⟨m.signature, m.deprecated, m.synthetic, p.annotations,
    p.typeAnnotations.filter fun a => !TargetType.isCode a.2.targetType⟩
  parameters := if m.namesParameters then m.parameters.map fun q => (q.name, q.access) else []
  visible := ⟨m.visibleAnnotable, (annotationsFor p .runtime).map fun a => (UInt8.ofNat (a.1 - m.skipped n .runtime), a.2)⟩
  invisible := ⟨m.invisibleAnnotable,
    (annotationsFor p .classFile).map fun a => (UInt8.ofNat (a.1 - m.skipped n .classFile), a.2)⟩
  default := p.default
  code := none

theorem frontEvents_form (m : Method) (p : MethodParts) (n : Nat) : (m.form p n).frontEvents = m.headOf p n := by
  have hp : (if m.namesParameters then m.parameters.map fun q => (q.name, q.access) else []).map
      (fun q => ClassEvent.parameter q.1 q.2)
      = if m.namesParameters then m.parameters.map fun q => .parameter q.name q.access else [] := by
    split
    · rw [map_map]
      rfl
    · rfl
  simp only [MethodForm.frontEvents, form, hp, headOf, leadOf, parameterEvents_eq, ParameterForm.events,
    CommonForm.annotationEvents, map_map, append_assoc]
  rfl

def innerEvents (m : Method) (p : MethodParts) (count : Nat) : List ClassEvent := m.headOf p count ++ (m.codeOf p).map .code

theorem ofEvents_form (m : Method) (p : MethodParts) (n : Nat) :
    MethodForm.ofEvents m.headerOf (m.innerEvents p n) = m.form p n := by
  rw [innerEvents, ← frontEvents_form]
  exact MethodForm.ofEvents_frontEvents (m := m.form p n) _

theorem isCode_headOf (m : Method) (p : MethodParts) (n : Nat) : ∀ e ∈ m.headOf p n, e.isCode = false := by
  rw [← frontEvents_form]
  exact MethodForm.isCode_frontEvents

theorem code_innerEvents (m : Method) (p : MethodParts) (n : Nat) : Element.code (m.innerEvents p n) = m.codeOf p :=
  code_append (isCode_headOf m p n) _

theorem forall₂_types (h : m.Encodes p) (code : Bool) :
    Forall₂ TypeAnnotation.Encodes (m.typeAnnotations.filter fun a => TargetType.isCode a.targetType == code)
      (p.typeAnnotations.filter fun a => TargetType.isCode a.2.targetType == code) :=
  (forall₂_filter h.typeAnnotations fun a b hab => by rw [hab.targetType]).imp fun _ _ hab => hab.1

theorem filterMap_code_eq_nil (h : m.Encodes p) {α : Type} {f : CodeEvent → Option α}
    (hf : ∀ e, e.inBody?.isSome → f e = none) :
    p.code.filterMap f = [] := by
  refine filterMap_eq_nil_iff.2 fun e he => hf e ?_
  obtain ⟨entry, -, hee⟩ := exists_of_mem_right h.code he
  rw [hee.1]
  rfl

theorem types_codeOf (h : m.Encodes p) : (Body.ofEvents (m.codeOf p)).typeAnnotations =
    p.typeAnnotations.filter fun a => TargetType.isCode a.2.targetType := by
  have hc : p.code.filterMap Body.annotatedType? = [] := filterMap_code_eq_nil h fun e he => by
    cases e <;> first | rfl | cases he
  simp [Body.ofEvents, codeOf, hc, filterMap_map, Function.comp_def, Body.annotatedType?]

theorem entries_codeOf (h : m.Encodes p) (g : Label → Label) :
    (m.codeOf p).filterMap (fun e => (e.map g).inBody?) = m.entries.map (MethodEntry.relabel g) := by
  have hc : p.code.filterMap (fun e => (e.map g).inBody?) = m.entries.map (MethodEntry.relabel g) :=
    filterMap_eq_of_forall₂ (forall₂_map_left_iff.2 (h.code.imp fun entry e he => by rw [CodeEvent.inBody?_map, he.1]; rfl))
  simp only [codeOf, filterMap_append, hc, filterMap_map, Function.comp_def]
  simp [CodeEvent.map, CodeEvent.inBody?]

theorem ofEvents_innerEvents (h : m.Encodes p) (hm : m.maxStack.isSome = m.maxLocals.isSome) (count : Nat)
    (g : Label → Label) :
    ofEvents m.headerOf g (m.innerEvents p count) = { m with
      parameters := []
      typeAnnotations := m.declarationTypeAnnotations.map (·.relabel g)
        ++ m.codeTypeAnnotations.map (·.relabel g)
      entries := m.entries.map (MethodEntry.relabel g)
      localVariables := m.localVariables.map fun v => { v with start := g v.start, stop := g v.stop } } := by
  obtain ⟨-, hcommon, -, hvisible, hinvisible, hdefault, -⟩ := MethodForm.mk.inj (ofEvents_form m p count)
  obtain ⟨hsignature, hdeprecated, hsynthetic, hannotations, htypes⟩ := CommonForm.mk.inj hcommon
  have hcount : Element.annotableParameters true (m.innerEvents p count) = m.visibleAnnotable :=
    congrArg ParameterForm.count hvisible
  have hcount' : Element.annotableParameters false (m.innerEvents p count) = m.invisibleAnnotable :=
    congrArg ParameterForm.count hinvisible
  have hd := forall₂_types h false
  have hc := forall₂_types h true
  simp only [beq_false, beq_true] at hd hc
  have ht : typesOf g (m.innerEvents p count) = m.declarationTypeAnnotations.map (·.relabel g)
      ++ m.codeTypeAnnotations.map (·.relabel g) := by
    rw [innerEvents, typesOf_append (isCode_headOf m p count), types_codeOf h, ← innerEvents, htypes, filterMap_append]
    exact congrArg₂ _ (filterMap_ofClassFile hd g) (filterMap_ofClassFile hc g)
  have hv : (m.codeOf p).filterMap (fun e => Body.localVariable? (e.map g)) =
      m.localVariables.map fun v => { v with start := g v.start, stop := g v.stop } := by
    have hc := filterMap_code_eq_nil h (f := fun e => Body.localVariable? (e.map g)) fun e he => by
      cases e <;> first | rfl | cases he
    simp only [codeOf, filterMap_append, hc, filterMap_map, Function.comp_def]
    simp [CodeEvent.map, Body.localVariable?]
  have hs : (m.codeOf p).filterMap Body.maxs? = m.maxs.toList := by
    have hc := filterMap_code_eq_nil h (f := Body.maxs?) fun e he => by
      cases e <;> first | rfl | cases he
    simp [codeOf, hc, filterMap_map, Function.comp_def, Body.maxs?]
  have hmaxs : m.maxs.map Prod.fst = m.maxStack ∧ m.maxs.map Prod.snd = m.maxLocals := by
    unfold maxs
    cases h1 : m.maxStack <;> cases h2 : m.maxLocals <;> simp_all
  rw [ofEvents, hsignature, hdeprecated, hsynthetic, hannotations, hdefault, hcount, hcount', ht, code_innerEvents,
    entries_codeOf h, hv, hs, getLast?_toList, hmaxs.1, hmaxs.2, map_ofClassFile h.annotations]
  have hvalue : p.default.map AnnotationValue.ofElement = m.annotationDefault := by
    have hd := h.default
    cases hm : m.annotationDefault <;> cases hp : p.default <;> simp_all
  rw [hvalue]
  rfl

theorem forall_leadOf (signature : ∀ s, P (.signature s)) (deprecated : P .deprecated)
    (synthetic : P .synthetic) (parameter : ∀ name access, P (.parameter name access))
    (annotate : ∀ visible a, P (.annotate visible a))
    (annotateType : ∀ a ∈ p.typeAnnotations, TargetType.isCode a.2.targetType = false → P (.annotateType a.1 a.2)) :
    ∀ e ∈ m.leadOf p, P e := by
  simp only [leadOf, markers, forall_mem_append, forall_mem_map]
  refine ⟨⟨⟨⟨fun s _ => signature s, ?_, ?_⟩, ?_⟩, fun a _ => annotate a.1 a.2⟩, fun a ha => ?_⟩
  · split <;> simp [deprecated]
  · split <;> simp [synthetic]
  · split <;> simp [parameter]
  · simp only [mem_filter, Bool.not_eq_true'] at ha
    exact annotateType a ha.1 ha.2

theorem forall_headOf {count : Nat} (lead : ∀ e ∈ m.leadOf p, P e)
    (counts : ∀ count visible, P (.annotableParameterCount count visible))
    (annotateParameter : ∀ index visible a, P (.annotateParameter index visible a))
    (default : ∀ value, P (.annotationDefault value)) : ∀ e ∈ m.headOf p count, P e := by
  have hp : ∀ v, ∀ e ∈ m.parameterEvents p count v, P e := by
    intro v
    rw [parameterEvents_eq]
    simp only [forall_mem_append, forall_mem_map]
    exact ⟨fun c _ => counts c _, fun a _ => annotateParameter _ _ _⟩
  simp only [headOf, forall_mem_append, forall_mem_map]
  exact ⟨⟨⟨lead, hp .runtime⟩, hp .classFile⟩, fun v _ => default v⟩

theorem isInMethod_innerEvents (count : Nat) : ∀ e ∈ m.innerEvents p count, e.isInMethod = true := by
  rw [innerEvents, forall_mem_append, forall_mem_map]
  exact ⟨forall_headOf (forall_leadOf (fun _ => rfl) rfl rfl (fun _ _ => rfl) (fun _ _ => rfl) fun _ _ _ => rfl)
    (fun _ _ => rfl) (fun _ _ _ => rfl) fun _ => rfl, fun _ _ => rfl⟩

theorem labels_headOf (h : m.Encodes p) (hv : m.Valid arguments result) (count : Nat) :
    ∀ e ∈ m.headOf p count, e.labels = [] := by
  refine forall_headOf (forall_leadOf (fun _ => rfl) rfl rfl (fun _ _ => rfl) (fun _ _ => rfl) fun a ha hc => ?_)
    (fun _ _ => rfl) (fun _ _ _ => rfl) fun _ => rfl
  obtain ⟨t, ht, hta⟩ := exists_of_mem_right h.typeAnnotations ha
  exact hta.labels_eq_nil (hv.typeAnnotations t ht) (hta.targetType ▸ hc)

theorem labels_innerEvents (h : m.Encodes p) (hv : m.Valid arguments result) (count : Nat) :
    ∀ e ∈ m.innerEvents p count, e.isCode = false → e.labels = [] := by
  rw [innerEvents, forall_mem_append, forall_mem_map]
  exact ⟨fun e he _ => labels_headOf h hv count e he, fun _ _ he => by cases he⟩

theorem flatMap_labels (h : m.Encodes p) (hv : m.Valid arguments result) (count : Nat) :
    (m.innerEvents p count).flatMap ClassEvent.labels = m.mentions := by
  have hh : (m.headOf p count).flatMap ClassEvent.labels = [] := flatMap_eq_nil_iff.2 (labels_headOf h hv count)
  have hc : p.code.flatMap CodeEvent.labels = m.entries.flatMap MethodEntry.labels :=
    flatMap_eq_of_forall₂ (h.code.imp fun entry e he => (CodeEvent.labels_eq he.1)).flip
  have ht := forall₂_types h true
  simp only [beq_true] at ht
  rw [innerEvents, flatMap_append, hh, nil_append, codeOf, mentions]
  simp only [map_append, flatMap_append, flatMap_map, ClassEvent.labels, hc]
  rw [codeTypeAnnotations, flatMap_eq_of_forall₂ (ht.imp fun a b hab => congrArg TypeTarget.labels hab.target.symm)]
  simp [CodeEvent.labels]

/-! ## The run -/

variable {c : ClassModel} {n : Label.Numbering}

theorem readable_type (h : m.Encodes p) {a : Bool × ClassDoc.TypeAnnotation Label} (ha : a ∈ p.typeAnnotations) :
    ∃ t, TypeAnnotation.ofClassFile a.1 a.2 = .ok t :=
  (exists_of_mem_right h.typeAnnotations ha).elim fun t ht => ⟨t, ht.2.ofClassFile_eq⟩

theorem annotableParameters_leadOf (visible : Bool) : Element.annotableParameters visible (m.leadOf p) = none := by
  rw [Element.annotableParameters, getLast?_eq_none_iff, filterMap_eq_nil_iff]
  exact forall_leadOf (fun _ => rfl) rfl rfl (fun _ _ => rfl) (fun _ _ => rfl) fun _ _ _ => rfl

theorem lead_run (h : m.Encodes p) (c : ClassModel) : ∃ m' n', (m.leadOf p).forM accept (inMethod c (methodOf m.headerOf) {})
      = .ok () (inMethod c m' n') ∧ m'.descriptor = m.descriptor ∧ (∀ v, m'.annotable v = none) ∧
      parametersOf m' = if m.namesParameters then m.parameters.map fun q => { q with annotations := [] } else [] := by
  have hs : ∀ e ∈ m.signature.toList.map ClassEvent.signature ++ markers m.deprecated m.synthetic,
      e.isInMethod = true ∧ e.isParameter = false ∧ e.Readable := by
    simp only [forall_mem_append, forall_mem_map]
    exact ⟨fun s _ => ⟨rfl, rfl, trivial⟩, forall_markers ⟨rfl, rfl, trivial⟩ ⟨rfl, rfl, trivial⟩⟩
  have ha : ∀ e ∈ p.annotations.map (fun a => ClassEvent.annotate a.1 a.2) ++
      (p.typeAnnotations.filter fun a => !TargetType.isCode a.2.targetType).map (fun a => .annotateType a.1 a.2),
      e.isInMethod = true ∧ e.isParameter = false ∧ e.Readable := by
    simp only [forall_mem_append, forall_mem_map]
    exact ⟨fun a _ => ⟨rfl, rfl, trivial⟩, fun a ha => ⟨rfl, rfl, readable_type h (mem_filter.1 ha).1⟩⟩
  obtain ⟨m₁, n₁, h1, hp1⟩ := method_run_accepts hs c (methodOf m.headerOf) {}
  obtain ⟨m₂, h2, hp2⟩ : ∃ m₂, (if m.namesParameters then m.parameters.map fun q => ClassEvent.parameter q.name q.access
      else []).forM accept (inMethod c m₁ n₁) = .ok () (inMethod c m₂ n₁) ∧
      parametersOf m₂ = if m.namesParameters then m.parameters.map fun q => { q with annotations := [] } else [] := by
    by_cases hm : m.namesParameters = true
    · rw [if_pos hm, if_pos hm]
      have hr := parameter_run (c := c) (m := m₁) (n := n₁) (m.parameters.map fun q => (q.name, q.access))
      rw [map_map] at hr
      exact ⟨_, hr, by simp [parametersOf, orderMethod, hp1, methodOf, orderParameter, Function.comp_def]⟩
    · rw [if_neg hm, if_neg hm]
      exact ⟨m₁, rfl, by simp [parametersOf, orderMethod, hp1, methodOf]⟩
  obtain ⟨m₃, n₃, h3, hp3⟩ := method_run_accepts ha c m₂ n₁
  have hrun : (m.leadOf p).forM accept (inMethod c (methodOf m.headerOf) {}) = .ok () (inMethod c m₃ n₃) := by
    rw [leadOf, append_assoc]
    exact run_forM_append.2 ⟨_, run_forM_append.2 ⟨_, h1, h2⟩, h3⟩
  have hf := soFar_run (fun e he => isInMethod_innerEvents (m := m) (p := p) 0 e (by simp [innerEvents, headOf, he])) hrun
  have hd : (soFar m₃).descriptor = m.descriptor := by rw [hf]; rfl
  have hav : ∀ v, (soFar m₃).annotable v = none := by
    intro v
    rw [hf]
    cases v with
    | runtime => exact annotableParameters_leadOf true
    | classFile => exact annotableParameters_leadOf false
  refine ⟨m₃, n₃, hrun, hd, fun v => ?_, ?_⟩
  · rw [← hav v]
    cases v <;> rfl
  · rw [← hp2, parametersOf_congr hp3]

theorem mem_annotationsFor (h : m.Encodes p) {a : Nat × ClassDoc.Annotation} (ha : a ∈ annotationsFor p v) :
    ∃ q, m.parameters[a.1]? = some q ∧ ∃ b ∈ q.annotations, b.visibility = v := by
  obtain ⟨⟨as, i⟩, hi, ha⟩ := mem_flatMap.1 ha
  obtain ⟨b, hb, rfl⟩ := mem_map.1 ha
  obtain ⟨hb, hbv⟩ := mem_filter.1 hb
  have hi : p.parameters[i]? = some as := by simpa [mem_zipIdx_iff_getElem?] using hi
  obtain ⟨q, hq, hqa⟩ := forall₂_getElem? h.parameters.flip hi
  obtain ⟨t, ht, htb⟩ := exists_of_mem_right hqa hb
  rw [← htb.beq_visibility, beq_iff_eq] at hbv
  exact ⟨q, hq, t, ht, hbv⟩

/-- Only parameters whose numbers have 8 bits are annotated. -/
def AnnotatesLow (m : Method) : Prop := ∀ index q, m.parameters[index]? = some q → q.annotations ≠ [] → index < 256

theorem Valid.lt_length (hv : m.Valid arguments result) {index : Nat} {q : Parameter}
    (hq : m.parameters[index]? = some q) : index < arguments.length := by
  have hlt : index < m.parameters.length := (List.getElem?_eq_some_iff.1 hq).1
  have hp := hv.parameters
  simp only [Bool.or_eq_true, List.isEmpty_iff, beq_iff_eq] at hp
  rcases hp with h0 | h0
  · rw [h0] at hlt
    cases hlt
  · omega

theorem AnnotatesLow.of_arguments (hv : m.Valid arguments result) (hn : arguments.length ≤ 255) : m.AnnotatesLow := by
  intro index q hq _
  have := hv.lt_length hq
  omega

theorem AnnotatesLow.reaches (hn : m.AnnotatesLow) (count : Nat) (v : Visibility) : m.Reaches count v := by
  rintro index q hq ⟨a, ha, -⟩
  have := hn index q hq (ne_nil_of_mem ha)
  omega

theorem annotatedIndex_eq (hv : m.Valid arguments result)
    (hd : m₁.descriptor = m.descriptor) (ha : m₁.annotable v = m.annotable v) {i : Nat} (hi : i < 256)
    (hs : m.skipped arguments.length v ≤ i) :
    annotatedIndex m₁ (UInt8.ofNat (i - m.skipped arguments.length v)) v.isRuntime = .ok (UInt8.ofNat i) := by
  have hm : (if v.isRuntime then m₁.visibleAnnotable else m₁.invisibleAnnotable) = m.annotable v := by
    rw [← ha]
    cases v <;> rfl
  have hc : argumentCount m₁ = .ok arguments.length := by
    rw [argumentCount, hd, hv.descriptor]
    rfl
  have hcheck := hv.annotable v
  rw [checkAnnotable] at hcheck
  rw [annotatedIndex, hm]
  rw [skipped] at hs ⊢
  cases hma : m.annotable v with
  | none => rfl
  | some count =>
    simp only [hma, bind_eq_ok, ensure_eq_ok, decide_eq_true_eq] at hcheck hs ⊢
    obtain ⟨-, hle, -⟩ := hcheck
    have h256 : (i - (arguments.length - count.toNat)) % 256 + (arguments.length - count.toNat) = i := by omega
    refine ⟨arguments.length, hc, ?_⟩
    rw [if_neg (by omega), UInt8.toNat_ofNat', if_pos (by omega), h256]

theorem parameterEvents_run (h : m.Encodes p) (hv : m.Valid arguments result) (hn : m.AnnotatesLow) (c : ClassModel)
    (n : Label.Numbering) (hd : m₁.descriptor = m.descriptor)
    (ha : m₁.annotable v = none) (hs : Stands arguments.length m₁ ps) (hl : ps.length = arguments.length) :
    ∃ m₂, (m.parameterEvents p arguments.length v).forM accept (inMethod c m₁ n) = .ok () (inMethod c m₂ n) ∧
      m₂.descriptor = m.descriptor ∧ (∀ w ≠ v, m₂.annotable w = m₁.annotable w) ∧
      parametersOf m₂ = if annotationsFor p v = [] then parametersOf m₁
        else annotateAll v.isRuntime (annotationsFor p v) ps := by
  obtain ⟨m', h1, hd', ha', hw, hp⟩ : ∃ m', ((m.annotable v).toList.map fun count =>
      ClassEvent.annotableParameterCount count v.isRuntime).forM accept (inMethod c m₁ n) = .ok () (inMethod c m' n) ∧
      m'.descriptor = m.descriptor ∧ m'.annotable v = m.annotable v ∧ (∀ w ≠ v, m'.annotable w = m₁.annotable w) ∧
      m'.parameters = m₁.parameters := by
    cases hm : m.annotable v with
    | none => exact ⟨m₁, rfl, hd, ha, fun _ _ => rfl, rfl⟩
    | some count =>
      cases v with
      | runtime =>
        refine ⟨{ m₁ with visibleAnnotable := some count }, rfl, hd, rfl, fun w hw => ?_, rfl⟩
        cases w with
        | runtime => exact absurd rfl hw
        | classFile => rfl
      | classFile =>
        refine ⟨{ m₁ with invisibleAnnotable := some count }, rfl, hd, rfl, fun w hw => ?_, rfl⟩
        cases w with
        | runtime => rfl
        | classFile => exact absurd rfl hw
  have hpar : parametersOf m' = parametersOf m₁ := parametersOf_congr hp
  have hc : argumentCount m' = .ok arguments.length := by
    rw [argumentCount, hd', hv.descriptor]
    rfl
  obtain ⟨m₂, h2, ⟨qs, rfl⟩, hp2⟩ := annotate_run (c := c) (n := n) v.isRuntime
    (fun i => UInt8.ofNat (i - m.skipped arguments.length v)) (annotationsFor p v) (m := m')
      (by rwa [Stands, hpar]) hc hl fun a ham => by
      obtain ⟨q, hq, hb⟩ := mem_annotationsFor h ham
      have hlow : a.1 < 256 := hn a.1 q hq (hb.elim fun b hb => ne_nil_of_mem hb.1)
      exact ⟨annotatedIndex_eq hv hd' ha' hlow (skipped_le (hv.annotable v) hq hb), hlow, hl ▸ hv.lt_length hq⟩
  refine ⟨{ m' with parameters := qs }, ?_, hd', fun w hw' => ?_, by rw [hp2, hpar]⟩
  · rw [parameterEvents_eq]
    exact run_forM_append.2 ⟨_, h1, h2⟩
  · rw [← hw w hw']
    cases w <;> rfl

theorem length_bareParameters (hv : m.Valid arguments result) :
    (m.bareParameters arguments.length).length = arguments.length := by
  have hp := hv.parameters
  rw [Bool.or_eq_true, beq_iff_eq] at hp
  rw [bareParameters]
  split
  next => simp
  next he => simpa [he] using hp

theorem unnamed (hn : ¬ m.namesParameters = true) : ∀ q ∈ m.parameters, q.name = none ∧ q.access = 0 := by
  intro q hq
  have h := fun h => hn (any_eq_true.2 ⟨q, hq, h⟩)
  simpa using h

theorem stands_bare (hv : m.Valid arguments result)
    (hp : parametersOf m₁ = if m.namesParameters then m.parameters.map fun q => { q with annotations := [] } else []) :
    Stands arguments.length m₁ (m.bareParameters arguments.length) := by
  have hl := length_bareParameters hv
  rw [bareParameters] at hl ⊢
  by_cases he : m.parameters.isEmpty = true
  · have hn : m.namesParameters = false := by simp [namesParameters, isEmpty_iff.1 he]
    rw [if_pos he]
    exact .inr ⟨by simpa [hn] using hp, rfl⟩
  · rw [if_neg he] at hl ⊢
    by_cases hn : m.namesParameters = true
    · exact .inl (by simpa [hn] using hp)
    · refine .inr ⟨by simpa [hn] using hp, ?_⟩
      refine eq_replicate_iff.2 ⟨hl, fun r hr => ?_⟩
      obtain ⟨q, hq, rfl⟩ := mem_map.1 hr
      rw [(unnamed hn q hq).1, (unnamed hn q hq).2]

theorem annotationsFor_eq_nil (h : m.Encodes p) :
    (∀ v, annotationsFor p v = []) ↔ ∀ q ∈ m.parameters, q.annotations = [] := by
  constructor
  · intro hnil q hq
    rw [eq_nil_iff_forall_not_mem]
    intro a ha
    obtain ⟨i, hi⟩ := mem_iff_getElem?.1 hq
    obtain ⟨as, has, hqa⟩ := forall₂_getElem? h.parameters hi
    obtain ⟨b, hb, hab⟩ := exists_of_mem_right hqa.flip ha
    have hm : (i, b.2) ∈ annotationsFor p a.visibility := by
      refine mem_flatMap.2 ⟨(as, i), by simpa [mem_zipIdx_iff_getElem?] using has, mem_map.2 ⟨b, ?_, rfl⟩⟩
      exact mem_filter.2 ⟨hb, by rw [← Annotation.Encodes.beq_visibility hab]; simp⟩
    rw [hnil] at hm
    cases hm
  · intro hnil v
    rw [eq_nil_iff_forall_not_mem]
    intro a ha
    obtain ⟨q, hq, b, hb, -⟩ := mem_annotationsFor h ha
    rw [hnil q (mem_of_getElem? hq)] at hb
    cases hb

theorem normalParameters_eq (h : m.Encodes p)
    (hp : ps = if m.namesParameters then m.parameters.map fun q => { q with annotations := [] } else []) (count : Nat) :
    (if annotationsFor p .classFile = [] then (if annotationsFor p .runtime = [] then ps
      else annotateAll true (annotationsFor p .runtime) (m.bareParameters count))
    else annotateAll false (annotationsFor p .classFile) (annotateAll true (annotationsFor p .runtime)
      (m.bareParameters count))) = m.normalParameters := by
  by_cases hnil : ∀ v, annotationsFor p v = []
  · have hq := (annotationsFor_eq_nil h).1 hnil
    rw [hnil .classFile, hnil .runtime, if_pos rfl, if_pos rfl, hp, normalParameters]
    by_cases hn : m.namesParameters = true
    · have hall : ¬ m.parameters.all Parameter.isPlain = true := by
        obtain ⟨q, hqm, hqn⟩ := any_eq_true.1 hn
        intro hall
        have := all_eq_true.1 hall q hqm
        simp only [Parameter.isPlain, Bool.and_eq_true, Option.isNone_iff_eq_none, beq_iff_eq] at this
        simp [this.1.1, this.1.2] at hqn
      rw [if_pos hn, if_neg hall]
      exact map_congr_left fun q hqm => by simp [Parameter.normal, hq q hqm]
    · have hall : m.parameters.all Parameter.isPlain = true := by
        refine all_eq_true.2 fun q hqm => ?_
        simp [Parameter.isPlain, unnamed hn q hqm, hq q hqm]
      rw [if_neg hn, if_pos hall]
  · have hq := mt (annotationsFor_eq_nil h).2 hnil
    obtain ⟨q, hqm, hqa⟩ : ∃ q ∈ m.parameters, q.annotations ≠ [] := by simpa using hq
    have he : m.parameters.isEmpty = false := by
      rw [isEmpty_eq_false_iff]
      exact ne_nil_of_mem hqm
    have hall : ¬ m.parameters.all Parameter.isPlain = true := by
      intro hall
      have := List.all_eq_true.1 hall q hqm
      simp only [Parameter.isPlain, Bool.and_eq_true, List.isEmpty_iff] at this
      exact hqa this.2
    rw [normalParameters, if_neg hall, ← annotateAll_bare h he count]
    by_cases hc : annotationsFor p .classFile = []
    · have hr : ¬ annotationsFor p .runtime = [] := fun hr => hnil fun v => by cases v <;> assumption
      rw [if_pos hc, if_neg hr, hc, annotateAll_nil]
    · rw [if_neg hc]

theorem map_relabel_declaration (hv : m.Valid arguments result) (g : Label → Label) :
    m.declarationTypeAnnotations.map (·.relabel g) = m.declarationTypeAnnotations := by
  refine (map_congr_left fun a ha => ?_).trans (map_id _)
  obtain ⟨ha, hc⟩ := mem_filter.1 ha
  obtain ⟨-, hf, -⟩ := TypeAnnotation.validate_iff.1 (hv.typeAnnotations a ha)
  have hl := TypeTarget.labels_eq_nil hf (by simpa using hc)
  unfold TypeAnnotation.relabel
  rw [TypeTarget.map_congr (g := fun l => l) (by simp [hl]), TypeTarget.map_id]
  rfl

/-- **From the events of a method its normal form is built.** -/
theorem builds_normal (h : m.Encodes p) (hv : m.Valid arguments result) (hn : m.AnnotatesLow) :
    BuildsMethod (m.headerOf, m.innerEvents p arguments.length) m.normal := by
  obtain ⟨m₁, n₁, h1, hd1, ha1, hp1⟩ := lead_run h default
  have hs := stands_bare hv hp1
  have hl := length_bareParameters hv
  obtain ⟨m₂, h2, hd2, ha2, hp2⟩ := parameterEvents_run h hv hn default n₁ hd1 (ha1 .runtime) hs hl
  have hs2 : Stands arguments.length m₂
      (annotateAll true (annotationsFor p .runtime) (m.bareParameters arguments.length)) := by
    rw [Stands, hp2]
    split
    next h0 => rw [h0, annotateAll_nil]; exact hs
    next => exact .inl rfl
  obtain ⟨m₃, h3, hd3, ha3, hp3⟩ := parameterEvents_run h hv hn default n₁ hd2
    ((ha2 .classFile (by decide)).trans (ha1 .classFile)) hs2 (by rw [length_annotateAll, hl])
  have hr : ∀ e ∈ p.default.toList.map ClassEvent.annotationDefault ++ (m.codeOf p).map .code,
      e.isInMethod = true ∧ e.isParameter = false ∧ e.Readable := by
    simp only [codeOf, map_append, forall_mem_append, forall_mem_map]
    refine ⟨fun _ _ => ⟨rfl, rfl, trivial⟩, ⟨⟨fun e he => ⟨rfl, rfl, ?_⟩, fun _ _ => ⟨rfl, rfl, trivial⟩⟩,
      fun a ha => ⟨rfl, rfl, readable_type h (mem_filter.1 ha).1⟩⟩, fun _ _ => ⟨rfl, rfl, trivial⟩⟩
    obtain ⟨entry, -, he⟩ := exists_of_mem_right h.code he
    cases e with
    | annotateType => cases he.1
    | _ => trivial
  obtain ⟨m₄, n₄, h4, hp4⟩ := method_run_accepts hr default m₃ n₁
  have hrun : (m.innerEvents p arguments.length).forM accept (inMethod default (methodOf m.headerOf) {})
      = .ok () (inMethod default m₄ n₄) := by
    rw [innerEvents, headOf, append_assoc]
    exact run_forM_append.2 ⟨_, run_forM_append.2 ⟨_, run_forM_append.2 ⟨_, h1, h2⟩, h3⟩, h4⟩
  have hin := isInMethod_innerEvents (m := m) (p := p) arguments.length
  obtain ⟨m', n', hb, hall, -⟩ := method_run hin hrun
  obtain ⟨rfl, rfl⟩ := inMethod_inj hb
  refine ⟨m₄, n₄, hall, ?_⟩
  have hf := soFar_run hin hrun
  rw [flatMap_labels h hv, ofEvents_innerEvents h hv.maxs] at hf
  have hpar : parametersOf m₄ = m.normalParameters := by
    rw [parametersOf_congr hp4, hp3, hp2, ← normalParameters_eq h hp1 arguments.length]
    rfl
  rw [map_relabel_declaration hv] at hf
  have ho : orderMethod m₄ = { soFar m₄ with parameters := parametersOf m₄ } := rfl
  rw [ho, hf, hpar]
  rfl

end Method

/-! ## What the events of classes and fields say -/

theorem not_isCode {t : UInt8} (h : targetsClass t = true ∨ targetsField t = true) : TargetType.isCode t = false := by
  have hall : ∀ t : UInt8, targetsClass t = true ∨ targetsField t = true → TargetType.isCode t = false :=
    Opcode.forall_of_lt (by decide +kernel)
  exact hall t h

theorem RecordComponent.ofClassFile_eq {r : RecordComponent} {b : ClassDoc.RecordComponent} (h : r.Encodes b) :
    RecordComponent.ofClassFile b = .ok r := by
  obtain ⟨name, descriptor, signature, as, ts⟩ := r
  obtain ⟨hn, hd, hs, ha, ht⟩ := h
  have hm : (b.typeAnnotations.mapM fun a => TypeAnnotation.ofClassFile a.1 a.2) = .ok ts :=
    mapM_eq_ok_iff.2 (ht.imp fun a c hac => hac.ofClassFile_eq).flip
  rw [ofClassFile, hm, ok_bind, map_ofClassFile ha, hn, hd, hs]
  rfl

end Model

namespace Model.Field

variable {f : Field} {p : FieldParts}

def headerOf (f : Field) (p : FieldParts) : FieldHeader := ⟨f.access, f.name, f.descriptor, p.value⟩

def innerEvents (f : Field) (p : FieldParts) : List ClassEvent :=
  f.signature.toList.map .signature ++ markers f.deprecated f.synthetic ++ p.annotations.map (fun a => .annotate a.1 a.2)
    ++ p.typeAnnotations.map fun a => .annotateType a.1 a.2

def form (f : Field) (p : FieldParts) : FieldForm :=
  ⟨f.headerOf p, ⟨f.signature, f.deprecated, f.synthetic, p.annotations, p.typeAnnotations⟩⟩

theorem events_form (f : Field) (p : FieldParts) : (f.form p).events = f.innerEvents p := by
  rw [FieldForm.events, CommonForm.annotationEvents, ← append_assoc]
  rfl

theorem isCommon_innerEvents (f : Field) (p : FieldParts) : ∀ e ∈ f.innerEvents p, e.isCommon = true := by
  rw [← events_form]
  exact FieldForm.isCommon_events

theorem ofEvents_innerEvents (h : f.Encodes p) : ofEvents (f.headerOf p) (f.innerEvents p) = f := by
  have hc : ∀ e ∈ f.innerEvents p, e.isCode = false := fun e he =>
      ClassEvent.isCode_of_isCommon (isCommon_innerEvents f p e he)
  have hw : (f.form p).common.Within (f.innerEvents p) := by
    rw [← events_form]
    exact FieldForm.within_events
  obtain ⟨hsignature, hdeprecated, hsynthetic, hannotations, htypes⟩ := CommonForm.mk.inj (CommonForm.ofEvents_of_within hw)
  rw [ofEvents, hsignature, hdeprecated, hsynthetic, hannotations, typesOf_of_not_code hc, htypes,
    filterMap_ofClassFile h.typeAnnotations, map_ofClassFile h.annotations, map_congr_left fun a _ => a.relabel_id, map_id']
  simp [headerOf, ← h.value]

theorem forall_innerEvents (h : f.Encodes p) (hv : f.Valid) :
    ∀ e ∈ f.innerEvents p, e.level = .element ∧ e.labels = [] ∧ e.Readable := by
  simp only [innerEvents, forall_mem_append, forall_mem_map]
  refine ⟨⟨⟨fun _ _ => ⟨rfl, rfl, trivial⟩, forall_markers ⟨rfl, rfl, trivial⟩ ⟨rfl, rfl, trivial⟩⟩,
    fun _ _ => ⟨rfl, rfl, trivial⟩⟩, fun a ha => ?_⟩
  obtain ⟨t, ht, hta⟩ := exists_of_mem_right h.typeAnnotations ha
  obtain ⟨htarget, -⟩ := TypeAnnotation.validate_iff.1 (hv.typeAnnotations t ht)
  exact ⟨rfl, hta.labels_eq_nil (hv.typeAnnotations t ht) (not_isCode (.inr htarget)), ⟨t, hta.ofClassFile_eq⟩⟩

end Model.Field

namespace ClassModel

open Model ModelBuilder

variable {c : ClassModel} {p : ClassParts}

def headerOf (c : ClassModel) : ClassHeader := ⟨c.version, c.access, c.name, c.superClass, c.interfaces⟩

theorem mapM_record (h : c.Encodes p) : p.record.mapM RecordComponent.ofClassFile = .ok (c.record.getD []) :=
  mapM_eq_ok_iff.2 (h.record.imp fun _ _ hr => RecordComponent.ofClassFile_eq hr).flip

/-- The class in the form in which it is read, without its members. -/
def form (c : ClassModel) (p : ClassParts) : ClassForm where
  header := c.headerOf
  source := if c.sourceFile.isSome || c.sourceDebug.isSome then some (c.sourceFile, c.sourceDebug) else none
  common := ⟨c.signature, c.deprecated, c.synthetic, p.annotations, p.typeAnnotations⟩
  enclosing := c.enclosingMethod.map fun e => (e.owner, e.method.map Prod.fst, e.method.map Prod.snd)
  nestHost := c.nestHost
  nestMembers := c.nestMembers
  permitted := c.permittedSubclasses
  inner := c.innerClasses
  record := c.record.map fun _ => p.record
  module := c.module
  fields := []
  methods := []

theorem ownEvents_form (c : ClassModel) (p : ClassParts) : (c.form p).ownEvents = c.headOf p := by
  have hs : (c.form p).source.toList.map (fun s => ClassEvent.source s.1 s.2) =
      if c.sourceFile.isSome || c.sourceDebug.isSome then [.source c.sourceFile c.sourceDebug] else [] := by
    rw [form]
    dsimp only
    split <;> rfl
  have hr : (c.form p).record.toList.map ClassEvent.record = (c.record.map fun _ => ClassEvent.record p.record).toList := by
    rw [form]
    cases c.record <;> rfl
  have he : (c.form p).enclosing.toList.map (fun e => ClassEvent.enclosingMethod e.1 e.2.1 e.2.2) =
      c.enclosingMethod.toList.map fun e => .enclosingMethod e.owner (e.method.map Prod.fst) (e.method.map Prod.snd) := by
    rw [form]
    cases c.enclosingMethod <;> rfl
  simp only [ClassForm.ownEvents, hs, hr, he, headOf, CommonForm.annotationEvents, append_assoc]
  rfl

theorem ofEvents_form (c : ClassModel) (p : ClassParts) : ClassForm.ofEvents c.headerOf (c.headOf p) = c.form p := by
  have hs : ∀ s ∈ (c.form p).source, s.1.isSome || s.2.isSome := by
    intro s hs
    rw [form] at hs
    dsimp only at hs
    split at hs
    next h =>
      cases hs
      exact h
    next => cases hs
  rw [← ownEvents_form]
  exact ClassForm.ofEvents_ownEvents hs

theorem ofEvents_headOf (h : c.Encodes p) : ofEvents c.headerOf (c.headOf p) = { c with fields := [], methods := [] } := by
  obtain ⟨-, hsource, hcommon, henclosing, hhost, hmembers, hpermitted, hinner, hrecord, hmodule, -⟩ :=
    ClassForm.mk.inj (ofEvents_form c p)
  obtain ⟨hsignature, hdeprecated, hsynthetic, hannotations, htypes⟩ := CommonForm.mk.inj hcommon
  have hs : Element.source (c.headOf p) = (c.sourceFile, c.sourceDebug) := by
    rw [← ClassForm.source_ofEvents c.headerOf, ofEvents_form, form]
    cases c.sourceFile <;> cases c.sourceDebug <;> rfl
  have he : (c.enclosingMethod.map fun a => (a.owner, a.method.map Prod.fst, a.method.map Prod.snd)).map (fun e =>
      (⟨e.1, e.2.1.bind fun name => e.2.2.map fun d => (name, d)⟩ : EnclosingMethod)) = c.enclosingMethod := by
    cases c.enclosingMethod with
    | none => rfl
    | some e => cases e with
      | mk owner method => cases method <;> rfl
  have hr : (c.record.map fun _ => p.record).map (fun cs => (cs.mapM RecordComponent.ofClassFile).toOption.getD [])
      = c.record := by
    have hm := mapM_record h
    cases hc : c.record with
    | none => rfl
    | some rs =>
      rw [hc] at hm
      simp [hm, Except.toOption]
  have hc : ∀ e ∈ c.headOf p, e.isCode = false := by
    rw [← ownEvents_form]
    exact ClassForm.forall_mem_ownEvents fun e he => by cases e <;> first | rfl | cases he
  have ht : typesOf (fun l => l) (c.headOf p) = c.typeAnnotations := by
    rw [typesOf_of_not_code hc, htypes, filterMap_ofClassFile h.typeAnnotations,
      map_congr_left fun a _ => a.relabel_id, map_id']
  rw [ofEvents, hsignature, hs, henclosing, hhost, hmembers, hpermitted, hinner, hdeprecated, hsynthetic, hannotations, ht,
    hrecord, hmodule, he, hr, map_ofClassFile h.annotations]
  rfl

theorem forall_headOf (h : c.Encodes p) (hv : c.Valid) :
    ∀ e ∈ c.headOf p, e.isInClass = true ∧ e.labels = [] ∧ e.Readable := by
  have hs : ∀ e ∈ (if c.sourceFile.isSome || c.sourceDebug.isSome then [ClassEvent.source c.sourceFile c.sourceDebug]
      else []), e.isInClass = true ∧ e.labels = [] ∧ e.Readable := by
    split <;> simp [ClassEvent.isInClass, ClassEvent.level, ClassEvent.labels, ClassEvent.Readable]
  have ht : ∀ a ∈ p.typeAnnotations, (ClassEvent.annotateType a.1 a.2).isInClass = true ∧
      (ClassEvent.annotateType a.1 a.2).labels = [] ∧ (ClassEvent.annotateType a.1 a.2).Readable := by
    intro a ha
    obtain ⟨t, ht, hta⟩ := exists_of_mem_right h.typeAnnotations ha
    have hc := not_isCode (.inl (And.left <| Model.TypeAnnotation.validate_iff.1 (hv.typeAnnotations t ht)))
    exact ⟨rfl, hta.labels_eq_nil (hv.typeAnnotations t ht) hc, ⟨t, hta.ofClassFile_eq⟩⟩
  have hr : ∀ e ∈ (c.record.map fun _ => ClassEvent.record p.record).toList,
      e.isInClass = true ∧ e.labels = [] ∧ e.Readable := by
    intro e he
    obtain ⟨_, -, rfl⟩ := Option.map_eq_some_iff.1 (Option.mem_toList.1 he)
    refine ⟨rfl, ?_, ⟨_, mapM_record h⟩⟩
    simp only [ClassEvent.labels, flatMap_eq_nil_iff]
    intro comp hcomp a ha
    obtain ⟨r, hr, hrc⟩ := exists_of_mem_right h.record hcomp
    obtain ⟨t, ht, hta⟩ := exists_of_mem_right hrc.typeAnnotations ha
    have hvt := (hv.components r hr).typeAnnotations t ht
    exact hta.labels_eq_nil hvt (not_isCode (.inr (And.left <| Model.TypeAnnotation.validate_iff.1 hvt)))
  have hm : ∀ e ∈ markers c.deprecated c.synthetic, e.isInClass = true ∧ e.labels = [] ∧ e.Readable :=
    forall_markers ⟨rfl, rfl, trivial⟩ ⟨rfl, rfl, trivial⟩
  simp only [headOf, forall_mem_append, forall_mem_map]
  refine ⟨⟨⟨⟨⟨⟨⟨⟨⟨⟨⟨hs, ?_⟩, ?_⟩, ?_⟩, ?_⟩, ?_⟩, ?_⟩, hm⟩, ?_⟩, ht⟩, hr⟩, ?_⟩ <;>
    exact fun _ _ => ⟨rfl, rfl, trivial⟩

def elementsOf (c : ClassModel) (p : ClassParts) : Elements where
  header := c.headerOf
  events := c.headOf p
  fields := (c.fields.zip p.fields).map fun f => (f.1.headerOf f.2, f.1.innerEvents f.2)
  methods := (c.methods.zip p.methods).map fun m => (m.1.headerOf, m.1.innerEvents m.2 (argumentsOf m.1))

theorem flatten_elementsOf (c : ClassModel) (p : ClassParts) : (c.elementsOf p).flatten = c.eventsOf p := by
  simp only [Elements.flatten, elementsOf, flatMap_map, eventsOf]
  rfl

theorem argumentsOf_eq {m : Model.Method} {arguments : List String} {result : String} (h : m.Valid arguments result) :
    argumentsOf m = arguments.length := by
  rw [argumentsOf, Method.argumentCount_eq h]
  rfl

theorem forall_fields (h : c.Encodes p) (hv : c.Valid) : ∀ f ∈ (c.elementsOf p).fields, ∀ e ∈ f.2,
    e.level = .element ∧ e.labels = [] ∧ e.Readable := by
  simp only [elementsOf, forall_mem_map]
  intro x hx
  exact Field.forall_innerEvents (List.forall₂_zip h.fields hx) (hv.fields x.1 (List.of_mem_zip hx).1)

theorem proper_elementsOf (h : c.Encodes p) (hv : c.Valid) : (c.elementsOf p).Proper where
  events e he := (forall_headOf h hv e he).1
  fields f hf e he := (forall_fields h hv f hf e he).1
  methods := by
    simp only [elementsOf, List.forall_mem_map]
    exact fun x _ => Method.isInMethod_innerEvents _

theorem labelsInCode_elementsOf (h : c.Encodes p) (hv : c.Valid) : (c.elementsOf p).LabelsInCode where
  events e he := (forall_headOf h hv e he).2.1
  fields f hf e he := (forall_fields h hv f hf e he).2.1
  methods := by
    simp only [elementsOf, List.forall_mem_map]
    intro x hx
    obtain ⟨arguments, result, hm⟩ := hv.methods x.1 (List.of_mem_zip hx).1
    exact Method.labels_innerEvents (List.forall₂_zip h.methods hx) hm _

theorem builds_of_annotatesLow (h : c.Encodes p) (hv : c.Valid) (ha : ∀ m ∈ c.methods, m.AnnotatesLow) :
    Builds (c.elementsOf p) c.normal where
  readable e he := (forall_headOf h hv e he).2.2
  fieldsReadable f hf e he := (forall_fields h hv f hf e he).2.2
  methods := by
    simp only [elementsOf, normal, List.forall₂_map_left_iff, List.forall₂_map_right_iff]
    refine ((forall₂_zip h.methods).imp ?_).flip
    rintro _ ⟨m, q⟩ ⟨hm, hq, rfl⟩
    obtain ⟨arguments, result, hvm⟩ := hv.methods m hm
    change BuildsMethod (m.headerOf, m.innerEvents q (argumentsOf m)) m.normal
    rw [argumentsOf_eq hvm]
    exact Method.builds_normal hq hvm (ha m hm)
  model := by
    have hf : (c.elementsOf p).fields.map (fun f => Field.ofEvents f.1 f.2) = c.fields := by
      rw [elementsOf, map_map, ← forall₂_eq_eq_eq, forall₂_map_left_iff]
      refine ((forall₂_zip h.fields).imp ?_).flip
      rintro _ ⟨f, q⟩ ⟨-, hq, rfl⟩
      exact Field.ofEvents_innerEvents hq
    have hc : ofEvents (c.elementsOf p).header (c.elementsOf p).events = { c with fields := [], methods := [] } :=
      ofEvents_headOf h
    rw [hf, hc]
    rfl

theorem annotatesLow (hv : c.Valid) (ha : ∀ m ∈ c.methods, argumentsOf m ≤ 255) : ∀ m ∈ c.methods, m.AnnotatesLow := by
  intro m hm
  obtain ⟨arguments, result, hvm⟩ := hv.methods m hm
  have hn := ha m hm
  rw [argumentsOf_eq hvm] at hn
  exact .of_arguments hvm hn

theorem builds_elementsOf (h : c.Encodes p) (hv : c.Valid) (ha : ∀ m ∈ c.methods, argumentsOf m ≤ 255) :
    Builds (c.elementsOf p) c.normal := builds_of_annotatesLow h hv (annotatesLow hv ha)

theorem reaches (hv : c.Valid) (ha : ∀ m ∈ c.methods, argumentsOf m ≤ 255) :
    ∀ m ∈ c.methods, ∀ v, m.Reaches (argumentsOf m) v := fun m hm => (annotatesLow hv ha m hm).reaches _

/-- **Replaying the events of a class that follows the rules rebuilds it in its normal form.** -/
theorem buildModel_events (c : ClassModel) (hv : c.validate = .ok ()) (hr : c.Representable)
    (ha : ∀ m ∈ c.methods, ∀ count, argumentCount m = .ok count → count ≤ 255) :
    ∃ es, c.events = .ok es ∧ buildModel es = .ok c.normal := by
  have hvc := validate_iff.1 hv
  obtain ⟨p, hp⟩ := exists_encodes hvc hr
  have ha' : ∀ m ∈ c.methods, argumentsOf m ≤ 255 := by
    intro m hm
    obtain ⟨arguments, result, hvm⟩ := hvc.methods m hm
    rw [argumentsOf_eq hvm]
    exact ha m hm _ (Method.argumentCount_eq hvm)
  refine ⟨c.eventsOf p, events_eq (emits hp hvc (reaches hvc ha')), ?_⟩
  rw [← flatten_elementsOf]
  exact (buildModel_flatten (proper_elementsOf hp hvc) (labelsInCode_elementsOf hp hvc)).2 (builds_elementsOf hp hvc ha')

/-- A class with a method of which only the second parameter can be annotated, and whose labels and annotations are not
in the order of their events. -/
def shifted : ClassModel where
  name := "demo/Shifted"
  access := 0x0421
  version := ⟨61, 0⟩
  superClass := some "java/lang/Object"
  methods := [{
    name := "spin"
    descriptor := "(IJ)V"
    access := 0x0001
    parameters := [{}, { annotations := [⟨"LHidden;", .classFile, []⟩, ⟨"LShown;", .runtime, []⟩] }]
    visibleAnnotable := some 1
    invisibleAnnotable := some 1
    typeAnnotations := [⟨TargetType.instanceof, .offset ⟨4⟩, [], ⟨"LInside;", .runtime, []⟩⟩,
      ⟨TargetType.methodReturn, .empty, [.array], ⟨"LOutside;", .classFile, []⟩⟩]
    entries := [.label ⟨7⟩, .instruction ⟨Opcode.goto, [.label ⟨4⟩]⟩, .label ⟨4⟩, .line 3 ⟨7⟩,
      .instruction ⟨Opcode.goto, [.label ⟨7⟩]⟩] }]

theorem shifted_valid : shifted.Valid := by decide +kernel

theorem buildModel_events_shifted : shifted.validate = .ok () ∧ shifted.Representable ∧
    (∀ m ∈ shifted.methods, ∀ count, argumentCount m = .ok count → count ≤ 255) ∧
    (∃ es, shifted.events = .ok es ∧ buildModel es = .ok shifted.normal) ∧
    (shifted.normal.methods.map fun m => m.parameters.map fun q => q.annotations.map Model.Annotation.descriptor)
      = [[[], ["LShown;", "LHidden;"]]] ∧
    (shifted.normal.methods.map fun m => m.typeAnnotations.map fun a => a.target.labels) = [[[], [⟨1⟩]]] := by
  have hv : shifted.validate = .ok () := validate_iff.2 shifted_valid
  have hr : shifted.Representable := ⟨⟨by decide, by decide, by decide, by decide⟩, by decide⟩
  have ha : ∀ m ∈ shifted.methods, ∀ count, argumentCount m = .ok count → count ≤ 255 := by
    simp only [shifted, forall_mem_singleton]
    intro count h
    obtain rfl : 2 = count := Except.ok.inj h
    decide
  exact ⟨hv, hr, ha, buildModel_events shifted hv hr ha, by decide, by decide⟩

end ClassModel

end ClassDoc
