/-
  Methods are read back.
-/
import ClassDoc.Proofs.ClassFile.Element
import ClassDoc.Proofs.Code.Attribute
namespace ClassDoc

open List

variable {full : Bool} {events : List ClassEvent} {header : MethodHeader} {code : List CodeEvent} {condition : Bool}
  {arguments : Nat} {V : PoolView}

theorem puts_classes (names : List String) :
    Puts full (encodeClasses names) fun V bytes => Decodes (decodeClasses V) bytes names :=
  puts_encodeList_self fun name _ => puts_indexBytes (puts_classRef name)

/-! ## Parameters -/

theorem puts_parameters (parameters : List (Option String × UInt16)) :
    Puts full (encodeParameters parameters) fun V bytes =>
      Decodes (Decode.shortList (decodeParameter V)) bytes parameters := by
  have h : ∀ p ∈ parameters, Puts full (do return Bytes.u2 (← Pool.optionalUtf8 p.1) ++ Bytes.u2 p.2) fun V bytes =>
      Decodes (decodeParameter V) bytes p :=
    fun p _ => (puts_optionalUtf8 p.1).map fun V i hi => (decodes_index hi).bind (decodes_u2 p.2).map
  exact (Puts.lift _).bind fun count => (Puts.mapM h).map fun V parts hp hc => .shortList hc hp.flip

def annotatedParameters (visible : Bool) (count : Nat) (annotations : List (UInt8 × Annotation)) : List ClassEvent :=
  (List.range count).flatMap fun i => (annotations.filterMap fun a => if a.1.toNat = i then some a.2 else none).map
    fun a => .annotateParameter (UInt8.ofNat i) visible a

def countedParameters (visible : Bool) (arguments count : Nat) (annotations : List (UInt8 × Annotation)) :
    List ClassEvent :=
  (if count = arguments then [] else [.annotableParameterCount (UInt8.ofNat count) visible])
    ++ annotatedParameters visible count annotations

def hasParameterAnnotations (visible : Bool) (events : List ClassEvent) : Bool :=
  !((Element.annotableParameters visible events).isNone && (Element.parameterAnnotations visible events).isEmpty)

def annotableCount (visible : Bool) (arguments : Nat) (events : List ClassEvent) : Nat :=
  ((Element.annotableParameters visible events).map UInt8.toNat).getD arguments

def parameterEvents (visible : Bool) (arguments : Nat) (events : List ClassEvent) : List ClassEvent :=
  countedParameters visible arguments (annotableCount visible arguments events)
    (Element.parameterAnnotations visible events)

def ParametersInRange (visible : Bool) (arguments : Nat) (events : List ClassEvent) : Prop :=
  ∀ a ∈ Element.parameterAnnotations visible events, a.1.toNat < annotableCount visible arguments events

theorem byParameter_eq_ok {count : Nat} {annotations : List (UInt8 × Annotation)} {lists : List (List Annotation)}
    (h : byParameter count annotations = .ok lists) :
    lists.length = count ∧ (∀ a ∈ annotations, a.1.toNat < count) ∧ ∀ visible, (lists.zipIdx.flatMap fun l =>
      l.1.map fun a => ClassEvent.annotateParameter (UInt8.ofNat l.2) visible a)
        = annotatedParameters visible count annotations := by
  unfold byParameter at h
  split at h
  next => exact nomatch h
  next hnone =>
    obtain rfl := Except.ok.inj h
    refine ⟨by simp, by simpa using hnone, fun visible => ?_⟩
    have hz : (List.range count).zipIdx = (List.range count).map fun i => (i, i) :=
      ext_getElem (by simp) (by simp)
    rw [annotatedParameters, zipIdx_map, flatMap_map, hz, flatMap_map]
    rfl

theorem puts_byParameter (lists : List (List Annotation)) :
    Puts full (encodeByParameter lists) fun V bytes => ∃ count rest, bytes = count ++ rest ∧
      Bytes.count1 lists.length = .ok count ∧ Decodes (Decode.times lists.length (decodeAnnotations V)) rest lists := by
  refine (Puts.lift _).bind fun count => (Puts.mapM fun as _ => puts_annotations as).map fun V parts hp hc =>
    ⟨count, parts.flatten, rfl, hc, ?_⟩
  exact .times hp.flip

section
variable {visible : Bool} {descriptor : String} {arguments : List String} {result : String}
  (hs : ofDescriptor (Descriptor.splitMethod descriptor) = .ok (arguments, result))
include hs

theorem decodes_parameterAnnotations {count : Nat} {annotations : List (UInt8 × Annotation)}
    {lists : List (List Annotation)} {head rest : Bytes} (hb : byParameter count annotations = .ok lists)
    (hc : Bytes.count1 lists.length = .ok head)
    (hl : Decodes (Decode.times lists.length (decodeAnnotations V)) rest lists) :
    Decodes (decodeParameterAnnotations V visible descriptor) (head ++ rest)
      (countedParameters visible arguments.length count annotations) := by
  obtain ⟨rfl, -, hev⟩ := byParameter_eq_ok hb
  obtain ⟨hd, hn⟩ := count1_eq_ok hc
  refine hd.bind (.lift_bind hs ?_)
  simp only [hn, countedParameters, ← hev]
  exact hl.map

theorem puts_countedParameters (method : String) (count : Nat) (annotations : List (UInt8 × Annotation)) :
    Puts full (do
      let parameters ← byParameter count annotations
      return [← Attribute.make (Attribute.parameterAnnotationsName visible) (encodeByParameter parameters)])
      fun V attributes => Attribute.AllReadAs V (readMethodPart V method descriptor) attributes
        [.parameterAnnotations (countedParameters visible arguments.length count annotations)] ∧
          ∀ a ∈ annotations, a.1.toNat < count := by
  refine PutsIn.bind_exists (PutsIn.lift _) fun lists hb => ?_
  obtain ⟨-, -, hb⟩ := hb
  refine Puts.mono (PutsIn.map (Q := fun _ V attr => Attribute.ReadAs V (readMethodPart V method descriptor) attr
    (· = .parameterAnnotations (countedParameters visible arguments.length count annotations)))
    (putsIn_make (fun V => readMethodPart V method descriptor)
      ((puts_byParameter lists).mono fun V bytes h => ?_)) fun P V attr h => .cons h .nil) fun V as h _ =>
      ⟨h, (byParameter_eq_ok hb).2.1⟩
  obtain ⟨head, rest, rfl, hc, hl⟩ := h
  refine Consumes.mono (P := (· = some (.parameterAnnotations
    (countedParameters visible arguments.length count annotations)))) ?_ fun o ho => ⟨_, ho, rfl⟩
  cases visible <;> exact .take_map (decodes_parameterAnnotations hs hb hc hl) rfl

theorem puts_parameterAnnotations (method : String) (events : List ClassEvent) :
    Puts full (parameterAnnotationsAttribute visible arguments.length events) fun V attributes =>
      Attribute.AllReadAs V (readMethodPart V method descriptor) attributes
        (if hasParameterAnnotations visible events then
          [.parameterAnnotations (parameterEvents visible arguments.length events)] else []) ∧
        ParametersInRange visible arguments.length events := by
  rw [hasParameterAnnotations, ParametersInRange]
  unfold parameterAnnotationsAttribute parameterEvents annotableCount
  dsimp only
  cases hg : (Element.annotableParameters visible events).isNone &&
    (Element.parameterAnnotations visible events).isEmpty with
  | true =>
    rw [Bool.and_eq_true, List.isEmpty_iff] at hg
    exact .pure fun V => ⟨Forall₂.nil, by simp [hg.2]⟩
  | false =>
    have hp := fun count => @puts_countedParameters full visible _ _ _ hs method count
      (Element.parameterAnnotations visible events)
    cases Element.annotableParameters visible events with
    | none => exact hp _
    | some count => exact hp _

end

/-! ## The attributes of a method -/

def methodNames : List String :=
  [Attribute.codeName, Attribute.exceptionsName, Attribute.methodParametersName, Attribute.parameterAnnotationsName true,
    Attribute.parameterAnnotationsName false, Attribute.annotationDefaultName]

theorem readMethodPart_of_not_mem (method descriptor : String) (V : PoolView) (name : String)
    (h : name ∉ methodNames) : readMethodPart V method descriptor name
      = readElementPart V (.methodAttribute name method descriptor) name := by
  simp only [methodNames, mem_cons, not_mem_nil, or_false, not_or] at h
  obtain ⟨h₁, h₂, h₃, h₄, h₅, h₆⟩ := h
  funext length
  rw [readMethodPart, if_neg h₁, if_neg h₂, if_neg h₃, if_neg h₄, if_neg h₅, if_neg h₆]

theorem readsAny_method (method descriptor : String) : ReadsAny fun V => readMethodPart V method descriptor :=
  readsAny_of (readMethodPart_of_not_mem method descriptor) (by decide)

theorem readsMarkers_method (method descriptor : String) : ReadsMarkers fun V => readMethodPart V method descriptor :=
  readsMarkers_of (readMethodPart_of_not_mem method descriptor) (by decide)

theorem consumes_codePart (V : PoolView) (method descriptor : String) (bytes : Bytes) :
    Consumes (readMethodPart V method descriptor Attribute.codeName bytes.length) bytes []
      fun o => ∃ rest n, o = some (.code ⟨bytes ++ rest, n⟩) := by
  rw [readMethodPart, if_pos rfl]
  exact .get_bind fun rest n _ => .take_map (decodes_skip bytes) ⟨rest, n, rfl⟩

/-- The code is what is read back of that in the events. -/
def CodeReadAs (P : Pool) (header : MethodHeader) (events : List ClassEvent) (code : List CodeEvent) : Prop :=
  if (Element.code events).isEmpty then code = []
  else ∃ layout maxs, (Body.ofEvents (Element.code events)).ReadBack header.access header.descriptor P layout maxs code

def IsCode (V : PoolView) (code : List CodeEvent) (p : Part) : Prop :=
  ∃ bytes rest n, p = .code ⟨bytes ++ rest, n⟩ ∧ Consumes (readCode V) bytes (code.map .code) fun _ => True

theorem putsIn_codeAttribute (header : MethodHeader) (events : List ClassEvent)
    (hl : ∀ x ∈ (Body.ofEvents (Element.code events)).items, x.loads = true) :
    PutsIn true (Attribute.makeIf (!(Element.code events).isEmpty) Attribute.codeName
        ((Body.ofEvents (Element.code events)).encode header.access header.descriptor))
      fun P V attributes => ∃ code, CodeReadAs P header events code ∧
        Forall₂ (Attribute.ReadAs V (readMethodPart V header.name header.descriptor)) attributes
          (if !(Element.code events).isEmpty then [IsCode V code] else []) := by
  unfold CodeReadAs
  cases (Element.code events).isEmpty with
  | true => exact .pure fun P V => ⟨[], rfl, .nil⟩
  | false =>
    refine PutsIn.map (PutsIn.bind (puts_utf8 _) fun name =>
      ((Body.putsIn_encode header.access header.descriptor hl).inPlace _).map fun P V bytes h hn => ?_)
      fun P V attributes h => h
    obtain ⟨layout, maxs, code, hread, hr⟩ := h
    refine ⟨code, ⟨layout, maxs, hread⟩, .cons ⟨_, hn, ?_⟩ .nil⟩
    refine (consumes_codePart V header.name header.descriptor bytes).mono ?_
    rintro o ⟨rest, n, rfl⟩
    exact ⟨_, rfl, bytes, rest, n, rfl, hr.readCode hread.events_eq⟩

def methodParts (header : MethodHeader) (arguments : Nat) (events : List ClassEvent) (code : Option Input) :
    List Part :=
  Part.ofElement events
    (code.toList.map Part.code ++ (if !header.exceptions.isEmpty then [Part.exceptions header.exceptions] else []))
    (if !(Element.parameters events).isEmpty then [Part.parameters (Element.parameters events)] else [])
    ((if hasParameterAnnotations true events then
        [Part.parameterAnnotations (parameterEvents true arguments events)] else [])
      ++ (if hasParameterAnnotations false events then
        [Part.parameterAnnotations (parameterEvents false arguments events)] else [])
      ++ (Element.annotationDefault events).toList.map Part.annotationDefault)

section
variable (method descriptor : String)

theorem puts_exceptionsAttribute (names : List String) :
    PutsAs full (fun V => readMethodPart V method descriptor)
      (Attribute.makeIf (!names.isEmpty) Attribute.exceptionsName (encodeClasses names))
      (if !names.isEmpty then [Part.exceptions names] else []) :=
  puts_makeIf_take (fun V => readMethodPart V method descriptor) (fun _ _ => rfl) _ (puts_classes names)

theorem puts_parametersAttribute (parameters : List (Option String × UInt16)) :
    PutsAs full (fun V => readMethodPart V method descriptor)
      (Attribute.makeIf (!parameters.isEmpty) Attribute.methodParametersName (encodeParameters parameters))
      (if !parameters.isEmpty then [Part.parameters parameters] else []) :=
  puts_makeIf_take (fun V => readMethodPart V method descriptor) (fun _ _ => rfl) _ (puts_parameters parameters)

theorem puts_defaultAttribute (value : Option ElementValue) :
    PutsAs full (fun V => readMethodPart V method descriptor)
      (Attribute.makeFor value Attribute.annotationDefaultName ElementValue.encode)
      (value.toList.map Part.annotationDefault) := by
  refine puts_makeFor (fun V => readMethodPart V method descriptor) value _ fun v _ =>
    (puts_value v).mono fun V bytes hb => ?_
  exact .take_map (.bytesLeft hb) rfl

end

theorem putsIn_methodAttributes {arguments : List String} {result : String}
    (hs : ofDescriptor (Descriptor.splitMethod header.descriptor) = .ok (arguments, result))
    (hl : ∀ x ∈ (Body.ofEvents (Element.code events)).items, x.loads = true) :
    PutsIn true (methodAttributes header arguments.length events) fun P V attributes =>
      ∃ code, CodeReadAs P header events code ∧
        Forall₂ (Attribute.ReadAs V (readMethodPart V header.name header.descriptor)) attributes
          ((if !(Element.code events).isEmpty then [IsCode V code] else [])
            ++ exactly (methodParts header arguments.length events none)) ∧ Element.IsOutside events ∧
        ∀ visible, ParametersInRange visible arguments.length events := by
  refine (putsIn_codeAttribute header events hl).bind fun code =>
    PutsIn.bind (puts_exceptionsAttribute header.name header.descriptor _) fun exceptions =>
    PutsIn.bind (puts_signature (readsAny_method header.name header.descriptor) _) fun signature =>
    PutsIn.bind (puts_parametersAttribute header.name header.descriptor _) fun parameters =>
    PutsIn.bind (puts_markers (readsMarkers_method header.name header.descriptor) events) fun markers =>
    PutsIn.bind (puts_annotationAttributes (readsAny_method header.name header.descriptor) _ _) fun annotations =>
    PutsIn.bind (puts_parameterAnnotations hs header.name events) fun visible =>
    PutsIn.bind (puts_parameterAnnotations hs header.name events) fun invisible =>
    PutsIn.map (puts_defaultAttribute header.name header.descriptor _)
    fun P V default h₉ h₈ h₇ h₆ h₅ h₄ h₃ h₂ h₁ => ?_
  obtain ⟨code, hcode, h₁⟩ := h₁
  refine ⟨code, hcode, ?_, h₆.2, fun visible => ?_⟩
  rotate_left
  · cases visible with
    | true => exact h₇.2
    | false => exact h₈.2
  simp only [methodParts, Part.ofElement, Option.toList_none, map_nil, nil_append, exactly_append]
  have h := rel_append (rel_append (rel_append (rel_append (rel_append (rel_append (rel_append
    (rel_append h₁ h₂) h₃) h₄) h₅) h₆.1) h₇.1) h₈.1) h₉
  simpa only [append_assoc] using h

/-! ## The events of a method -/

def methodReadBack (header : MethodHeader) (arguments : Nat) (events : List ClassEvent) : List ClassEvent :=
  .method header :: (Element.headEvents events
    ++ (Element.parameters events).map (fun p => ClassEvent.parameter p.1 p.2)
    ++ Element.annotationEvents events
    ++ (if hasParameterAnnotations true events then parameterEvents true arguments events else [])
    ++ (if hasParameterAnnotations false events then parameterEvents false arguments events else [])
    ++ (Element.annotationDefault events).toList.map ClassEvent.annotationDefault)

section
variable {header : MethodHeader} {arguments : Nat} {events : List ClassEvent} {code : Option Input}

theorem filter_methodParts : (methodParts header arguments events code).filter Part.isCommon = Part.common events := by
  refine Part.filter_ofElement events ?_ ?_ ?_
  all_goals
    intro p hp
    simp only [mem_append, mem_map, mem_ite_nil_right, mem_singleton] at hp
  · rcases hp with ⟨input, -, rfl⟩ | ⟨-, rfl⟩ <;> rfl
  · obtain ⟨-, rfl⟩ := hp
    rfl
  · rcases hp with (⟨-, rfl⟩ | ⟨-, rfl⟩) | ⟨v, -, rfl⟩ <;> rfl

theorem methodEvents_methodParts (ho : Element.IsOutside events) :
    methodEvents header.access header.name header.descriptor (methodParts header arguments events code)
      = methodReadBack header arguments events := by
  have hc := @filter_methodParts header arguments events code
  simp only [methodEvents, Part.headEvents_of_common hc, Part.annotationEvents_of_common hc ho, Part.last?]
  simp only [methodParts]
  rw [Part.filterMap_ofElement, Part.filterMap_ofElement, Part.filterMap_ofElement, Part.flatMap_ofElement,
    methodReadBack]
  · simp only [filterMap_append, flatMap_append, filterMap_ite, flatMap_ite, filterMap_map,
      Function.comp_def, filterMap_none, filterMap_some, Option.toList_none, Option.toList_some, ite_self,
      nil_append, append_nil, flatMap_map, getD_getLast?_ite, getLast?_toList, flatMap_nil_const,
      append_assoc]
  · intro p hp
    cases p with
    | parameterAnnotations => exact nomatch hp
    | _ => rfl
  · intro p hp
    cases p with
    | annotationDefault => exact nomatch hp
    | _ => rfl
  · intro p hp
    cases p with
    | parameters => exact nomatch hp
    | _ => rfl
  · intro p hp
    cases p with
    | exceptions => exact nomatch hp
    | _ => rfl

end

/-! ## The bytes of a method -/

def methodBytes (header : MethodHeader) (events : List ClassEvent) : PoolM Bytes := do
  let (arguments, _) ← ofDescriptor (Descriptor.splitMethod header.descriptor)
  let name ← Pool.utf8 header.name
  let descriptor ← Pool.utf8 header.descriptor
  let attributes ← methodAttributes header arguments.length events
  let attributes ← Attribute.encodeAll attributes
  return Bytes.u2 header.access ++ Bytes.u2 name ++ Bytes.u2 descriptor ++ attributes

/-- The events `out` are read back of the method. -/
def MethodReadAs (P : Pool) (header : MethodHeader) (events out : List ClassEvent) : Prop :=
  ∃ arguments result code, ofDescriptor (Descriptor.splitMethod header.descriptor) = .ok (arguments, result) ∧
    (∀ visible, ParametersInRange visible arguments.length events) ∧ CodeReadAs P header events code ∧
    out = methodReadBack header arguments.length events ++ code.map .code

theorem filterMap_methodParts {α : Type} {f : Part → Option α} (hf : ∀ p, (∀ input, p ≠ .code input) → f p = none)
    (header : MethodHeader) (arguments : Nat) (events : List ClassEvent) (code : Option Input) :
    (methodParts header arguments events code).filterMap f = (code.toList.map Part.code).filterMap f := by
  rw [methodParts, Part.filterMap_ofElement]
  · simp [filterMap_append, filterMap_ite, hf]
  · intro p hp
    refine hf p ?_
    rintro input rfl
    exact nomatch hp

theorem exists_methodParts {parts : List Part} (hcode : condition = false → code = [])
    (h : Forall₂ (fun (P : Part → Prop) p => P p)
      ((if condition then [IsCode V code] else []) ++ exactly (methodParts header arguments events none)) parts) :
    ∃ input, parts = methodParts header arguments events input ∧ ((input = none ∧ code = []) ∨
      ∃ i, input = some i ∧ Consumes (readAt i (readCode V)) [] (code.map .code) fun _ => True) := by
  cases condition with
  | false => exact ⟨none, eq_of_exactly h, .inl ⟨rfl, hcode rfl⟩⟩
  | true =>
    obtain _ | ⟨⟨bytes, rest, n, rfl, hr⟩, h⟩ := h
    refine ⟨some ⟨bytes ++ rest, n⟩, ?_, .inr ⟨_, rfl, consumes_readAt hr rest n⟩⟩
    rw [eq_of_exactly h]
    rfl

theorem consumes_methodBody {attributes : List Attribute} {bytes : Bytes}
    (ha : Forall₂ (Attribute.ReadAs V (readMethodPart V header.name header.descriptor)) attributes
      ((if condition then [IsCode V code] else []) ++ exactly (methodParts header arguments events none)))
    (ho : Element.IsOutside events) (hcode : condition = false → code = [])
    (hb : Attribute.encodeAll attributes = .ok bytes) :
    Consumes (readMethodBody V header.access header.name header.descriptor) bytes
      (methodReadBack header arguments events ++ code.map .code) fun _ => True := by
  refine (consumes_attributes ha hb).bind_nil fun parts hp => ?_
  obtain ⟨input, rfl, hinput⟩ := exists_methodParts hcode hp
  rw [methodEvents_methodParts ho]
  refine (Consumes.emitEvents _).bind_nil fun _ _ => ?_
  rw [Part.last?, filterMap_methodParts]
  · rcases hinput with ⟨rfl, rfl⟩ | ⟨i, rfl, hr⟩
    · exact .pure trivial
    · exact hr
  · intro p hp
    cases p with
    | code input => exact absurd rfl (hp input)
    | _ => rfl

/-- **A method is read back.** -/
theorem putsIn_methodBytes (header : MethodHeader) (events : List ClassEvent)
    (hl : ∀ x ∈ (Body.ofEvents (Element.code events)).items, x.loads = true) :
    PutsIn true (methodBytes header events) fun P V bytes =>
      (∃ out, MethodReadAs P header events out ∧ Consumes (readMethod V) bytes out fun _ => True) ∧
        Decodes skipMember bytes () := by
  refine PutsIn.bind_exists (PutsIn.lift _) fun split hs => ?_
  obtain ⟨-, -, hs⟩ := hs
  obtain ⟨arguments, result⟩ := split
  refine PutsIn.bind (puts_utf8 header.name) fun name => PutsIn.bind (puts_utf8 header.descriptor) fun descriptor =>
    PutsIn.bind (putsIn_methodAttributes hs hl) fun attributes =>
    PutsIn.map (PutsIn.lift _) fun P V bytes hb ha hd hn _ => ⟨?_, decodes_skipMember hb⟩
  obtain ⟨code, hcode, ha, ho, hrange⟩ := ha
  refine ⟨_, ⟨arguments, result, code, hs, hrange, hcode, rfl⟩, ?_⟩
  have hempty : (!(Element.code events).isEmpty) = false → code = [] := by
    intro he
    rwa [CodeReadAs, if_pos (by simpa using he)] at hcode
  simp only [append_assoc]
  exact .take_bind (decodes_u2 _) (.take_bind (decodes_index hn) (.take_bind (decodes_index hd)
    (.inside _ (consumes_methodBody ha ho hempty hb))))

end ClassDoc
