/-
  Members of classes read back from their nodes.
-/
import ClassDoc.Document.Member
import ClassDoc.Proofs.Document.Annotated
import ClassDoc.Proofs.Document.Body
namespace ClassDoc.Model

open Node (Reads)

/-! ## Annotations of members -/

section Annotated

variable {annotations : List Annotation} {typeAnnotations : List TypeAnnotation} {allowed : UInt8 → Bool}

@[simp] theorem Annotation.kind_toNode (a : Annotation) : a.toNode.kind = "annotation" := rfl

@[simp] theorem TypeAnnotation.kind_toNode (a : TypeAnnotation) : a.toNode.kind = "type-annotation" := rfl

/-- The nodes of annotations and type annotations read back, in groups or alone. -/
structure Readable (annotations : List Annotation) (typeAnnotations : List TypeAnnotation) : Prop where
  annotation : ∀ a ∈ annotations, ∀ node, Annotated.ofNode node a.toNode = .ok (.annotate a)
  typeAnnotation : ∀ a ∈ typeAnnotations, ∀ node, Annotated.ofNode node a.toNode = .ok (.annotateType a)

theorem readable_of_valid (hv : ∀ a ∈ annotations, a.validate = .ok ())
    (ht : ∀ a ∈ typeAnnotations, TypeAnnotation.validate allowed a = .ok ())
    (hn : ∀ n ∈ namesOfAnnotated annotations typeAnnotations, n ≠ "")
    (hd : distinctAnnotated annotations typeAnnotations = true) : Readable annotations typeAnnotations := by
  simp only [namesOfAnnotated, List.forall_mem_append, List.forall_mem_flatMap] at hn
  simp only [distinctAnnotated, Bool.and_eq_true, List.all_eq_true] at hd
  refine ⟨fun a ha node => ?_, fun a ha node => ?_⟩
  · simp [Annotated.ofNode, Annotation.ofNode_toNode (hv a ha) (hn.1 a ha) (hd.1 a ha)]
  · simp [Annotated.ofNode, TypeAnnotation.ofNode_toNode (ht a ha) (hn.2 a ha) (hd.2 a ha)]

theorem isMetadata_of_mem_annotated : ∀ n ∈ annotations.map Annotation.toNode ++ typeAnnotations.map TypeAnnotation.toNode,
    n.isMetadata = false := by
  simp only [List.mem_append, List.mem_map]
  rintro n (⟨a, -, rfl⟩ | ⟨a, -, rfl⟩) <;> rfl

end Annotated

/-- **A record component reads back from its node.** -/
theorem RecordComponent.ofNode_toNode {c : RecordComponent} (hv : c.Valid) (hn : ∀ n ∈ c.escapedNames, n ≠ "")
    (hd : distinctAnnotated c.annotations c.typeAnnotations = true) : RecordComponent.ofNode c.toNode = .ok c := by
  simp only [RecordComponent.escapedNames, List.forall_mem_cons] at hn
  have hr := readable_of_valid hv.annotations hv.typeAnnotations hn.2 hd
  have hp : c.toNode.elements.mapM (Annotated.ofNode c.toNode) =
      .ok (c.annotations.map .annotate ++ c.typeAnnotations.map .annotateType) := by
    rw [Node.elements_eq_children isMetadata_of_mem_annotated]
    conv_lhs => rw [RecordComponent.toNode]
    rw [List.mapM_append, mapM_map_eq_ok_map fun a ha => hr.annotation a ha _, ok_bind,
      mapM_map_eq_ok_map fun a ha => hr.typeAnnotation a ha _]
    rfl
  rw [RecordComponent.ofNode, hp]
  simp [RecordComponent.toNode, hn.1, List.filterMap_append, List.filterMap_map, Function.comp_def, Annotated.base?,
    Annotated.type?]

/-! ## Names of members -/

variable {descriptor : String}

theorem memberName_eq_ok {node : Node} {name : String} (suffixed : Bool) (hn : name ≠ "") (hd : descriptor ≠ "")
    (h1 : node.attr? "name" = some (Name.memberText suffixed name descriptor))
    (h2 : node.attr? "descriptor" = some descriptor) : memberName node = .ok (name, descriptor) := by
  cases suffixed <;> simp [memberName, h1, h2, Name.memberFromDocument_memberText _ hn hd]

theorem descriptor_ne_empty_of_checkField (h : Descriptor.checkField descriptor = .ok ()) : descriptor ≠ "" := by
  rintro rfl
  cases h

theorem descriptor_ne_empty_of_splitMethod {p : List String × String}
    (h : Descriptor.splitMethod descriptor = .ok p) : descriptor ≠ "" := by
  rintro rfl
  cases h

/-! ## Fields -/

namespace Field

variable {f : Field}

theorem handlesOk_of_initialises {v : Operand} (h : initialises v descriptor = true) : v.handlesOk = true := by
  cases v <;> first | rfl | cases h

theorem isMetadata_of_mem_children {name : String} : ∀ n ∈ (f.toNode name).children, n.isMetadata = false := by
  simp only [toNode, List.mem_append, List.mem_map]
  rintro n ((⟨v, -, rfl⟩ | ⟨a, -, rfl⟩) | ⟨a, -, rfl⟩)
  · exact Value.isMetadata_of_kind (Value.kind_toNode v)
  · rfl
  · rfl

def toParts (f : Field) : List Part :=
  f.value.toList.map Part.value ++ f.annotations.map (fun a => Part.annotated (.annotate a))
    ++ f.typeAnnotations.map (fun a => Part.annotated (.annotateType a))

theorem parts_toNode (hv : f.Valid) (hr : Readable f.annotations f.typeAnnotations) (name : String) :
    (f.toNode name).parts (readPart (f.toNode name)) = .ok f.toParts := by
  apply Node.parts_eq_ok
  rw [Node.elements_eq_children isMetadata_of_mem_children]
  refine .append (.append ?_ ?_) ?_
  · exact .toList fun v hm => by simp [readPart, Value.fromNode_toNode v (handlesOk_of_initialises (hv.value v hm))]
  · exact .map fun a ha found => by simp [readPart, Value.nodeKind, hr.annotation a ha]
  · exact .map fun a ha found => by simp [readPart, Value.nodeKind, hr.typeAnnotation a ha]

/-- **A field reads back from its node, with the descriptor in its name or without.** -/
theorem ofNode_toNode (hv : f.Valid) (hn : ∀ n ∈ f.escapedNames, n ≠ "")
    (hd : distinctAnnotated f.annotations f.typeAnnotations = true) (suffixed : Bool) :
    ofNode (f.toNode (Name.memberText suffixed f.name f.descriptor)) = .ok f := by
  simp only [escapedNames, List.forall_mem_cons] at hn
  have hr := readable_of_valid hv.annotations hv.typeAnnotations hn.2 hd
  have hm : memberName (f.toNode (Name.memberText suffixed f.name f.descriptor)) = .ok (f.name, f.descriptor) :=
    memberName_eq_ok suffixed hn.1 (descriptor_ne_empty_of_checkField hv.descriptor) (by simp [toNode]) (by simp [toNode])
  rw [ofNode, hm, parts_toNode hv hr]
  simp [toNode, Attr.flag_eq_ok f.deprecated, Attr.flag_eq_ok f.synthetic, toParts, List.filterMap_append,
    List.filterMap_map, Function.comp_def, Part.value?, Part.annotated?, Annotated.base?, Annotated.type?,
    -List.head?_filterMap]

end Field

/-! ## Methods -/

theorem Parameter.ofNode_toNode {p : Parameter} {index : Nat} (hi : index < 2 ^ 64)
    (hv : ∀ a ∈ p.annotations, a.validate = .ok ()) (hn : ∀ n ∈ p.escapedNames, n ≠ "")
    (hd : ∀ a ∈ p.annotations, a.distinct = true) : Parameter.ofNode index (p.toNode index) = .ok p := by
  simp only [Parameter.escapedNames, List.forall_mem_append, List.forall_mem_flatMap, Option.mem_toList] at hn
  have hm : ∀ child ∈ (p.toNode index).children, child.isMetadata = false := by
    simpa [Parameter.toNode] using @isMetadata_of_mem_annotated p.annotations []
  have ha : (p.toNode index).elements.mapM (fun child =>
      if child.kind = "annotation" then Annotation.ofNode child else .error (child.unrecognized (p.toNode index))) =
        .ok p.annotations := by
    rw [Node.elements_eq_children hm]
    exact mapM_map_eq_ok fun a ha => by simp [a.ofNode_toNode (hv a ha) (hn.2 a ha) (hd a ha)]
  rw [Parameter.ofNode, ha]
  have hx : Attr.decimalBelow 0x10000000000000000 "index" index.repr = .ok index := Attr.decimalBelow_repr hi _
  obtain ⟨name, access, annotations⟩ := p
  by_cases h0 : access = 0 <;>
    simp [Parameter.toNode, hx, ensure, Attr.escaped?_eq_ok hn.1, h0]

theorem variableOfNode_variableNode {v : LocalVariable} (hn : v.name ≠ "") : variableOfNode (variableNode v) = .ok v := by
  simp [variableOfNode, variableNode, hn]

namespace Method

variable {m : Method} {node : Node} {found : List Part} {name result : String} {arguments : List String}

/-! ### Parts -/

theorem reads_parameters {ps : List Parameter} {start : Nat}
    (hs : found.countP (fun p => p.parameter?.isSome) = start) (hl : start + ps.length ≤ 2 ^ 64)
    (h : ∀ p ∈ ps, ∀ index < 2 ^ 64, Parameter.ofNode index (p.toNode index) = .ok p) :
    Reads (readPart node) found ((ps.zipIdx start).map fun (p, index) => p.toNode index) (ps.map .parameter) := by
  induction ps generalizing found start with
  | nil => exact .nil found
  | cons p ps ih =>
    rw [List.length_cons] at hl
    refine .cons ?_ (ih ?_ (by omega) fun q hq => h q (by simp [hq]))
    · simp [readPart, show (p.toNode start).kind = "parameter" from rfl, hs, h p (by simp) start (by omega)]
    · rw [List.countP_cons_of_pos (by rfl), hs]

def toParts (m : Method) : List Part :=
  m.exceptions.map Part.throws ++ m.parameters.map Part.parameter
    ++ m.annotations.map (fun a => Part.annotated (.annotate a))
    ++ m.typeAnnotations.map (fun a => Part.annotated (.annotateType a)) ++ m.annotationDefault.toList.map Part.default
    ++ (if m.hasBody then [Part.body m.entries] else []) ++ m.localVariables.map Part.localVariable

theorem isMetadata_of_mem_children {options : DocumentOptions} :
    ∀ n ∈ (m.toNode options name).children, n.isMetadata = false := by
  simp only [toNode, List.mem_append, List.mem_map]
  rintro n ((((((⟨_, -, rfl⟩ | ⟨_, -, rfl⟩) | ⟨_, -, rfl⟩) | ⟨_, -, rfl⟩) | ⟨_, -, rfl⟩) | hb) | ⟨_, -, rfl⟩)
  case inl.inr =>
    split at hb
    · rw [List.mem_singleton.1 hb]; rfl
    · simp at hb
  all_goals rfl

/-- All that a document has of the method can be read back. -/
structure ReadsBack (m : Method) : Prop where
  exceptions : ∀ name ∈ m.exceptions, Name.hasSegments name = true
  parameterCount : m.parameters.length < 2 ^ 64
  parameters : ∀ p ∈ m.parameters, ∀ index < 2 ^ 64, Parameter.ofNode index (p.toNode index) = .ok p
  annotated : Readable m.annotations m.typeAnnotations
  default : ∀ v ∈ m.annotationDefault, AnnotationValue.ofNode v.toNode = .ok v
  entries : ∀ comments body, body.children = m.entries.map (MethodEntry.toNode comments) →
    MethodEntry.ofBody body = .ok m.entries
  localVariables : ∀ v ∈ m.localVariables, v.name ≠ ""

theorem parts_toNode (h : m.ReadsBack) (options : DocumentOptions) (name : String) :
    (m.toNode options name).parts (readPart (m.toNode options name)) = .ok m.toParts := by
  apply Node.parts_eq_ok
  rw [Node.elements_eq_children isMetadata_of_mem_children]
  refine .append (.append (.append (.append (.append (.append ?_ ?_) ?_) ?_) ?_) ?_) ?_
  · exact .map fun name hn found => by simp [readPart, h.exceptions name hn]
  · refine reads_parameters ?_ (by have := h.parameterCount; omega) h.parameters
    simp [Part.parameter?]
  · exact .map fun a ha found => by simp [readPart, h.annotated.annotation a ha]
  · exact .map fun a ha found => by simp [readPart, h.annotated.typeAnnotation a ha]
  · exact .toList fun v hv => by
      simp [readPart, AnnotationValue.ofParent, AnnotationValue.single_toNode, h.default v hv, ensure, Part.default?]
  · split
    · refine .cons ?_ (.nil _)
      simp [readPart, h.entries options.comments ⟨"body", [], _, none⟩ rfl, ensure, Part.body?]
    · exact .nil _
  · refine .map fun v hv found => ?_
    simp [readPart, show (variableNode v).kind = "local-variable" from rfl,
      variableOfNode_variableNode (h.localVariables v hv)]

theorem maxsOf_toNode (h : m.maxStack.isSome = m.maxLocals.isSome) (options : DocumentOptions) (name : String) :
    maxsOf (m.toNode options name) = .ok (m.maxStack, m.maxLocals) := by
  cases hs : m.maxStack <;> cases hl : m.maxLocals <;>
    simp_all [maxsOf, toNode, annotableAttr, maxAttributes]

theorem lookup_maxAttributes (h1 : name ≠ "max-stack") (h2 : name ≠ "max-locals") :
    Attr.lookup m.maxAttributes name = none := by
  rw [maxAttributes]
  split
  · simp [h1.symm, h2.symm]
  · rfl

theorem readsBack_of_valid (hv : m.Valid arguments result)
    (hn : ∀ n ∈ m.escapedNames, n ≠ "") (hp : ∀ n ∈ m.pathNames, Name.hasSegments n = true) (hd : m.distinct = true)
    (hl : m.parameters.length < 2 ^ 64) : m.ReadsBack := by
  simp only [escapedNames, List.forall_mem_cons, List.forall_mem_append, List.forall_mem_flatMap, List.forall_mem_map,
    Option.mem_toList] at hn
  simp only [pathNames, List.forall_mem_append, List.forall_mem_flatMap] at hp
  simp only [distinct, Bool.and_eq_true, List.all_eq_true] at hd
  obtain ⟨-, ⟨⟨hparam, hann⟩, hdef⟩, hvar⟩ := hn
  refine ⟨hp.1, hl, ?_, readable_of_valid hv.annotations hv.typeAnnotations hann hd.1.2, ?_, ?_, hvar⟩
  · exact fun p hm index hi => Parameter.ofNode_toNode hi (hv.parameterAnnotations p hm) (hparam p hm) (hd.1.1 p hm)
  · intro v hm
    have hd2 := hd.2
    rw [Option.mem_def.1 hm] at hd2
    exact AnnotationValue.ofNode_toNode v (hv.default v hm) (hdef v hm) hd2
  · exact fun comments body hc => MethodEntry.ofBody_eq_ok hc hv.entries hp.2

/-- **A method reads back from its node, with the descriptor in its name or without.** -/
theorem ofNode_toNode (hv : m.Valid arguments result)
    (hn : ∀ n ∈ m.escapedNames, n ≠ "") (hp : ∀ n ∈ m.pathNames, Name.hasSegments n = true) (hd : m.distinct = true)
    (hl : m.parameters.length < 2 ^ 64) (options : DocumentOptions) (suffixed : Bool) :
    ofNode (m.toNode options (Name.memberText suffixed m.name m.descriptor)) = .ok m := by
  have hm : memberName (m.toNode options (Name.memberText suffixed m.name m.descriptor)) = .ok (m.name, m.descriptor) :=
    memberName_eq_ok suffixed (hn m.name (by simp [escapedNames])) (descriptor_ne_empty_of_splitMethod hv.descriptor)
      (by simp [toNode]) (by simp [toNode])
  have hb : ((m.toParts.filterMap Part.body?).head?) = if m.hasBody then some m.entries else none := by
    by_cases hb : m.hasBody = true <;>
      simp [toParts, hb, List.filterMap_append, List.filterMap_map, Function.comp_def, Part.body?]
  rw [ofNode, hm, maxsOf_toNode hv.maxs, parts_toNode (readsBack_of_valid hv hn hp hd hl)]
  have he : ((if m.hasBody then some m.entries else none).any List.isEmpty) = false := by
    cases hb : m.hasBody <;> simp_all [hasBody]
  have hg : ((if m.hasBody then some m.entries else none).getD []) = m.entries := by
    cases hb : m.hasBody <;> simp_all [hasBody]
  simp only [ok_bind, hb, he, hg]
  cases hb : m.hasBody <;>
    simp [toNode, annotableAttr, lookup_maxAttributes, Attr.number8?_eq_ok m.visibleAnnotable,
      Attr.number8?_eq_ok m.invisibleAnnotable, Attr.flag_eq_ok m.deprecated,
      Attr.flag_eq_ok m.synthetic, toParts, hb, List.filterMap_append, List.filterMap_map, List.filterMap_cons,
      Function.comp_def, Part.throws?, Part.parameter?, Part.annotated?, Part.default?, Part.localVariable?,
      Annotated.base?, Annotated.type?]

end Method

end ClassDoc.Model
