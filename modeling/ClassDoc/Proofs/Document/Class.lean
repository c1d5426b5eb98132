/-
  Classes read back from their documents.
-/
import ClassDoc.Document.Class
import ClassDoc.Proofs.Document.Member
import ClassDoc.Proofs.Document.Module
import ClassDoc.Proofs.Name.Canonical
namespace ClassDoc.ClassModel

open Node (Reads)

variable {c : ClassModel} {root : Node} {found : List Part} {name : String} {components : List Model.RecordComponent}
  {e : EnclosingMethod} {m : Model.Method} {i : InnerClass} {node : Node} (options : DocumentOptions)

/-! ## Parts -/

@[simp] theorem kind_innerNode (i : InnerClass) : (innerNode i).kind = "inner-class" := rfl

@[simp] theorem kind_enclosingNode (e : EnclosingMethod) : (enclosingNode e).kind = "enclosing-method" := rfl

theorem enclosingOf_enclosingNode (ho : Name.hasSegments e.owner = true)
    (hn : ∀ m ∈ e.method, m.1 ≠ "") : enclosingOf (enclosingNode e) = .ok e := by
  obtain ⟨owner, method⟩ := e
  cases method <;> simp_all [enclosingOf, enclosingNode]

theorem innerOf_innerNode (hc : Name.hasSegments i.name = true)
    (ho : ∀ n ∈ i.outer, Name.hasSegments n = true) (hn : ∀ n ∈ i.simpleName, n ≠ "") :
    innerOf (innerNode i) = .ok i := by
  simp [innerOf, innerNode, hc, Attr.className?_eq_ok ho, Attr.escaped?_eq_ok hn]

theorem componentsOf_eq_ok (node : Node) (hc : node.children = components.map Model.RecordComponent.toNode)
    (h : ∀ r ∈ components, Model.RecordComponent.ofNode r.toNode = .ok r) : componentsOf node = .ok components := by
  rw [componentsOf, Node.elements_eq_children, hc]
  · exact mapM_map_eq_ok fun r hr => within_eq_ok.2 (h r hr)
  · rw [hc]
    simp [Model.RecordComponent.toNode, Node.isMetadata, Node.isMetadataKind]

/-! ## Members -/

theorem fieldNodes_eq (fields : List Model.Field) : ∃ suffixed : String → Bool, fieldNodes fields =
    fields.map fun f => f.toNode (Name.memberText (suffixed f.name) f.name f.descriptor) := by
  refine ⟨Name.isShared (fields.map fun f => (f.name, f.descriptor)), ?_⟩
  rw [fieldNodes, Name.memberNames_eq_map]
  simp [List.zipWith_map_right]

theorem methodNodes_eq (methods : List Model.Method) : ∃ suffixed : String → Bool, methodNodes options methods =
      methods.map fun m => m.toNode options (Name.memberText (suffixed m.name) m.name m.descriptor) := by
  refine ⟨Name.isShared (methods.map fun m => (m.name, m.descriptor)), ?_⟩
  rw [methodNodes, Name.memberNames_eq_map]
  simp [List.zipWith_map_right]

/-! ## The class -/

def toParts (c : ClassModel) : List Part :=
  c.interfaces.map Part.interface ++ c.enclosingMethod.toList.map Part.enclosing ++ c.nestHost.toList.map Part.nestHost
    ++ c.nestMembers.map Part.nestMember ++ c.permittedSubclasses.map Part.permitted ++ c.innerClasses.map Part.inner
    ++ c.annotations.map (fun a => Part.annotated (.annotate a))
    ++ c.typeAnnotations.map (fun a => Part.annotated (.annotateType a)) ++ c.record.toList.map Part.record
    ++ c.module.toList.map Part.module ++ c.fields.map Part.field ++ c.methods.map Part.method

/-- All that a document has of the class can be read back. -/
structure ReadsBack (c : ClassModel) : Prop where
  paths : ∀ n ∈ c.pathNames, Name.hasSegments n = true
  enclosing : ∀ e ∈ c.enclosingMethod, ∀ m ∈ e.method, m.1 ≠ ""
  inner : ∀ i ∈ c.innerClasses, ∀ n ∈ i.simpleName, n ≠ ""
  annotated : Model.Readable c.annotations c.typeAnnotations
  components : ∀ r ∈ c.record.getD [], Model.RecordComponent.ofNode r.toNode = .ok r
  fields : ∀ f ∈ c.fields, ∀ suffixed, Model.Field.ofNode (f.toNode (Name.memberText suffixed f.name f.descriptor)) = .ok f
  methods : ∀ m ∈ c.methods, ∀ options suffixed,
    Model.Method.ofNode (m.toNode options (Name.memberText suffixed m.name m.descriptor)) = .ok m

theorem readsBack_of_valid (hv : c.Valid) (hn : ∀ n ∈ c.escapedNames, n ≠ "")
    (hp : ∀ n ∈ c.pathNames, Name.hasSegments n = true) (hr : c.Representable) : c.ReadsBack := by
  simp only [escapedNames, List.forall_mem_append, List.forall_mem_flatMap, List.forall_mem_map, Option.mem_toList] at hn
  obtain ⟨⟨⟨⟨⟨henc, hinner⟩, hann⟩, hcomp⟩, hfield⟩, hmethod⟩ := hn
  have hpm : ∀ m ∈ c.methods, ∀ n ∈ m.pathNames, Name.hasSegments n = true := by
    simp only [pathNames, List.forall_mem_cons, List.forall_mem_append, List.forall_mem_flatMap] at hp
    exact hp.2.2
  refine ⟨hp, henc, hinner, ?_, ?_, ?_, ?_⟩
  · exact Model.readable_of_valid hv.annotations hv.typeAnnotations hann hr.annotated
  · exact fun r hm => Model.RecordComponent.ofNode_toNode (hv.components r hm) (hcomp r hm) (hr.components r hm)
  · exact fun f hm => Model.Field.ofNode_toNode (hv.fields f hm) (hfield f hm) (hr.fields f hm)
  · intro m hm
    obtain ⟨arguments, result, hvm⟩ := hv.methods m hm
    exact Model.Method.ofNode_toNode hvm (hmethod m hm) (hpm m hm) (hr.methods m hm) (hr.parameters m hm)

theorem elements_toNode (c : ClassModel) : (c.toNode options).elements =
    c.interfaces.map (nameNode "interface") ++ c.enclosingMethod.toList.map enclosingNode
    ++ c.nestHost.toList.map (nameNode "nest-host") ++ c.nestMembers.map (nameNode "nest-member")
    ++ c.permittedSubclasses.map (nameNode "permitted-subclass") ++ c.innerClasses.map innerNode
    ++ c.annotations.map Model.Annotation.toNode ++ c.typeAnnotations.map Model.TypeAnnotation.toNode
    ++ c.record.toList.map (fun components => { kind := "record", children := components.map Model.RecordComponent.toNode })
    ++ c.module.toList.map ModuleInfo.toNode ++ fieldNodes c.fields ++ methodNodes options c.methods := by
  have hf : ∀ {α : Type} (xs : List α) (f : α → Node), (∀ x, (f x).isMetadata = false) →
      (xs.map f).filter (fun child => !child.isMetadata) = xs.map f := by
    intro α xs f hm
    rw [List.filter_eq_self]
    simp [hm]
  obtain ⟨s1, h1⟩ := fieldNodes_eq c.fields
  obtain ⟨s2, h2⟩ := methodNodes_eq options c.methods
  have hl : (if options.listing then [({ kind := "listing", text := some c.listing } : Node)] else []).filter
      (fun child => !child.isMetadata) = [] := by
    cases options.listing <;> rfl
  rw [Node.elements, toNode, h1, h2]
  simp only [List.filter_append, hl, List.nil_append]
  rw [hf _ _ fun _ => rfl, hf _ _ fun _ => rfl, hf _ _ fun _ => rfl, hf _ _ fun _ => rfl, hf _ _ fun _ => rfl,
    hf _ _ fun _ => rfl, hf _ _ fun _ => rfl, hf _ _ fun _ => rfl, hf _ _ fun _ => rfl, hf _ _ fun _ => rfl,
    hf _ _ fun _ => rfl, hf _ _ fun _ => rfl]

theorem parts_toNode (h : c.ReadsBack) (options : DocumentOptions) :
    (c.toNode options).parts (readPart (c.toNode options)) = .ok c.toParts := by
  have hp := h.paths
  simp only [pathNames, List.forall_mem_cons, List.forall_mem_append, List.forall_mem_flatMap, List.forall_mem_map,
    Option.mem_toList] at hp
  obtain ⟨-, ⟨⟨⟨⟨⟨⟨⟨⟨-, hint⟩, henc⟩, hhost⟩, hnest⟩, hperm⟩, hinner⟩, hmod⟩, -⟩⟩ := hp
  obtain ⟨s1, h1⟩ := fieldNodes_eq c.fields
  obtain ⟨s2, h2⟩ := methodNodes_eq options c.methods
  apply Node.parts_eq_ok
  rw [elements_toNode, h1, h2]
  refine .append (.append (.append (.append (.append (.append (.append (.append (.append (.append (.append ?_ ?_) ?_) ?_)
    ?_) ?_) ?_) ?_) ?_) ?_) ?_) ?_
  · exact .map fun name hn found => by simp [readPart, nameNode, hint name hn]
  · exact .toList fun e he => by
      simp [readPart, enclosingOf_enclosingNode (henc e he) (h.enclosing e he), once, ensure, Part.enclosing?]
  · exact .toList fun name hn => by simp [readPart, nameNode, hhost name hn, once, ensure, Part.nestHost?]
  · exact .map fun name hn found => by simp [readPart, nameNode, hnest name hn]
  · exact .map fun name hn found => by simp [readPart, nameNode, hperm name hn]
  · exact .map fun i hi found => by simp [readPart, innerOf_innerNode (hinner i hi).1 (hinner i hi).2 (h.inner i hi)]
  · exact .map fun a ha found => by simp [readPart, h.annotated.annotation a ha]
  · exact .map fun a ha found => by simp [readPart, h.annotated.typeAnnotation a ha]
  · refine .toList fun components hm => ?_
    have hr : ∀ r ∈ components, Model.RecordComponent.ofNode r.toNode = .ok r := fun r hr =>
      h.components r (by simp [Option.mem_def.1 hm, hr])
    simp [readPart, componentsOf_eq_ok ⟨"record", [], _, none⟩ rfl hr, once, ensure, Part.record?]
  · exact .toList fun m hm => by
      simp [readPart, show m.toNode.kind = "module" from rfl, ModuleInfo.ofNode_toNode (hmod m hm), once, ensure,
        Part.module?]
  · exact .map fun f hf found => by
      simp [readPart, show ∀ name, (f.toNode name).kind = "field" from fun _ => rfl, h.fields f hf]
  · exact .map fun m hm found => by
      simp [readPart, show ∀ name, (m.toNode options name).kind = "method" from fun _ => rfl, h.methods m hm]

theorem read_toNode (h : c.ReadsBack) (options : DocumentOptions) : read (c.toNode options) = .ok c := by
  have hp := h.paths
  simp only [pathNames, List.forall_mem_cons, List.forall_mem_append, Option.mem_toList] at hp
  obtain ⟨hname, ⟨⟨⟨⟨⟨⟨⟨⟨hsuper, -⟩, -⟩, -⟩, -⟩, -⟩, -⟩, -⟩, -⟩⟩ := hp
  rw [read, parts_toNode h options]
  simp [toNode, hname, Attr.className?_eq_ok hsuper, Attr.flag_eq_ok c.deprecated, Attr.flag_eq_ok c.synthetic, toParts,
    List.filterMap_append, List.filterMap_map, Function.comp_def, Part.interface?, Part.enclosing?,
    Part.nestHost?, Part.nestMember?, Part.permitted?, Part.inner?, Part.annotated?, Part.record?, Part.module?, Part.field?,
    Part.method?, Model.Annotated.base?, Model.Annotated.type?, -List.head?_filterMap]

theorem checkLabelNodes_eq_ok (h : m.checkLabels = .ok ()) : checkLabelNodes m = .ok () := by
  rw [Model.Method.checkLabels] at h
  obtain ⟨undefined, hu, h⟩ := bind_eq_ok.1 h
  rw [checkLabelNodes, hu]
  cases undefined with
  | none => rfl
  | some p => cases h

/-- **A class that follows the rules reads back from its document.** -/
theorem ofNode_toNode (hv : c.Valid) (hn : ∀ n ∈ c.escapedNames, n ≠ "")
    (hp : ∀ n ∈ c.pathNames, Name.hasSegments n = true) (hr : c.Representable) (options : DocumentOptions) :
    ofNode (c.toNode options) = .ok c := by
  have h1 : (c.toNode options).required "schema" = .ok schema := by simp [toNode]
  have h2 := read_toNode (readsBack_of_valid hv hn hp hr) options
  have h3 : c.methods.forM checkLabelNodes = .ok () := by
    rw [forM_eq_ok]
    intro m hm
    obtain ⟨_, _, hvm⟩ := hv.methods m hm
    exact checkLabelNodes_eq_ok hvm.labels
  have h4 : (c.toNode options).kind = "class" := rfl
  simp only [ofNode, h1, h2, h3, h4, validate_iff.2 hv, within_ok, ok_bind, ne_eq, not_true_eq_false, if_false]
  rfl

/-- **Document round trip: a class that passes `validate`, whose escaped names are not empty and whose class and package
names have no empty segment, is read back from its document, whatever is added for people to read.** -/
theorem document_roundTrip (c : ClassModel) (hv : c.validate = .ok ()) (hn : ∀ n ∈ c.escapedNames, n ≠ "")
    (hp : ∀ n ∈ c.pathNames, Name.hasSegments n = true) (hr : c.Representable) (options : DocumentOptions) :
    ofNode (c.toNode options) = .ok c :=
  ofNode_toNode (validate_iff.1 hv) hn hp hr options

/-- A class with nested annotations, a constant, a loop and two methods of one name. -/
def counter : ClassModel where
  name := "demo/Counter"
  access := 0x0421
  version := ⟨61, 0⟩
  superClass := some "java/lang/Object"
  annotations := [⟨"Ldemo/Meta;", .runtime, [
    ("value", .array [.enum "Ldemo/Mode;" "FAST", .value (.float ⟨0x7FC00001⟩)]),
    ("next", .nested "Ldemo/Meta;" [("value", .classRef "I")])]⟩]
  fields := [{ name := "count", descriptor := "I", access := 0x0001, value := some (.int 7) }]
  methods := [
    { name := "spin", descriptor := "()V", access := 0x0001, maxStack := some 0, maxLocals := some 1
      entries := [.label ⟨0⟩, .line 12 ⟨0⟩, .frame ⟨.same, [], []⟩, .instruction ⟨Opcode.goto, [.label ⟨0⟩]⟩] },
    { name := "spin", descriptor := "(I)V", access := 0x0401, parameters := [{ name := some "times", access := 16 }] }]

theorem counter_valid : counter.Valid := by decide +kernel

theorem document_roundTrip_counter : counter.validate = .ok () ∧ (∀ n ∈ counter.escapedNames, n ≠ "") ∧
    (∀ n ∈ counter.pathNames, Name.hasSegments n = true) ∧ counter.Representable ∧
    ofNode (counter.toNode ⟨true, true⟩) = .ok counter := by
  have hv : counter.validate = .ok () := validate_iff.2 counter_valid
  have hn : ∀ n ∈ counter.escapedNames, n ≠ "" := by decide
  have hp : ∀ n ∈ counter.pathNames, Name.hasSegments n = true := List.all_eq_true.1 (by decide)
  have hr : counter.Representable := ⟨⟨by decide, by decide, by decide, by decide⟩, by decide⟩
  exact ⟨hv, hn, hp, hr, document_roundTrip counter hv hn hp hr ⟨true, true⟩⟩

end ClassDoc.ClassModel
