/-
  Nodes that are only there for people to read never matter.
-/
import ClassDoc.Document.Class
import ClassDoc.Proofs.Fault
namespace ClassDoc

open List

theorem mapM_map_eq_map {α β γ δ : Type} {f : α → β} {g : β → Except Fault γ} {h : α → Except Fault δ} {k : δ → γ}
    (hk : ∀ x, g (f x) = (h x).map k) (xs : List α) : (xs.map f).mapM g = (xs.mapM h).map (List.map k) := by
  induction xs with
  | nil => rfl
  | cons x xs ih =>
    rw [map_cons, mapM_cons, mapM_cons, ih, hk x]
    cases h x with
    | error f => rfl
    | ok y => cases xs.mapM h <;> rfl

namespace Node

mutual

/-- The node without all nodes below it that are only there for people to read. -/
def strip : Node → Node
  | ⟨kind, attributes, children, text⟩ => ⟨kind, attributes, stripAll children, text⟩

def stripAll : List Node → List Node
  | [] => []
  | n :: rest => if n.isMetadata then stripAll rest else n.strip :: stripAll rest

end

variable (n : Node) {α : Type}

theorem mk_stripAll (kind : String) (attributes : List (String × String)) (children : List Node) (text : Option String) :
    (⟨kind, attributes, stripAll children, text⟩ : Node) = strip ⟨kind, attributes, children, text⟩ := rfl

@[simp] theorem kind_strip : n.strip.kind = n.kind := by
  cases n
  rfl

@[simp] theorem attributes_strip : n.strip.attributes = n.attributes := by
  cases n
  rfl

@[simp] theorem isMetadata_strip : n.strip.isMetadata = n.isMetadata := by
  rw [isMetadata, isMetadata, kind_strip]

@[simp] theorem attr?_strip (name : String) : n.strip.attr? name = n.attr? name := by
  rw [attr?, attr?, attributes_strip]

@[simp] theorem required_strip (name : String) : n.strip.required name = n.required name := by
  rw [required, required, attr?_strip, kind_strip]

@[simp] theorem unrecognized_strip (parent : Node) : n.strip.unrecognized parent.strip = n.unrecognized parent := by
  rw [unrecognized, unrecognized, kind_strip, kind_strip]

theorem stripAll_eq_map (ns : List Node) : stripAll ns = (ns.filter fun child => !child.isMetadata).map strip := by
  induction ns with
  | nil => rfl
  | cons n ns ih =>
    rw [stripAll, ih]
    cases hn : n.isMetadata with
    | true => simp [hn]
    | false => simp [hn]

@[simp] theorem children_strip : n.strip.children = stripAll n.children := by
  cases n
  rfl

@[simp] theorem elements_strip : n.strip.elements = n.elements.map strip := by
  have hall : ∀ child ∈ n.elements.map strip, (!child.isMetadata) = true := by
    intro child hc
    obtain ⟨element, he, rfl⟩ := mem_map.1 hc
    rw [isMetadata_strip]
    exact (mem_filter.1 he).2
  rw [elements, children_strip, stripAll_eq_map]
  exact filter_eq_self.2 hall

theorem readParts_map_strip {read read' : List α → Node → Except Fault α}
    (h : ∀ found child, read found child.strip = read' found child) (found : List α) (ns : List Node) :
    readParts read found (ns.map strip) = readParts read' found ns := by
  induction ns generalizing found with
  | nil => rfl
  | cons n ns ih =>
    rw [map_cons, readParts, readParts, h found n]
    cases read' found n with
    | error f => rfl
    | ok part => exact ih (part :: found)

theorem parts_strip {read read' : List α → Node → Except Fault α}
    (h : ∀ found child, read found child.strip = read' found child) : n.strip.parts read = n.parts read' := by
  rw [parts, parts, elements_strip, readParts_map_strip h]

end Node

open Node

/-! ## Attributes -/

namespace Attr

variable (n : Node) (name : String)

@[simp] theorem numberBelow_strip (limit : Nat) : numberBelow limit n.strip name = numberBelow limit n name := by
  rw [numberBelow, numberBelow, required_strip]

@[simp] theorem number8_strip : number8 n.strip name = number8 n name := by
  rw [number8, number8, numberBelow_strip]

@[simp] theorem number16_strip : number16 n.strip name = number16 n name := by
  rw [number16, number16, numberBelow_strip]

@[simp] theorem number8?_strip : number8? n.strip name = number8? n name := by
  rw [number8?, number8?, attr?_strip, number8_strip]

@[simp] theorem flag_strip : flag n.strip name = flag n name := by
  rw [flag, flag, attr?_strip]

@[simp] theorem className_strip : className n.strip name = className n name := by
  rw [className, className, required_strip]

@[simp] theorem className?_strip : className? n.strip name = className? n name := by
  rw [className?, className?, attr?_strip]

@[simp] theorem escaped_strip : escaped n.strip name = escaped n name := by
  rw [escaped, escaped, required_strip]

@[simp] theorem escaped?_strip : escaped? n.strip name = escaped? n name := by
  rw [escaped?, escaped?, attr?_strip]

@[simp] theorem label_strip : label n.strip name = label n name := by
  rw [label, label, required_strip]

@[simp] theorem nameForFaults_strip : nameForFaults n.strip = nameForFaults n := by
  rw [nameForFaults, nameForFaults, attr?_strip]

end Attr

/-! ## Values -/

namespace Value

variable (n : Node)

@[simp] theorem typeOf_strip : typeOf n.strip = typeOf n := by
  rw [typeOf, typeOf, kind_strip, required_strip]

theorem checkValues_strip : checkValues n.strip = (checkValues n).map (List.map strip) := by
  rw [checkValues, checkValues, elements_strip]
  refine mapM_map_eq_map (fun child => ?_) n.elements
  rw [kind_strip]
  split
  next => rfl
  next => rw [notValue, notValue, kind_strip, kind_strip]; rfl

theorem checkValues_strip_bind {α : Type} (x : Except Fault α) :
    (checkValues n.strip >>= fun _ => x) = checkValues n >>= fun _ => x := by
  rw [checkValues_strip]
  cases checkValues n <;> rfl

mutual

@[simp] theorem fromNode_strip : (n : Node) → fromNode n.strip = fromNode n
  | ⟨kind, attributes, children, text⟩ => by
    have hn := mk_stripAll kind attributes children text
    rw [← hn, fromNode, fromNode]
    simp [hn, checkValues_strip_bind, valuesOf_stripAll children, bootstrapsOf_stripAll children]

theorem valuesOf_stripAll : (ns : List Node) → valuesOf (stripAll ns) = valuesOf ns
  | [] => rfl
  | n :: rest => by
    rw [stripAll, valuesOf]
    split
    next => exact valuesOf_stripAll rest
    next hm => rw [valuesOf, isMetadata_strip, if_neg hm, fromNode_strip n, valuesOf_stripAll rest]

theorem bootstrapsOf_stripAll : (ns : List Node) → bootstrapsOf (stripAll ns) = bootstrapsOf ns
  | [] => rfl
  | ⟨kind, attributes, children, text⟩ :: rest => by
    have hn := mk_stripAll kind attributes children text
    rw [stripAll, bootstrapsOf]
    split
    next => exact bootstrapsOf_stripAll rest
    next hm =>
      rw [← hn, bootstrapsOf]
      simp [hn, checkValues_strip_bind, valuesOf_stripAll children, bootstrapsOf_stripAll rest, hm]

end

@[simp] theorem fromChildren_strip : fromChildren n.strip = fromChildren n := by
  rw [fromChildren, fromChildren, checkValues_strip]
  cases checkValues n with
  | error f => rfl
  | ok children => simp [Except.map, Function.comp_def]

end Value

/-! ## Annotations -/

namespace AnnotationValue

@[simp] theorem addProperty_strip (parent : Node) : addProperty parent.strip = addProperty parent := by
  funext found name v
  rw [addProperty, addProperty, attr?_strip]

theorem find?_stripAll (ns : List Node) :
    (stripAll ns).find? (fun other => !other.isMetadata) = (ns.find? fun other => !other.isMetadata).map strip := by
  induction ns with
  | nil => rfl
  | cons n ns ih =>
    rw [stripAll]
    cases hn : n.isMetadata with
    | true => simp [hn, ih]
    | false => simp [hn]

mutual

@[simp] theorem ofNode_strip : (n : Node) → ofNode n.strip = ofNode n
  | ⟨kind, attributes, children, text⟩ => by
    have hn := mk_stripAll kind attributes children text
    rw [← hn, ofNode, ofNode]
    simp [hn, values_stripAll [] children, properties_stripAll _ _ [] children]

theorem values_stripAll (found : List AnnotationValue) : (ns : List Node) → values found (stripAll ns) = values found ns
  | [] => rfl
  | n :: rest => by
    rw [stripAll, values]
    split
    next => exact values_stripAll found rest
    next hm =>
      rw [values, isMetadata_strip, if_neg hm, ofNode_strip n]
      cases ofNode n with
      | error f => rfl
      | ok v => exact values_stripAll (v :: found) rest

theorem properties_stripAll (parent : Node) (counts : String → Bool) (found : List (String × AnnotationValue)) :
    (ns : List Node) → properties parent.strip counts found (stripAll ns) = properties parent counts found ns
  | [] => rfl
  | ⟨kind, attributes, children, text⟩ :: rest => by
    have hn := mk_stripAll kind attributes children text
    have ih : ∀ found, properties parent.strip counts found (stripAll rest) = properties parent counts found rest :=
      fun found => properties_stripAll parent counts found rest
    have hs : single (strip ⟨kind, attributes, children, text⟩) (stripAll children)
        = single ⟨kind, attributes, children, text⟩ children := single_stripAll _ children
    rw [stripAll, properties]
    by_cases hm : (⟨kind, attributes, children, text⟩ : Node).isMetadata = true
    · rw [if_pos hm, hm, Bool.true_or, if_pos rfl, ih]
    · rw [if_neg hm, ← hn, properties]
      simp [hn, hs, ih]

theorem single_stripAll (parent : Node) : (ns : List Node) → single parent.strip (stripAll ns) = single parent ns
  | [] => by rw [stripAll, single, single, kind_strip]
  | n :: rest => by
    rw [stripAll, single]
    split
    next => exact single_stripAll parent rest
    next hm =>
      rw [single, isMetadata_strip, if_neg hm, find?_stripAll, ofNode_strip n]
      cases rest.find? fun other => !other.isMetadata with
      | none => rfl
      | some extra => exact congrArg _ (unrecognized_strip extra parent)

end

@[simp] theorem ofParent_strip (n : Node) : ofParent n.strip = ofParent n := by
  rw [ofParent, ofParent, children_strip, single_stripAll]

end AnnotationValue

@[simp] theorem Visibility.ofNode_strip (n : Node) : Visibility.ofNode n.strip = Visibility.ofNode n := by
  rw [Visibility.ofNode, Visibility.ofNode, required_strip]

namespace Model

@[simp] theorem Annotation.ofNode_strip (n : Node) : Annotation.ofNode n.strip = Annotation.ofNode n := by
  simp [AnnotationValue.properties_stripAll, Annotation.ofNode]

@[simp] theorem targetOf_strip (n : Node) (targetType : UInt8) : targetOf n.strip targetType = targetOf n targetType := by
  have hranges : n.strip.elements.filter (fun child => isRange child.kind)
      = (n.elements.filter fun child => isRange child.kind).map strip := by
    rw [elements_strip, filter_map]
    simp [Function.comp_def]
  have hrange : ∀ child : Node, TypeTarget.rangeOfNode child.strip = TypeTarget.rangeOfNode child := by
    intro child
    simp [TypeTarget.rangeOfNode]
  have htarget : ∀ ranges form, TypeTarget.ofNode n.strip (ranges.map strip) form = TypeTarget.ofNode n ranges form := by
    intro ranges form
    cases form <;> simp [TypeTarget.ofNode, Function.comp_def, hrange]
  simp only [targetOf, hranges, htarget]
  refine bind_congr fun target => ?_
  cases n.elements.filter fun child => isRange child.kind with
  | nil => cases target.form <;> rfl
  | cons range rest =>
    cases target.form with
    | localVariable => rfl
    | _ => exact congrArg _ (unrecognized_strip range n)

@[simp] theorem TypeAnnotation.ofNode_strip (n : Node) : TypeAnnotation.ofNode n.strip = TypeAnnotation.ofNode n := by
  simp [targetTypeOf, TypeAnnotation.ofNode, pathOf, AnnotationValue.properties_stripAll]

end Model

/-! ## Bodies -/

@[simp] theorem VerificationType.ofNode_strip (parent n : Node) :
    VerificationType.ofNode parent.strip n.strip = VerificationType.ofNode parent n := by
  simp [VerificationType.ofNode]

@[simp] theorem Frame.ofNode_strip (n : Node) : Frame.ofNode n.strip = Frame.ofNode n := by
  have hpart : ∀ found child, Frame.readPart n.strip found child.strip = Frame.readPart n found child := by
    intro found child
    simp [Frame.readPart, Function.comp_def]
  simp [Frame.ofNode, FrameKind.ofNode, parts_strip n hpart]

@[simp] theorem Instruction.ofNode_strip (n : Node) : Instruction.ofNode n.strip = Instruction.ofNode n := by
  simp [Instruction.ofNode]

namespace MethodEntry

theorem ofNode_strip (body n : Node) : ofNode body.strip n.strip = ofNode body n := by
  simp [ofNode]

@[simp] theorem ofBody_strip (body : Node) : ofBody body.strip = ofBody body := by
  rw [ofBody, ofBody, elements_strip, zipIdx_map, mapM_map]
  simp [Function.comp_def, Prod.map, ofNode_strip, id]

end MethodEntry

/-! ## Members -/

namespace Model

variable (n : Node)

@[simp] theorem Annotated.ofNode_strip (child : Node) : Annotated.ofNode n.strip child.strip = Annotated.ofNode n child := by
  simp [Annotated.ofNode]

@[simp] theorem RecordComponent.ofNode_strip : RecordComponent.ofNode n.strip = RecordComponent.ofNode n := by
  simp [RecordComponent.ofNode, Function.comp_def]

@[simp] theorem memberName_strip : memberName n.strip = memberName n := by
  simp [memberName]

@[simp] theorem Field.ofNode_strip : Field.ofNode n.strip = Field.ofNode n := by
  have hpart : ∀ found child, Field.readPart n.strip found child.strip = Field.readPart n found child := by
    intro found child
    simp [Field.readPart]
  simp [Field.ofNode, parts_strip n hpart]

@[simp] theorem Parameter.ofNode_strip (count : Nat) (n : Node) :
    Parameter.ofNode count n.strip = Parameter.ofNode count n := by
  simp [Parameter.ofNode, Function.comp_def]

@[simp] theorem variableOfNode_strip : variableOfNode n.strip = variableOfNode n := by
  simp [variableOfNode]

@[simp] theorem Method.ofNode_strip : Method.ofNode n.strip = Method.ofNode n := by
  have hpart : ∀ found child, Method.readPart n.strip found child.strip = Method.readPart n found child := by
    intro found child
    simp [Method.readPart]
  simp [Method.ofNode, Method.maxsOf, parts_strip n hpart]

end Model

/-! ## Classes -/

namespace ModuleInfo

@[simp] theorem packageOf_strip (n : Node) : packageOf n.strip = packageOf n := by
  simp [packageOf, Function.comp_def]

@[simp] theorem provideOf_strip (n : Node) : provideOf n.strip = provideOf n := by
  simp [provideOf, Function.comp_def]

@[simp] theorem ofNode_strip (n : Node) : ofNode n.strip = ofNode n := by
  have hpart : ∀ found child, readPart n.strip found child.strip = readPart n found child := by
    intro found child
    simp [readPart]
  simp [ofNode, parts_strip n hpart]

end ModuleInfo

namespace ClassModel

@[simp] theorem enclosingOf_strip (n : Node) : enclosingOf n.strip = enclosingOf n := by
  simp [enclosingOf]

@[simp] theorem innerOf_strip (n : Node) : innerOf n.strip = innerOf n := by
  simp [innerOf]

@[simp] theorem componentsOf_strip (n : Node) : componentsOf n.strip = componentsOf n := by
  simp [componentsOf, Function.comp_def]

theorem readPart_strip (root : Node) (found : List Part) (child : Node) :
    readPart root.strip found child.strip = readPart root found child := by
  simp [readPart]

theorem ofNode_strip (root : Node) : ofNode root.strip = ofNode root := by
  simp [ofNode, read, parts_strip root (readPart_strip root)]

end ClassModel

end ClassDoc
