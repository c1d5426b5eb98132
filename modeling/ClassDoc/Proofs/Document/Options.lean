/-
  The options of documents only add nodes for people to read.
-/
import ClassDoc.Proofs.Document.Metadata
namespace ClassDoc

open Node

/-! ## Documents of classes -/

namespace Node

/-- The node is kept, and is `m` then. -/
def StripsTo (n m : Node) : Prop := n.isMetadata = false ∧ n.strip = m

attribute [simp] isMetadataKind leaf

@[simp] theorem stripAll_nil : stripAll [] = [] := rfl

@[simp] theorem stripsTo_mk {kind : String} {attributes : List (String × String)} {children children' : List Node}
    {text : Option String} : StripsTo ⟨kind, attributes, children, text⟩ ⟨kind, attributes, children', text⟩ ↔
      isMetadataKind kind = false ∧ stripAll children = children' := by
  simp [StripsTo, strip, isMetadata]

@[simp] theorem stripAll_append (ns ms : List Node) : stripAll (ns ++ ms) = stripAll ns ++ stripAll ms := by
  rw [stripAll_eq_map, stripAll_eq_map, stripAll_eq_map, List.filter_append, List.map_append]

theorem stripAll_cons {n m : Node} (h : n.StripsTo m) (ns : List Node) : stripAll (n :: ns) = m :: stripAll ns := by
  rw [stripAll, h.1, if_neg Bool.false_ne_true, h.2]

@[simp] theorem stripAll_cons_self {n : Node} (h : n.StripsTo n) (ns : List Node) : stripAll (n :: ns) = n :: stripAll ns :=
  stripAll_cons h ns

theorem stripAll_map {α : Type} {f g : α → Node} (h : ∀ a, (f a).StripsTo (g a)) (as : List α) :
    stripAll (as.map f) = as.map g := by
  induction as with
  | nil => simp
  | cons a as ih => rw [List.map_cons, stripAll_cons (h a), ih, List.map_cons]

@[simp] theorem stripAll_map_self {α : Type} {f : α → Node} (h : ∀ a, (f a).StripsTo (f a)) (as : List α) :
    stripAll (as.map f) = as.map f :=
  stripAll_map h as

theorem stripAll_zipWith {α β : Type} {f g : α → β → Node} (h : ∀ a b, (f a b).StripsTo (g a b)) (as : List α)
    (bs : List β) : stripAll (List.zipWith f as bs) = List.zipWith g as bs := by
  rw [← List.map_uncurry_zip_eq_zipWith, ← List.map_uncurry_zip_eq_zipWith]
  exact stripAll_map (fun x : α × β => h x.1 x.2) _

end Node

namespace Value

@[simp] theorem stripsTo_scalarNode (v : Operand) : (scalarNode v).StripsTo (scalarNode v) := by
  simp [scalarNode, nodeKind]

@[simp] theorem stripAll_handleNodes (h : Handle) : stripAll (handleNodes h) = handleNodes h := by
  simp [handleNodes, textNode]

mutual

@[simp] theorem stripsTo_toNode : (v : Operand) → (toNode v).StripsTo (toNode v)
  | .handle h => by simp [toNode, node, nodeKind]
  | .dynamic name descriptor bootstrap arguments => by
    simp [toNode, node, nodeKind, textNode, stripAll_toNodes arguments]
  | .array values => by simp [toNode, node, nodeKind, stripAll_toNodes values]
  | .none | .bool _ | .byte _ | .short _ | .char _ | .int _ | .long _ | .float _ | .double _ | .string _ | .classRef _
  | .methodType _ | .label _ => stripsTo_scalarNode _

theorem stripAll_toNodes : (vs : List Operand) → stripAll (toNodes vs) = toNodes vs
  | [] => by simp [toNodes]
  | v :: rest => by rw [toNodes, stripAll_cons (stripsTo_toNode v), stripAll_toNodes rest]

end

end Value

namespace AnnotationValue

mutual

@[simp] theorem stripsTo_toNode : (v : AnnotationValue) → (toNode v).StripsTo (toNode v)
  | value operand => Value.stripsTo_toNode operand
  | enum _ _ => by simp [toNode]
  | classRef _ => by simp [toNode]
  | nested _ properties => by simp [toNode, stripAll_propertyNodes properties]
  | array values => by simp [toNode, stripAll_toNodes values]

@[simp] theorem stripAll_propertyNodes : (ps : List (String × AnnotationValue)) →
    stripAll (propertyNodes ps) = propertyNodes ps
  | [] => by simp [propertyNodes]
  | (_, v) :: rest => by simp [propertyNodes, stripsTo_toNode v, stripAll_propertyNodes rest]

theorem stripAll_toNodes : (vs : List AnnotationValue) → stripAll (toNodes vs) = toNodes vs
  | [] => by simp [toNodes]
  | v :: rest => by rw [toNodes, stripAll_cons (stripsTo_toNode v), stripAll_toNodes rest]

end

end AnnotationValue

namespace Model

@[simp] theorem Annotation.stripsTo_toNode (a : Annotation) : a.toNode.StripsTo a.toNode := by
  simp [toNode]

@[simp] theorem TypeAnnotation.stripsTo_toNode (a : TypeAnnotation) : a.toNode.StripsTo a.toNode := by
  have hrange : ∀ r, (TypeTarget.rangeNode r).StripsTo (TypeTarget.rangeNode r) := by simp [TypeTarget.rangeNode]
  have hranges : stripAll a.target.rangeNodes = a.target.rangeNodes := by
    cases a.target <;> simp [TypeTarget.rangeNodes, hrange]
  simp [hranges, TypeAnnotation.toNode]

end Model

@[simp] theorem VerificationType.stripsTo_toNode (t : VerificationType Label) : t.toNode.StripsTo t.toNode := by
  cases t <;> simp [toNode]

@[simp] theorem Frame.stripsTo_toNode (f : Frame Label) : f.toNode.StripsTo f.toNode := by
  simp [toNode]

theorem MethodEntry.stripsTo_toNode (comments : Bool) (e : MethodEntry) :
    (e.toNode comments).StripsTo (e.toNode false) := by
  cases e <;> cases comments <;> simp [toNode, Instruction.toNode, stripAll, isMetadata]

namespace Model

@[simp] theorem RecordComponent.stripsTo_toNode (c : RecordComponent) : c.toNode.StripsTo c.toNode := by
  simp [RecordComponent.toNode]

theorem Field.stripsTo_toNode (f : Field) (name : String) : (f.toNode name).StripsTo (f.toNode name) := by
  simp [Field.toNode]

theorem Method.stripsTo_toNode (options : DocumentOptions) (m : Method) (name : String) :
    (m.toNode options name).StripsTo (m.toNode {} name) := by
  have hbody : stripAll
      (if m.hasBody then [{ kind := "body", children := m.entries.map (MethodEntry.toNode options.comments) }]
      else []) = if m.hasBody then [{ kind := "body", children := m.entries.map (MethodEntry.toNode false) }] else [] := by
    split <;> simp [stripAll, isMetadata, strip, stripAll_map (MethodEntry.stripsTo_toNode options.comments)]
  have hvariable : ∀ v, (variableNode v).StripsTo (variableNode v) := by simp [variableNode]
  simp [Method.toNode, hbody, Parameter.toNode, hvariable]

end Model

@[simp] theorem ModuleInfo.stripsTo_toNode (m : ModuleInfo) : m.toNode.StripsTo m.toNode := by
  have hrequire : ∀ r, (requireNode r).StripsTo (requireNode r) := by simp [requireNode]
  have hpackage : ∀ kind, isMetadataKind kind = false → ∀ p, (packageNode kind p).StripsTo (packageNode kind p) := by
    simp +contextual [packageNode]
  have hprovide : ∀ p, (provideNode p).StripsTo (provideNode p) := by simp [provideNode]
  simp [toNode, hrequire, hpackage, hprovide]

namespace ClassModel

theorem strip_toNode (options : DocumentOptions) (c : ClassModel) : (c.toNode options).strip = c.toNode {} := by
  have hlisting : stripAll (if options.listing then [{ kind := "listing", text := some c.listing }] else []) = [] := by
    split <;> simp [stripAll, isMetadata]
  have hfields : stripAll (fieldNodes c.fields) = fieldNodes c.fields :=
    stripAll_zipWith Model.Field.stripsTo_toNode _ _
  have hmethods : stripAll (methodNodes options c.methods) = methodNodes {} c.methods :=
    stripAll_zipWith (Model.Method.stripsTo_toNode options) _ _
  have hname : ∀ kind, isMetadataKind kind = false → ∀ name, (nameNode kind name).StripsTo (nameNode kind name) := by
    simp +contextual [nameNode]
  have henclosing : ∀ e, (enclosingNode e).StripsTo (enclosingNode e) := by simp [enclosingNode]
  have hinner : ∀ i, (innerNode i).StripsTo (innerNode i) := by simp [innerNode]
  simp [toNode, strip, hlisting, hname, henclosing, hinner, hfields, hmethods]

/-- **Nodes that are only there for people to read never matter.** A document without them has the same class or the
same fault, and without them the document of a class is the same for all options. -/
theorem metadata_irrelevant : (∀ root : Node, ofNode root.strip = ofNode root) ∧
    ∀ (options : DocumentOptions) (c : ClassModel), (c.toNode options).strip = c.toNode {} :=
  ⟨ofNode_strip, strip_toNode⟩

end ClassModel

end ClassDoc
