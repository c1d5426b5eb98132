/-
  Annotations read back from their nodes.
-/
import ClassDoc.Document.Annotated
import ClassDoc.Proofs.Document.Value
import ClassDoc.Proofs.Model.Names
namespace ClassDoc

open List

/-! ## Values -/

theorem Operand.handlesOk_of_annotates {v : Operand} (h : v.annotates = true) : v.handlesOk = true := by
  cases v <;> first | rfl | cases h

namespace AnnotationValue

theorem isMetadata_toNode (v : AnnotationValue) : v.toNode.isMetadata = false := by
  cases v with
  | value operand => exact Value.isMetadata_of_kind (Value.kind_toNode operand)
  | enum | classRef | nested | array => rfl

variable {counts : String → Bool} {parent : Node}

theorem properties_skip {n : Node} (hn : counts n.kind = false)
    (found : List (String × AnnotationValue)) (rest : List Node) :
    properties parent counts found (n :: rest) = properties parent counts found rest := by
  obtain ⟨kind, attributes, children, text⟩ := n
  rw [properties]
  simp only [hn, Bool.not_false, Bool.or_true, if_true]

theorem properties_skipAll {nodes : List Node}
    (h : ∀ n ∈ nodes, counts n.kind = false) (found : List (String × AnnotationValue)) (rest : List Node) :
    properties parent counts found (nodes ++ rest) = properties parent counts found rest := by
  induction nodes with
  | nil => rfl
  | cons n nodes ih =>
    rw [cons_append, properties_skip (h n (by simp)), ih fun m hm => h m (by simp [hm])]

theorem single_toNode (parent : Node) (v : AnnotationValue) : single parent [v.toNode] = ofNode v.toNode := by
  simp [single, isMetadata_toNode v]

theorem properties_cons (hp : counts "property" = true) {name : String}
    {v : AnnotationValue} {found : List (String × AnnotationValue)} (hn : name ≠ "") (hv : ofNode v.toNode = .ok v)
    (hf : name ∉ found.map Prod.fst) (rest : List (String × AnnotationValue)) :
    properties parent counts found (propertyNodes ((name, v) :: rest)) =
      properties parent counts ((name, v) :: found) (propertyNodes rest) := by
  have ha : addProperty parent found name v = .ok ((name, v) :: found) := by
    have : (found.any fun p => p.1 == name) = false := by
      rw [any_eq_false]
      intro p hp' he
      exact hf (mem_map.2 ⟨p, hp', beq_iff_eq.1 he⟩)
    rw [addProperty, this]; rfl
  rw [propertyNodes, properties]
  simp [Node.isMetadata, Node.isMetadataKind, hp, hn, single_toNode, hv, ha]

mutual

/-- **The value of a property reads back from its node.** -/
theorem ofNode_toNode : (v : AnnotationValue) → v.check = .ok () → (∀ n ∈ v.escapedNames, n ≠ "") →
    v.distinct = true → ofNode v.toNode = .ok v
  | value operand, hc, _, _ => by
    have ha : operand.annotates = true := by
      by_contra ha
      simp [check, ha, fail] at hc
    have hk := Value.kind_toNode operand
    have hv := Value.fromNode_toNode operand (Operand.handlesOk_of_annotates ha)
    rw [toNode]
    generalize Value.toNode operand = n at hk hv
    obtain ⟨kind, attributes, children, text⟩ := n
    rw [ofNode, if_pos hk, hv]
    rfl
  | enum descriptor name, _, hn, _ => by
    have hname : name ≠ "" := hn name (by simp [escapedNames])
    simp [toNode, ofNode, Value.nodeKind, hname]
  | classRef descriptor, _, _, _ => by simp [toNode, ofNode, Value.nodeKind]
  | nested descriptor props, hc, hn, hd => by
    simp only [distinct, Bool.and_eq_true, decide_eq_true_eq] at hd
    have hp := fun parent => properties_propertyNodes props parent (fun _ => true) rfl [] hc hn hd.2 (by simpa using hd.1)
    rw [toNode, ofNode]
    simp [Value.nodeKind, hp]
  | array vs, hc, hn, hd => by
    have hv := values_toNodes vs [] hc hn hd
    rw [toNode, ofNode]
    simp [Value.nodeKind, hv]

theorem properties_propertyNodes : (ps : List (String × AnnotationValue)) → (parent : Node) → (counts : String → Bool) →
    counts "property" = true → (found : List (String × AnnotationValue)) → checkProperties ps = .ok () →
    (∀ n ∈ propertyNames ps, n ≠ "") → distinctIn ps = true → (found.map Prod.fst ++ ps.map Prod.fst).Nodup →
    properties parent counts found (propertyNodes ps) = .ok (found.reverse ++ ps)
  | [], parent, counts, _, found, _, _, _, _ => by simp [propertyNodes, properties]
  | (name, v) :: rest, parent, counts, hp, found, hc, hn, hd, hs => by
    obtain ⟨hcv, hcr⟩ : v.check = .ok () ∧ checkProperties rest = .ok () := by
      rw [checkProperties] at hc
      cases hv : v.check <;> simp_all [within]
    simp only [distinctIn, Bool.and_eq_true] at hd
    have hnv : ∀ n ∈ v.escapedNames, n ≠ "" := fun n h => hn n (by simp [propertyNames, h])
    have hnr : ∀ n ∈ propertyNames rest, n ≠ "" := fun n h => hn n (by simp [propertyNames, h])
    have hf : name ∉ found.map Prod.fst := by
      intro h
      exact (nodup_append.1 hs).2.2 name h name (by simp) rfl
    have hs' : (((name, v) :: found).map Prod.fst ++ rest.map Prod.fst).Nodup := by
      rw [map_cons, cons_append]
      exact perm_middle.nodup hs
    rw [properties_cons hp (hn name (by simp [propertyNames])) (ofNode_toNode v hcv hnv hd.1) hf,
      properties_propertyNodes rest parent counts hp _ hcr hnr hd.2 hs']
    simp

theorem values_toNodes : (vs : List AnnotationValue) → (found : List AnnotationValue) → checkAll vs = .ok () →
    (∀ n ∈ namesOfAll vs, n ≠ "") → allDistinct vs = true → values found (toNodes vs) = .ok (found.reverse ++ vs)
  | [], found, _, _, _ => by simp [toNodes, values]
  | v :: rest, found, hc, hn, hd => by
    obtain ⟨hcv, hcr⟩ : v.check = .ok () ∧ checkAll rest = .ok () := by
      rw [checkAll] at hc
      cases hv : v.check <;> simp_all
    simp only [allDistinct, Bool.and_eq_true] at hd
    have hv := ofNode_toNode v hcv (fun n h => hn n (by simp [namesOfAll, h])) hd.1
    have hr := values_toNodes rest (v :: found) hcr (fun n h => hn n (by simp [namesOfAll, h])) hd.2
    rw [toNodes, values]
    simp [isMetadata_toNode v, hv, hr]

end

theorem kind_of_mem_propertyNodes {ps : List (String × AnnotationValue)} : ∀ n ∈ propertyNodes ps, n.kind = "property" := by
  induction ps with
  | nil => simp [propertyNodes]
  | cons p ps ih => simpa [propertyNodes] using ih

end AnnotationValue

/-! ## Annotations -/

theorem Visibility.ofNode_eq_ok {node : Node} {v : Visibility} (h : node.attr? "visibility" = some v.text) :
    Visibility.ofNode node = .ok v := by
  cases v <;> simp_all [ofNode, Visibility.text]

namespace Model

theorem Annotation.properties_eq_ok {a : Annotation} (hc : AnnotationValue.checkProperties a.properties = .ok ())
    (hn : ∀ n ∈ a.escapedNames, n ≠ "") (hd : a.distinct = true) (parent : Node) (counts : String → Bool)
    (hp : counts "property" = true) :
    AnnotationValue.properties parent counts [] (AnnotationValue.propertyNodes a.properties) = .ok a.properties := by
  simp only [Bool.and_eq_true, Annotation.distinct, decide_eq_true_eq] at hd
  exact AnnotationValue.properties_propertyNodes a.properties parent counts hp [] hc hn hd.2 (by simpa using hd.1)

/-- **An annotation reads back from its node.** -/
theorem Annotation.ofNode_toNode {a : Annotation} (hv : a.validate = .ok ()) (hn : ∀ n ∈ a.escapedNames, n ≠ "")
    (hd : a.distinct = true) : Annotation.ofNode a.toNode = .ok a := by
  have hp := Annotation.properties_eq_ok (within_eq_ok.1 hv) hn hd a.toNode (fun _ => true) rfl
  rw [ofNode, show a.toNode.children = AnnotationValue.propertyNodes a.properties from rfl, hp]
  simp [Visibility.ofNode_eq_ok (v := a.visibility), Annotation.toNode]

end Model

/-! ## Type annotations -/

theorem TargetType.ofName?_text {t : UInt8} (h : (TargetType.form? t).isSome = true) :
    TargetType.ofName? (TargetType.text t) = some t := by
  have hall : ∀ n < 256, (TargetType.form? (UInt8.ofNat n)).isSome = true →
      TargetType.ofName? (TargetType.text (UInt8.ofNat n)) = some (UInt8.ofNat n) := by decide +kernel
  have := hall t.toNat t.toNat_lt
  rw [UInt8.ofNat_toNat] at this
  exact this h

namespace TypeTarget

theorem rangeOfNode_rangeNode (r : LocalRange Label) : rangeOfNode (rangeNode r) = .ok r := by
  simp [rangeOfNode, rangeNode]

def attributeNames : List String := ["index", "bound", "label"]

theorem ofNode_eq_ok {t : TypeTarget Label} {node : Node}
    (h : ∀ name ∈ attributeNames, node.attr? name = Attr.lookup t.attributes name) :
    ofNode node t.rangeNodes t.form = .ok t := by
  have hi := h "index" (by decide)
  have hb := h "bound" (by decide)
  have hl := h "label" (by decide)
  cases t with
  | localVariable ranges => simp [form, ofNode, rangeNodes, mapM_map_eq_ok fun r _ => rangeOfNode_rangeNode r]
  | _ => simp_all [form, ofNode, attributes]

theorem kind_of_mem_rangeNodes {t : TypeTarget Label} : ∀ n ∈ t.rangeNodes, n.kind = "range" := by
  cases t <;> simp [rangeNodes, rangeNode, Node.leaf]

end TypeTarget

namespace Model.TypeAnnotation

variable {a : TypeAnnotation}

theorem attr?_toNode {name : String} (h : name ∈ TypeTarget.attributeNames) :
    a.toNode.attr? name = Attr.lookup a.target.attributes name := by
  simp only [TypeTarget.attributeNames, mem_cons, not_mem_nil, or_false] at h
  rcases h with rfl | rfl | rfl <;> cases hp : a.path.isEmpty <;> simp [hp, TypeAnnotation.toNode]

theorem isMetadata_of_mem_children : ∀ n ∈ a.toNode.children, n.isMetadata = false := by
  intro n hn
  rcases mem_append.1 hn with hn | hn
  · simp [Node.isMetadata, Node.isMetadataKind, TypeTarget.kind_of_mem_rangeNodes n hn]
  · simp [Node.isMetadata, Node.isMetadataKind, AnnotationValue.kind_of_mem_propertyNodes n hn]

theorem ranges_toNode : a.toNode.elements.filter (fun child => isRange child.kind) = a.target.rangeNodes := by
  have hr : a.target.rangeNodes.filter (fun child => isRange child.kind) = a.target.rangeNodes := by
    rw [filter_eq_self]
    intro n hn
    simp [isRange, TypeTarget.kind_of_mem_rangeNodes n hn]
  have hp : (AnnotationValue.propertyNodes a.base.properties).filter (fun child => isRange child.kind) = [] := by
    rw [filter_eq_nil_iff]
    intro n hn
    simp [isRange, AnnotationValue.kind_of_mem_propertyNodes n hn]
  rw [Node.elements_eq_children isMetadata_of_mem_children, TypeAnnotation.toNode, filter_append, hr, hp,
    append_nil]

theorem rangeNodes_eq_nil {t : TypeTarget Label} (h : t.form ≠ .localVariable) : t.rangeNodes = [] := by
  cases t <;> first | rfl | exact absurd rfl h

theorem targetOf_toNode (h : a.target.fits a.targetType = true) : targetOf a.toNode a.targetType = .ok a.target := by
  have hf : (TargetType.form? a.targetType).getD .empty = a.target.form := by
    rw [beq_iff_eq.1 h, Option.getD_some]
  rw [targetOf, ranges_toNode, hf, TypeTarget.ofNode_eq_ok fun _ => attr?_toNode, ok_bind]
  by_cases hl : a.target.form = .localVariable
  · rw [hl]; rfl
  · rw [rangeNodes_eq_nil hl]
    cases a.target.form <;> rfl

theorem pathOf_toNode : pathOf a.toNode = .ok a.path := by
  have ht : Attr.lookup a.target.attributes "path" = none := by
    cases a.target <;> simp [TypeTarget.attributes]
  have hp : a.toNode.attr? "path" = if a.path.isEmpty then none else some (TypePath.format a.path) := by
    by_cases he : a.path.isEmpty = true <;> simp [he, TypeAnnotation.toNode, ht]
  rw [pathOf, hp]
  by_cases he : a.path.isEmpty = true
  · rw [if_pos he, isEmpty_iff.1 he]
  · rw [if_neg he]
    exact TypePath.parse_format a.path

/-- **A type annotation reads back from its node.** -/
theorem ofNode_toNode {allowed : UInt8 → Bool} (hv : TypeAnnotation.validate allowed a = .ok ())
    (hn : ∀ n ∈ a.base.escapedNames, n ≠ "") (hd : a.base.distinct = true) : TypeAnnotation.ofNode a.toNode = .ok a := by
  obtain ⟨-, -, hv⟩ := bind_eq_ok.1 hv
  obtain ⟨u, hfit, hv⟩ := bind_eq_ok.1 hv
  rw [ensure_eq_ok] at hfit
  have hs : (TargetType.form? a.targetType).isSome = true := by rw [beq_iff_eq.1 hfit]; rfl
  have hprops : AnnotationValue.properties a.toNode (fun kind => !isRange kind) [] a.toNode.children =
      .ok a.base.properties := by
    rw [toNode, AnnotationValue.properties_skipAll]
    · exact Annotation.properties_eq_ok (within_eq_ok.1 hv) hn hd a.toNode _ rfl
    · intro n hn
      simp [isRange, TypeTarget.kind_of_mem_rangeNodes n hn]
  have htype : targetTypeOf a.toNode = .ok a.targetType := by
    simp [targetTypeOf, TypeAnnotation.toNode, TargetType.ofName?_text hs]
  simp only [htype, TypeAnnotation.ofNode, ok_bind, targetOf_toNode hfit, pathOf_toNode, hprops]
  simp [Visibility.ofNode_eq_ok (v := a.base.visibility), TypeAnnotation.toNode]

end Model.TypeAnnotation

end ClassDoc
