/-
  What is read from a document: no annotation has two properties of the same name, and every node that is looked at is
  of a kind that is listed for its parent.
-/
import ClassDoc.Proofs.Document.Class
import ClassDoc.Proofs.Model.Representable
namespace ClassDoc

open List
open Node (Listed hasChildren listed_of_fits fits_leaf childKinds)

/-! ## Values -/

namespace AnnotationValue

def Distinct (ps : List (String × AnnotationValue)) : Prop := (ps.map Prod.fst).Nodup ∧ ∀ p ∈ ps, p.2.distinct = true

theorem Distinct.reverse {ps : List (String × AnnotationValue)} (h : Distinct ps) : Distinct ps.reverse := by
  refine ⟨?_, fun p hp => h.2 p (mem_reverse.1 hp)⟩
  rw [map_reverse, nodup_reverse]
  exact h.1

theorem Distinct.addProperty {parent : Node} {found ps : List (String × AnnotationValue)} {name : String}
    {v : AnnotationValue} (h : Distinct found) (hv : v.distinct = true) (ha : addProperty parent found name v = .ok ps) :
    Distinct ps := by
  unfold AnnotationValue.addProperty at ha
  split at ha
  next => cases ha
  next hn =>
    cases ha
    rw [Distinct, map_cons, nodup_cons, forall_mem_cons]
    exact ⟨⟨by simpa using hn, h.1⟩, hv, h.2⟩

theorem allDistinct_iff {vs : List AnnotationValue} : allDistinct vs = true ↔ ∀ v ∈ vs, v.distinct = true := by
  induction vs with
  | nil => simp [allDistinct]
  | cons v vs ih => rw [allDistinct, Bool.and_eq_true, ih, forall_mem_cons]

def IsValue (n : Node) : Prop := n.kind ∈ childKinds "property" ∧ Listed hasChildren n

theorem isValue_leaf {n : Node} (hk : n.kind ∈ childKinds "property") (h : childKinds n.kind = []) : IsValue n :=
  ⟨hk, Node.listed_of_childKinds_eq_nil h⟩

theorem listed_of_isValue {n : Node} (hk : childKinds n.kind = childKinds "property")
    (h : ∀ m ∈ n.children, m.isMetadata = false → IsValue m) : Listed hasChildren n := by
  refine listed_of_fits fun m hm => ?_
  obtain ⟨hm, hd⟩ := mem_filter.1 hm
  obtain ⟨h1, h2⟩ := h m hm (by simpa using hd)
  exact ⟨hk ▸ h1, h2⟩

theorem listed_of_properties {n : Node} (counts : String → Bool) (hk : "property" ∈ childKinds n.kind)
    (ho : ∀ m : Node, counts m.kind = false → n.Fits m)
    (h : ∀ m ∈ n.children, m.isMetadata = false → counts m.kind = true → m.kind = "property" ∧ Listed hasChildren m) :
    Listed hasChildren n := by
  refine listed_of_fits fun m hm => ?_
  obtain ⟨hm, hd⟩ := mem_filter.1 hm
  cases hc : counts m.kind with
  | false => exact ho m hc
  | true =>
    obtain ⟨h1, h2⟩ := h m hm (by simpa using hd) hc
    exact ⟨h1 ▸ hk, h2⟩

mutual

theorem ensures_ofNode : (n : Node) → Ensures (fun v => v.distinct = true ∧ IsValue n) (ofNode n)
  | ⟨kind, attributes, children, text⟩ => by
    simp only [ofNode]
    split
    · exact .bind (Value.ensures_fromNode _) fun _ hv => .ok ⟨rfl, by rw [hv.2.2.1]; decide, hv.2.2.2⟩
    split
    next hk => exact .skip fun _ => .skip fun _ => .ok ⟨rfl, hk ▸ isValue_leaf (by simp [childKinds]) rfl⟩
    split
    next hk => exact .skip fun _ => .ok ⟨rfl, hk ▸ isValue_leaf (by simp [childKinds]) rfl⟩
    split
    next hk =>
      subst hk
      refine .skip fun _ => .bind (ensures_properties children ⟨.nil, by simp⟩) fun ps h =>
        .ok ⟨?_, by simp [childKinds], ?_⟩
      · rw [distinct, Bool.and_eq_true, decide_eq_true_eq, distinctIn_iff]
        exact h.1
      · exact listed_of_properties (fun _ => true) (by simp [childKinds]) (by simp) h.2
    split
    next hk =>
      subst hk
      exact .bind (ensures_values children (by simp)) fun vs h =>
        .ok ⟨allDistinct_iff.2 h.1, by simp [childKinds], listed_of_isValue rfl h.2⟩
    · exact .error

theorem ensures_values : (nodes : List Node) → {found : List AnnotationValue} → (∀ v ∈ found, v.distinct = true) →
    Ensures (fun vs => (∀ v ∈ vs, v.distinct = true) ∧ ∀ m ∈ nodes, m.isMetadata = false → IsValue m) (values found nodes)
  | [], found, hf => .ok (by simpa using hf)
  | n :: rest, found, hf => by
    rw [values]
    split
    next hm => exact (ensures_values rest hf).imp fun vs h => ⟨h.1, forall_mem_cons.2 ⟨by simp [hm], h.2⟩⟩
    next =>
      split
      · exact .error
      next v hv =>
        obtain ⟨hd, hl⟩ := ensures_ofNode n v hv
        exact (ensures_values rest (forall_mem_cons.2 ⟨hd, hf⟩)).imp fun vs h => ⟨h.1, forall_mem_cons.2 ⟨fun _ => hl, h.2⟩⟩

theorem ensures_properties {parent : Node} {counts : String → Bool} : (nodes : List Node) →
    {found : List (String × AnnotationValue)} → Distinct found → Ensures (fun ps => Distinct ps ∧ ∀ m ∈ nodes,
      m.isMetadata = false → counts m.kind = true → m.kind = "property" ∧ Listed hasChildren m)
        (properties parent counts found nodes)
  | [], found, hf => .ok ⟨hf.reverse, by simp⟩
  | ⟨kind, attributes, children, text⟩ :: rest, found, hf => by
    simp only [properties]
    split
    next hm =>
      refine (ensures_properties rest hf).imp fun ps h => ⟨h.1, forall_mem_cons.2 ⟨fun h1 h2 => ?_, h.2⟩⟩
      simp [h1, h2] at hm
    split
    · exact .error
    next hk =>
    split
    · exact .error
    split
    · exact .error
    next v hv =>
    split
    · exact .error
    next found' ha =>
      obtain ⟨hd, hl⟩ := ensures_single children v (within_eq_ok.1 hv)
      have hp : kind = "property" := not_not.1 hk
      subst hp
      exact (ensures_properties rest (hf.addProperty hd ha)).imp fun ps h =>
        ⟨h.1, forall_mem_cons.2 ⟨fun _ _ => ⟨rfl, listed_of_isValue rfl hl⟩, h.2⟩⟩

theorem ensures_single {parent : Node} : (nodes : List Node) → Ensures (fun v => v.distinct = true ∧ ∀ m ∈ nodes,
    m.isMetadata = false → IsValue m) (single parent nodes)
  | [] => .error
  | n :: rest => by
    rw [single]
    split
    next hm => exact (ensures_single rest).imp fun v h => ⟨h.1, forall_mem_cons.2 ⟨by simp [hm], h.2⟩⟩
    next =>
      split
      · exact .error
      next hn =>
        refine (ensures_ofNode n).imp fun v h => ⟨h.1, forall_mem_cons.2 ⟨fun _ => h.2, fun m hm hd => ?_⟩⟩
        simpa [hd] using find?_eq_none.1 hn m hm

end

end AnnotationValue

/-! ## Annotations -/

namespace Model

variable {node : Node}

theorem Annotation.ensures_ofNode (hk : node.kind = "annotation") :
    Ensures (fun a => a.distinct = true ∧ Listed hasChildren node) (ofNode node) := by
  refine .skip fun _ => .skip fun _ => .bind (AnnotationValue.ensures_properties node.children ⟨.nil, by simp⟩) fun ps h =>
    .ok ⟨?_, ?_⟩
  · rw [distinct, Bool.and_eq_true, decide_eq_true_eq, AnnotationValue.distinctIn_iff]
    exact h.1
  · exact AnnotationValue.listed_of_properties (fun _ => true) (by simp [hk, childKinds]) (by simp) h.2

theorem TypeAnnotation.ensures_ofNode (hk : node.kind = "type-annotation") :
    Ensures (fun a => a.base.distinct = true ∧ Listed hasChildren node) (ofNode node) := by
  refine .skip fun _ => .within (.skip fun _ => .skip fun _ => .skip fun _ => .skip fun _ =>
    .bind (AnnotationValue.ensures_properties node.children ⟨.nil, by simp⟩) fun ps h => .ok ⟨?_, ?_⟩)
  · unfold Annotation.distinct
    rw [Bool.and_eq_true, decide_eq_true_eq, AnnotationValue.distinctIn_iff]
    exact h.1
  · refine AnnotationValue.listed_of_properties (fun kind => !isRange kind) (by rw [hk]; decide) (fun m hm => ?_) h.2
    have hr : m.kind = "range" := by simpa [isRange] using hm
    exact fits_leaf (by rw [hr, hk]; decide) (by rw [hr]; rfl)

namespace Annotated

def Distinct (a : Annotated) : Prop := distinctAnnotated a.base?.toList a.type?.toList = true

theorem ensures_ofNode {child : Node} (hk : childKinds node.kind ⊇ ["annotation", "type-annotation"]) :
    Ensures (fun a => a.Distinct ∧ node.Fits child) (Annotated.ofNode node child) := by
  rw [Annotated.ofNode]
  split
  next hc =>
    have hof := Annotation.ensures_ofNode hc
    refine hof.bind fun a h => .ok ⟨?_, hk (by simp [hc]), h.2⟩
    simp [Distinct, base?, type?, distinctAnnotated, h.1]
  next hc =>
    have hof := TypeAnnotation.ensures_ofNode hc
    refine hof.bind fun a h => .ok ⟨?_, hk (by simp [hc]), h.2⟩
    simp [Distinct, base?, type?, distinctAnnotated, h.1]
  · exact .error

theorem distinctAnnotated_of_forall {as : List Annotated} (h : ∀ a ∈ as, a.Distinct) :
    distinctAnnotated (as.filterMap base?) (as.filterMap type?) = true := by
  simp only [Distinct, distinctAnnotated, Bool.and_eq_true, all_eq_true, Option.mem_toList] at h ⊢
  simp only [mem_filterMap]
  constructor
  · rintro b ⟨a, ha, hb⟩
    exact (h a ha).1 b hb
  · rintro b ⟨a, ha, hb⟩
    exact (h a ha).2 b hb

theorem distinctAnnotated_parts {α : Type} {parts : List α} {annotated? : α → Option Annotated}
    (h : ∀ p ∈ parts, ∀ a ∈ annotated? p, a.Distinct) :
    distinctAnnotated ((parts.filterMap annotated?).filterMap base?)
      ((parts.filterMap annotated?).filterMap type?) = true := by
  refine distinctAnnotated_of_forall fun a ha => ?_
  obtain ⟨p, hp, ha⟩ := mem_filterMap.1 ha
  exact h p hp a ha

end Annotated

/-! ## Members -/

theorem RecordComponent.ensures_ofNode (hk : node.kind = "component") :
    Ensures (fun c => distinctAnnotated c.annotations c.typeAnnotations = true ∧ Listed hasChildren node)
      (RecordComponent.ofNode node) :=
  .skip fun _ => .skip fun _ => .bind (.mapM fun _ _ => Annotated.ensures_ofNode (by simp [hk, childKinds])) fun parts h =>
    .ok ⟨Annotated.distinctAnnotated_of_forall h.1, listed_of_fits h.2⟩

namespace Field

def Part.Distinct (p : Part) : Prop := ∀ a ∈ p.annotated?, a.Distinct

theorem ensures_ofNode (hk : node.kind = "field") :
    Ensures (fun f => distinctAnnotated f.annotations f.typeAnnotations = true ∧ Listed hasChildren node) (ofNode node) := by
  have hpart : ∀ found child, Ensures (fun p : Part => p.Distinct ∧ node.Fits child) (readPart node found child) := by
    intro found child
    rw [readPart]
    split
    · refine .bind (Value.ensures_fromNode child) fun v h => .ok ⟨by simp [Part.Distinct, Part.annotated?], ?_, h.2.2.2⟩
      simp [h.2.2.1, hk, childKinds, Value.nodeKind]
    · refine .bind (Annotated.ensures_ofNode (by simp [hk, childKinds])) fun a h => .ok ⟨?_, h.2⟩
      simpa [Part.Distinct, Part.annotated?] using h.1
  exact .skip fun _ => .skip fun _ => .skip fun _ => .skip fun _ => .bind (Node.ensures_parts hpart) fun parts h =>
    .ok ⟨Annotated.distinctAnnotated_parts h.1, listed_of_fits h.2⟩

end Field

theorem Parameter.ensures_ofNode {count : Nat} (hk : node.kind = "parameter") :
    Ensures (fun p => (∀ a ∈ p.annotations, a.distinct = true) ∧ Listed hasChildren node) (Parameter.ofNode count node) := by
  have ha : ∀ child ∈ node.elements, Ensures (fun a : Annotation => a.distinct = true ∧ node.Fits child)
      (if child.kind = "annotation" then Annotation.ofNode child else .error (child.unrecognized node)) := by
    intro child _
    split
    next hc =>
      have hof := Annotation.ensures_ofNode hc
      exact hof.imp fun a h => ⟨h.1, by simp [hc, hk, childKinds], h.2⟩
    next => exact .error
  refine .skip fun _ => .skip fun _ => .skip fun _ => ?_
  split
  all_goals exact .skip fun _ => .bind (.mapM ha) fun _ h => .ok ⟨h.1, listed_of_fits h.2⟩

end Model

/-! ## Bodies -/

theorem VerificationType.ensures_ofNode {parent node : Node} (hk : childKinds parent.kind = childKinds "stack") :
    Ensures (fun _ => parent.Fits node) (ofNode parent node) := by
  rw [ofNode]
  split
  case h_8 hc | h_9 hc => exact .skip fun _ => .ok (fits_leaf (by rw [hk, hc]; decide) (by rw [hc]; rfl))
  case h_10 => exact .error
  all_goals
    rename_i hc
    exact .ok (fits_leaf (by rw [hk, hc]; decide) (by rw [hc]; rfl))

theorem Frame.ensures_ofNode {node : Node} (hk : node.kind = "frame") :
    Ensures (fun _ => Listed hasChildren node) (ofNode node) := by
  have htypes : ∀ child : Node, childKinds child.kind = childKinds "stack" → Ensures (fun _ => Listed hasChildren child)
      (child.elements.mapM (VerificationType.ofNode child)) := fun child hc =>
    (Ensures.mapM_right fun _ _ => VerificationType.ensures_ofNode hc).imp fun _ h => listed_of_fits h
  have hpart : ∀ found child, Ensures (fun _ => True ∧ node.Fits child) (readPart node found child) := by
    intro found child
    rw [readPart]
    split
    case h_1 hc | h_2 hc =>
      exact .skip fun _ => .bind (htypes child (by simp [hc, childKinds])) fun _ h =>
        .ok ⟨trivial, by rw [hk, hc]; decide, h⟩
    case h_3 => exact .error
  exact .skip fun _ => .bind (Node.ensures_parts hpart) fun _ h => .ok (listed_of_fits h.2)

theorem Instruction.ensures_ofNode {node : Node} (hk : node.kind = "instruction") :
    Ensures (fun _ => Listed hasChildren node) (ofNode node) := by
  refine .skip fun _ => ?_
  split
  next =>
    exact .bind Value.ensures_fromChildren fun _ h =>
      .ok (listed_of_fits fun m hm => ⟨by rw [hk, (h m hm).1]; decide, (h m hm).2⟩)
  next => exact .error

namespace MethodEntry

theorem ensures_ofNode {body node : Node} (hb : body.kind = "body") :
    Ensures (fun _ => body.Fits node) (ofNode body node) := by
  rw [ofNode]
  split
  case h_2 hc => exact .bind (Instruction.ensures_ofNode hc) fun _ h => .ok ⟨by rw [hb, hc]; decide, h⟩
  case h_4 hc => exact .bind (Frame.ensures_ofNode hc) fun _ h => .ok ⟨by rw [hb, hc]; decide, h⟩
  case h_6 => exact .error
  all_goals
    rename_i hc
    have hf : body.Fits node := fits_leaf (by rw [hb, hc]; decide) (by rw [hc]; rfl)
    first
      | exact .skip fun _ => .ok hf
      | exact .skip fun _ => .skip fun _ => .ok hf
      | exact .skip fun _ => .skip fun _ => .skip fun _ => .skip fun _ => .ok hf

theorem ensures_ofBody {body : Node} (hb : body.kind = "body") :
    Ensures (fun _ => Listed hasChildren body) (ofBody body) := by
  refine (Ensures.mapM_right fun x _ => .within (ensures_ofNode hb)).imp fun _ h => listed_of_fits fun m hm => ?_
  obtain ⟨i, hi⟩ := mem_iff_getElem?.1 hm
  exact h (m, i) (by simpa [mem_zipIdx_iff_getElem?] using hi)

end MethodEntry

/-! ## Methods -/

namespace Model.Method

variable {node : Node}

def Part.Distinct : Part → Prop
  | parameter p => ∀ a ∈ p.annotations, a.distinct = true
  | annotated a => a.Distinct
  | default v => v.distinct = true
  | throws _ | body _ | localVariable _ => True

theorem ensures_readPart (hk : node.kind = "method") (found : List Part) (child : Node) :
    Ensures (fun p => p.Distinct ∧ node.Fits child) (readPart node found child) := by
  rw [readPart]
  split
  next hc => exact .skip fun _ => .ok ⟨trivial, fits_leaf (by rw [hk, hc]; decide) (by rw [hc]; rfl)⟩
  next hc => exact .bind (Parameter.ensures_ofNode hc) fun _ h => .ok ⟨h.1, by rw [hk, hc]; decide, h.2⟩
  next hc =>
    refine .skip fun _ => .bind (AnnotationValue.ensures_single child.children) fun _ h =>
      .ok ⟨h.1, by rw [hk, hc]; decide, AnnotationValue.listed_of_isValue (by rw [hc]; rfl) h.2⟩
  next hc => exact .skip fun _ => .bind (MethodEntry.ensures_ofBody hc) fun _ h => .ok ⟨trivial, by rw [hk, hc]; decide, h⟩
  next hc => exact .skip fun _ => .ok ⟨trivial, fits_leaf (by rw [hk, hc]; decide) (by rw [hc]; rfl)⟩
  next => exact .bind (Annotated.ensures_ofNode (by simp [hk, childKinds])) fun _ h => .ok h

theorem ensures_ofNode (hk : node.kind = "method") :
    Ensures (fun m => m.distinct = true ∧ Listed hasChildren node) (ofNode node) := by
  refine .skip fun _ => .skip fun _ => .skip fun _ => .skip fun _ => .skip fun _ => .skip fun _ => .skip fun _ =>
    .bind (Node.ensures_parts (ensures_readPart hk)) fun parts h => ?_
  obtain ⟨hd, hl⟩ := h
  dsimp only
  split
  · exact .error
  refine .ok ⟨?_, listed_of_fits hl⟩
  simp only [distinct, Bool.and_eq_true, all_eq_true, mem_filterMap]
  refine ⟨⟨?_, Annotated.distinctAnnotated_parts fun p hpm a ha => ?_⟩, ?_⟩
  · rintro q ⟨p, hpm, hq⟩
    have := hd p hpm
    cases p <;> cases hq
    exact this
  · have := hd p hpm
    cases p <;> cases ha
    exact this
  · rw [Option.all_eq_true]
    intro v hv
    obtain ⟨p, hpm, hpv⟩ := mem_filterMap.1 (mem_of_mem_head? hv)
    have := hd p hpm
    cases p <;> cases hpv
    exact this

end Model.Method

/-! ## Modules -/

namespace ModuleInfo

variable {node : Node}

theorem ensures_leaves {α : Type} {kind : String} {read : Node → Except Fault α} (hk : childKinds node.kind = [kind])
    (hl : childKinds kind = []) : Ensures (fun _ => Listed hasChildren node) (node.elements.mapM fun child =>
      if child.kind = kind then read child else .error (child.unrecognized node)) := by
  refine (Ensures.mapM_right fun child _ => ?_).imp fun _ h => listed_of_fits h
  split
  next hc => exact fun _ _ => fits_leaf (by simp [hk, hc]) (by rw [hc, hl])
  next => exact .error

theorem ensures_packageOf (hk : childKinds node.kind = ["to"]) :
    Ensures (fun _ => Listed hasChildren node) (packageOf node) :=
  .skip fun _ => .skip fun _ => .bind (ensures_leaves hk rfl) fun _ h => .ok h

theorem ensures_provideOf (hk : childKinds node.kind = ["with"]) :
    Ensures (fun _ => Listed hasChildren node) (provideOf node) :=
  .bind (ensures_leaves hk rfl) fun _ h => .skip fun _ => .ok h

theorem ensures_ofNode (hk : node.kind = "module") : Ensures (fun _ => Listed hasChildren node) (ofNode node) := by
  have hpart : ∀ found child, Ensures (fun _ => True ∧ node.Fits child) (readPart node found child) := by
    intro found child
    rw [readPart]
    split
    case h_2 hc | h_3 hc =>
      exact .bind (ensures_packageOf (by rw [hc]; rfl)) fun _ h => .ok ⟨trivial, by rw [hk, hc]; decide, h⟩
    case h_5 hc =>
      exact .bind (ensures_provideOf (by rw [hc]; rfl)) fun _ h => .ok ⟨trivial, by rw [hk, hc]; decide, h⟩
    case h_8 => exact .error
    all_goals
      rename_i hc
      have hf : node.Fits child := fits_leaf (by rw [hk, hc]; decide) (by rw [hc]; rfl)
      first
        | exact .skip fun _ => .ok ⟨trivial, hf⟩
        | exact .skip fun _ => .skip fun _ => .ok ⟨trivial, hf⟩
  exact .skip fun _ => .skip fun _ => .bind (Node.ensures_parts hpart) fun _ h => .ok (listed_of_fits h.2)

end ModuleInfo

/-! ## Classes -/

namespace ClassModel

open Model

def Part.Distinct : Part → Prop
  | annotated a => a.Distinct
  | record components => ∀ r ∈ components, distinctAnnotated r.annotations r.typeAnnotations = true
  | field f => distinctAnnotated f.annotations f.typeAnnotations = true
  | method m => m.distinct = true
  | _ => True

theorem ensures_componentsOf {node : Node} (hk : node.kind = "record") :
    Ensures (fun components => (∀ r ∈ components, distinctAnnotated r.annotations r.typeAnnotations = true) ∧
      Listed hasChildren node) (componentsOf node) := by
  refine (Ensures.mapM fun child _ => ?_).imp fun _ h => ⟨h.1, listed_of_fits h.2⟩
  split
  next hc => exact .within ((RecordComponent.ensures_ofNode hc).imp fun _ h => ⟨h.1, by rw [hk, hc]; decide, h.2⟩)
  next => exact .error

variable {c : ClassModel} {root : Node}

theorem ensures_readPart (hk : root.kind = "class") (found : List Part) (child : Node) :
    Ensures (fun p => p.Distinct ∧ root.Fits child) (readPart root found child) := by
  rw [readPart]
  split
  case h_7 hc => exact .skip fun _ => .bind (ensures_componentsOf hc) fun _ h => .ok ⟨h.1, by rw [hk, hc]; decide, h.2⟩
  case h_8 hc =>
    exact .skip fun _ => .bind (.within (ModuleInfo.ensures_ofNode hc)) fun _ h => .ok ⟨trivial, by rw [hk, hc]; decide, h⟩
  case h_9 hc => exact .bind (.within (Field.ensures_ofNode hc)) fun _ h => .ok ⟨h.1, by rw [hk, hc]; decide, h.2⟩
  case h_10 hc => exact .bind (.within (Method.ensures_ofNode hc)) fun _ h => .ok ⟨h.1, by rw [hk, hc]; decide, h.2⟩
  case h_11 => exact .bind (Annotated.ensures_ofNode (by simp [hk, childKinds])) fun _ h => .ok h
  all_goals
    rename_i hc
    have hf : root.Fits child := fits_leaf (by rw [hk, hc]; decide) (by rw [hc]; rfl)
    first
      | exact .skip fun _ => .ok ⟨trivial, hf⟩
      | exact .skip fun _ => .skip fun _ => .ok ⟨trivial, hf⟩

theorem ensures_read (hk : root.kind = "class") : Ensures (fun c => c.Distinct ∧ Listed hasChildren root) (read root) := by
  refine .skip fun _ => .skip fun _ => .skip fun _ => .skip fun _ => .skip fun _ => .skip fun _ => .skip fun _ =>
    .bind (Node.ensures_parts (ensures_readPart hk)) fun parts h => .ok ⟨?_, listed_of_fits h.2⟩
  have hd := h.1
  refine ⟨Annotated.distinctAnnotated_parts fun p hpm a ha => ?_, fun r hr => ?_, fun f hf => ?_, fun m hm => ?_⟩
  · have := hd p hpm
    cases p <;> cases ha
    exact this
  · dsimp only at hr
    cases hc : (parts.filterMap Part.record?).head? with
    | none =>
      rw [hc] at hr
      cases hr
    | some components =>
      rw [hc] at hr
      obtain ⟨p, hpm, hpr⟩ := mem_filterMap.1 (mem_of_mem_head? hc)
      have := hd p hpm
      cases p <;> cases hpr
      exact this r hr
  · obtain ⟨p, hpm, hpf⟩ := mem_filterMap.1 hf
    have := hd p hpm
    cases p <;> cases hpf
    exact this
  · obtain ⟨p, hpm, hpf⟩ := mem_filterMap.1 hm
    have := hd p hpm
    cases p <;> cases hpf
    exact this

theorem read_of_ofNode (h : ofNode root = .ok c) : read root = .ok c ∧ c.Valid := by
  unfold ofNode at h
  split at h
  · cases h
  obtain ⟨version, -, h⟩ := bind_eq_ok.1 h
  split at h
  · cases h
  obtain ⟨c', hc, h⟩ := bind_eq_ok.1 h
  obtain ⟨_, -, h⟩ := bind_eq_ok.1 h
  obtain ⟨_, hv, h⟩ := bind_eq_ok.1 h
  cases h
  exact ⟨within_eq_ok.1 hc, validate_iff.1 hv⟩

theorem kind_of_ofNode (h : ofNode root = .ok c) : root.kind = "class" := by
  unfold ofNode at h
  split at h
  · cases h
  next hk => exact not_not.1 hk

/-- **In the class of a document, no annotation has two properties of the same name.** -/
theorem distinct_of_ofNode (h : ofNode root = .ok c) : c.Distinct :=
  (ensures_read (kind_of_ofNode h) c (read_of_ofNode h).1).1

/-- **The nodes of a document are listed.** In a document that is read, every node that is not only there for people to
read, and whose parent is of a kind with children, has a kind that is listed for its parent. -/
theorem listed_of_ofNode (h : ofNode root = .ok c) : root.kind = "class" ∧ Listed hasChildren root :=
  ⟨kind_of_ofNode h, (ensures_read (kind_of_ofNode h) c (read_of_ofNode h).1).2⟩

/-- The document of a class with an annotation and an interface, whose node has a child of an unknown kind. -/
def unlisted : Node where
  kind := "class"
  attributes := [("schema", "1"), ("name", "A"), ("access", "33"), ("major", "52"), ("minor", "0")]
  children := [
    { kind := "interface", attributes := [("name", "I")], children := [{ kind := "foo" }] },
    { kind := "annotation", attributes := [("descriptor", "LM;"), ("visibility", "runtime")]
      children := [{ kind := "property", attributes := [("name", "v")]
                     children := [{ kind := "array", children :=
                       [.leaf "enum" [("descriptor", "LE;"), ("name", "x")]] }] }] } ]

theorem listed_of_ofNode_unlisted :
    ∃ c, ofNode unlisted = .ok c ∧ unlisted.kind = "class" ∧ Listed hasChildren unlisted := by
  obtain ⟨c, hc⟩ : ∃ c, ofNode unlisted = .ok c := exists_eq_ok.2 (by decide +kernel)
  exact ⟨c, hc, listed_of_ofNode hc⟩

/-- What is below a node of a kind without children is never looked at. -/
theorem ofNode_unlisted : (∃ c, ofNode unlisted = .ok c) ∧ ¬Listed (fun _ => true) unlisted := by
  refine ⟨exists_eq_ok.2 (by decide +kernel), ?_⟩
  rintro ⟨-, below⟩
  obtain ⟨kinds, -⟩ := below rfl _ (.head _)
  exact absurd (kinds rfl _ (.head _)) (by decide)

end ClassModel

end ClassDoc
