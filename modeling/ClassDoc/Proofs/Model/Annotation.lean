/-
  Annotations of models and of class files say the same.
-/
import ClassDoc.Model.Annotation
import ClassDoc.Proofs.Code.Relabel
import ClassDoc.Proofs.Model.Names
import ClassDoc.Proofs.Model.Validate
namespace ClassDoc

/-! ## Properties -/

section Properties

variable {α : Type}

theorem setProperty_of_not_mem {ps : List (String × α)} {name : String} (h : name ∉ ps.map Prod.fst) (value : α) :
    setProperty ps name value = ps ++ [(name, value)] := by
  have ha : (ps.any fun p => p.1 == name) = false := by
    rw [List.any_eq_false]
    intro p hp he
    exact h (List.mem_map.2 ⟨p, hp, by simpa using he⟩)
  rw [setProperty, ha]
  simp

theorem propertiesOf_eq_self {es : List (String × α)} (h : (es.map Prod.fst).Nodup) : propertiesOf es = es := by
  have hf : ∀ (rest done : List (String × α)), ((done ++ rest).map Prod.fst).Nodup →
      rest.foldl (fun ps e => setProperty ps e.1 e.2) done = done ++ rest := by
    intro rest
    induction rest with
    | nil => simp
    | cons e rest ih =>
      intro done hn
      have he : e.1 ∉ done.map Prod.fst := by
        rw [List.map_append, List.map_cons] at hn
        exact fun hm => (List.disjoint_of_nodup_append hn) hm (by simp)
      rw [List.foldl_cons, setProperty_of_not_mem he, ih _ (by simpa using hn)]
      simp
  exact hf es [] h

theorem keys_setProperty (ps : List (String × α)) (name : String) (value : α) :
    (setProperty ps name value).map Prod.fst =
      if name ∈ ps.map Prod.fst then ps.map Prod.fst else ps.map Prod.fst ++ [name] := by
  by_cases h : name ∈ ps.map Prod.fst
  · have ha : (ps.any fun p => p.1 == name) = true := by simpa using h
    rw [setProperty, ha, if_pos rfl, if_pos h, List.map_map]
    refine List.map_congr_left fun p _ => ?_
    by_cases hp : p.1 = name
    · simp [hp]
    · simp [hp]
  · rw [setProperty_of_not_mem h, if_neg h, List.map_append]
    rfl

theorem mem_setProperty {ps : List (String × α)} {name : String} {value : α} {p : String × α}
    (h : p ∈ setProperty ps name value) : p ∈ ps ∨ p = (name, value) := by
  rw [setProperty] at h
  split at h
  · obtain ⟨q, hq, rfl⟩ := List.mem_map.1 h
    split
    · exact .inr rfl
    · exact .inl hq
  · simpa using h

theorem propertiesOf_spec (es : List (String × α)) :
    ((propertiesOf es).map Prod.fst).Nodup ∧ ∀ p ∈ propertiesOf es, p ∈ es := by
  induction es using List.reverseRecOn with
  | nil => exact ⟨.nil, by simp [propertiesOf]⟩
  | append_singleton es e ih =>
    have hc : propertiesOf (es ++ [e]) = setProperty (propertiesOf es) e.1 e.2 := List.foldl_append
    rw [hc, keys_setProperty]
    constructor
    · split
      · exact ih.1
      next hn => exact List.nodup_append.2 ⟨ih.1, by simp, by rintro a ha b hb rfl; simp_all⟩
    · intro p hp
      rcases mem_setProperty hp with hp | rfl
      · exact List.mem_append_left _ (ih.2 p hp)
      · simp

end Properties

/-! ## Values -/

namespace AnnotationValue

theorem exists_elementOf {v : Operand} (h : v.annotates = true) :
    ∃ e, elementOf v = .ok e ∧ ofElement e = value v := by
  cases v <;> first | exact ⟨_, rfl, rfl⟩ | cases h

mutual

theorem exists_toElement : (v : AnnotationValue) → v.check = .ok () →
    ∃ e, v.toElement = .ok e ∧ (v.distinct = true → ofElement e = v)
  | value operand, h => by
    rw [check] at h
    split at h
    next ha =>
      obtain ⟨e, he, ho⟩ := exists_elementOf ha
      exact ⟨e, he, fun _ => ho⟩
    next => cases h
  | enum descriptor name, _ => ⟨_, rfl, fun _ => rfl⟩
  | classRef descriptor, _ => ⟨_, rfl, fun _ => rfl⟩
  | nested descriptor properties, h => by
    obtain ⟨es, hes, ho⟩ := exists_toNamed properties h
    refine ⟨.nested descriptor es, by rw [toElement, hes]; rfl, fun hd => ?_⟩
    simp only [distinct, Bool.and_eq_true, decide_eq_true_eq] at hd
    rw [ofElement, ho hd.2, propertiesOf_eq_self hd.1]
  | array values, h => by
    obtain ⟨es, hes, ho⟩ := exists_toElements values h
    refine ⟨.array es, by rw [toElement, hes]; rfl, fun hd => ?_⟩
    rw [ofElement, ho hd]

theorem exists_toNamed : (ps : List (String × AnnotationValue)) → checkProperties ps = .ok () →
    ∃ es, toNamed ps = .ok es ∧ (distinctIn ps = true → ofNamed es = ps)
  | [], _ => ⟨[], rfl, fun _ => rfl⟩
  | (name, v) :: rest, h => by
    rw [checkProperties] at h
    split at h
    next => cases h
    next hv =>
      obtain ⟨e, he, ho⟩ := exists_toElement v (within_eq_ok.1 hv)
      obtain ⟨es, hes, hos⟩ := exists_toNamed rest h
      refine ⟨(name, e) :: es, by rw [toNamed, he, hes]; rfl, fun hd => ?_⟩
      rw [distinctIn, Bool.and_eq_true] at hd
      rw [ofNamed, ho hd.1, hos hd.2]

theorem exists_toElements : (vs : List AnnotationValue) → checkAll vs = .ok () →
    ∃ es, toElements vs = .ok es ∧ (allDistinct vs = true → ofElements es = vs)
  | [], _ => ⟨[], rfl, fun _ => rfl⟩
  | v :: rest, h => by
    rw [checkAll] at h
    split at h
    next => cases h
    next hv =>
      obtain ⟨e, he, ho⟩ := exists_toElement v hv
      obtain ⟨es, hes, hos⟩ := exists_toElements rest h
      refine ⟨e :: es, by rw [toElements, he, hes]; rfl, fun hd => ?_⟩
      rw [allDistinct, Bool.and_eq_true] at hd
      rw [ofElements, ho hd.1, hos hd.2]

end

variable {ps : List (String × AnnotationValue)}

theorem distinctIn_iff : distinctIn ps = true ↔ ∀ p ∈ ps, p.2.distinct = true := by
  induction ps with
  | nil => simp [distinctIn]
  | cons p ps ih => rw [distinctIn, Bool.and_eq_true, ih, List.forall_mem_cons]

theorem distinctIn_propertiesOf (h : distinctIn ps = true) : distinctIn (propertiesOf ps) = true :=
  distinctIn_iff.2 fun p hp => distinctIn_iff.1 h p ((propertiesOf_spec ps).2 p hp)

mutual

theorem distinct_ofElement : (e : ElementValue) → (ofElement e).distinct = true
  | .nested descriptor elements => by
    rw [ofElement, distinct, Bool.and_eq_true, decide_eq_true_eq]
    exact ⟨(propertiesOf_spec _).1, distinctIn_propertiesOf (distinctIn_ofNamed elements)⟩
  | .array values => by
    rw [ofElement, distinct]
    exact allDistinct_ofElements values
  | .byte _ | .char _ | .double _ | .float _ | .int _ | .long _ | .short _ | .boolean _ | .string _ | .enum _ _
  | .classRef _ => rfl

theorem distinctIn_ofNamed : (es : List (String × ElementValue)) → distinctIn (ofNamed es) = true
  | [] => rfl
  | (name, e) :: rest => by
    rw [ofNamed, distinctIn, distinct_ofElement e, distinctIn_ofNamed rest]
    rfl

theorem allDistinct_ofElements : (es : List ElementValue) → allDistinct (ofElements es) = true
  | [] => rfl
  | e :: rest => by
    rw [ofElements, allDistinct, distinct_ofElement e, allDistinct_ofElements rest]
    rfl

end

end AnnotationValue

/-! ## Annotations -/

theorem Visibility.ofRuntime_isRuntime (v : Visibility) : Visibility.ofRuntime v.isRuntime = v := by cases v <;> rfl

theorem TypePath.ofStep_toStep (s : TypePathStep) : TypePath.ofStep (TypePath.toStep s) = .ok s := by
  cases s <;> rfl

namespace Model

/-- The annotations say the same. -/
structure Annotation.Encodes (a : Annotation) (b : Bool × ClassDoc.Annotation) : Prop where
  there : a.toClassFile = .ok b
  back : .ofClassFile b.1 b.2 = a

variable {a : Annotation} {b : Bool × ClassDoc.Annotation}

theorem Annotation.exists_toClassFile (h : a.validate = .ok ()) (hd : a.distinct = true) : ∃ b, a.Encodes b := by
  obtain ⟨es, hes, ho⟩ := AnnotationValue.exists_toNamed _ <| Annotation.validate_iff.1 h
  simp only [Bool.and_eq_true, Annotation.distinct, decide_eq_true_eq] at hd
  refine ⟨(a.visibility.isRuntime, ⟨a.descriptor, es⟩), by rw [toClassFile, hes]; rfl, ?_⟩
  rw [ofClassFile, Visibility.ofRuntime_isRuntime, ho hd.2, propertiesOf_eq_self hd.1]

theorem Annotation.Encodes.visible (h : a.Encodes b) : b.1 = a.visibility.isRuntime := by
  rw [← h.back]
  cases b with
  | mk visible => cases visible <;> rfl

theorem Annotation.Encodes.beq_visibility (h : a.Encodes b)
    (v : Visibility) : (a.visibility == v) = (b.1 == v.isRuntime) := by
  rw [h.visible]
  cases a.visibility <;> cases v <;> rfl

def TypeAnnotation.relabel (f : Label → Label) (a : TypeAnnotation) : TypeAnnotation :=
  { a with target := a.target.map f }

theorem TypeAnnotation.relabel_id (a : TypeAnnotation) : a.relabel (fun l => l) = a := by rw [relabel, TypeTarget.map_id]

/-- The type annotations say the same. -/
structure TypeAnnotation.Encodes (a : TypeAnnotation) (b : Bool × ClassDoc.TypeAnnotation Label) : Prop where
  there : a.toClassFile = .ok b
  back : ∀ f, TypeAnnotation.ofClassFile b.1 (b.2.map f) = .ok (a.relabel f)
  targetType : b.2.targetType = a.targetType
  target : b.2.target = a.target

theorem TypeAnnotation.Encodes.ofClassFile_eq {a : TypeAnnotation} {b : Bool × ClassDoc.TypeAnnotation Label}
    (h : a.Encodes b) : TypeAnnotation.ofClassFile b.1 b.2 = .ok a := by
  have hb := h.back fun l => l
  rwa [b.2.map_id, relabel_id] at hb

theorem TypeAnnotation.exists_toClassFile {allowed : UInt8 → Bool} {a : TypeAnnotation}
    (h : TypeAnnotation.validate allowed a = .ok ()) (hd : a.base.distinct = true) : ∃ b, a.Encodes b := by
  obtain ⟨-, -, hc⟩ := TypeAnnotation.validate_iff.1 h
  obtain ⟨b, hb⟩ := Annotation.exists_toClassFile (within_eq_ok.2 hc) hd
  refine ⟨(b.1, ⟨a.targetType, a.target, a.path.map TypePath.toStep, b.2⟩), ?_, fun f => ?_, rfl, rfl⟩
  · rw [toClassFile, hb.there]
    rfl
  · have hp : (a.path.map TypePath.toStep).mapM TypePath.ofStep = .ok a.path :=
      mapM_map_eq_ok fun s _ => TypePath.ofStep_toStep s
    simp only [ofClassFile, ClassDoc.TypeAnnotation.map, hp, ok_bind, hb.back, relabel]
    rfl

theorem Annotation.distinct_ofClassFile (visible : Bool) (a : ClassDoc.Annotation) :
    (ofClassFile visible a).distinct = true := by
  rw [distinct, Bool.and_eq_true, decide_eq_true_eq]
  exact ⟨(propertiesOf_spec _).1, AnnotationValue.distinctIn_propertiesOf (AnnotationValue.distinctIn_ofNamed _)⟩

theorem TypeAnnotation.distinct_ofClassFile {visible : Bool} {a : ClassDoc.TypeAnnotation Label} {t : TypeAnnotation}
    (h : TypeAnnotation.ofClassFile visible a = .ok t) : t.base.distinct = true := by
  obtain ⟨path, -, h⟩ := bind_eq_ok.1 h
  cases h
  exact Annotation.distinct_ofClassFile visible a.base

end Model

end ClassDoc
