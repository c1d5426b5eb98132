/-
  Classes as class files store them.

  In a class file annotations stand by their visibility, and how many parameters can be annotated is only told if it is not
  all of them. The code of a method is placed there, so it can be another one.
-/
import ClassDoc.Proofs.ClassFile.Form
import ClassDoc.Proofs.Model.Code
import ClassDoc.Proofs.Model.Normal
namespace ClassDoc

open List

/-! ## Annotations -/

def visibleFirst {α : Type} (visibility : α → Visibility) (as : List α) : List α :=
  as.filter (fun a => visibility a == .runtime) ++ as.filter fun a => visibility a == .classFile

variable {α : Type} {visibility : α → Visibility} {as : List α}

theorem mem_visibleFirst {a : α} : a ∈ visibleFirst visibility as ↔ a ∈ as := by
  rw [visibleFirst, mem_append, mem_filter, mem_filter, ← and_or_left]
  exact and_iff_left (by cases visibility a <;> decide)

theorem byVisibility_eq_filter (xs : List (Bool × α)) :
    byVisibility xs = xs.filter (fun a => a.1 == true) ++ xs.filter fun a => a.1 == false := by
  have h : ∀ visible, (withVisibility visible xs).map (fun a => (visible, a)) = xs.filter fun a => a.1 == visible := by
    intro visible
    rw [withVisibility, map_filterMap, ← filterMap_eq_filter]
    refine filterMap_congr fun a _ => ?_
    obtain ⟨b, a⟩ := a
    by_cases hb : b = visible <;> simp [hb, Option.guard]
  rw [byVisibility, h, h]

theorem mem_byVisibility {xs : List (Bool × α)} {a : Bool × α} : a ∈ byVisibility xs ↔ a ∈ xs := by
  rw [byVisibility_eq_filter, mem_append, mem_filter, mem_filter, ← and_or_left]
  exact and_iff_left (by cases a.1 <;> decide)

theorem forall₂_visibleFirst {β : Type} {R : α → Bool × β → Prop}
    (hR : ∀ a b, R a b → ∀ v, (visibility a == v) = (b.1 == v.isRuntime)) {bs : List (Bool × β)}
    (h : Forall₂ R as bs) : Forall₂ R (visibleFirst visibility as) (byVisibility bs) := by
  rw [byVisibility_eq_filter]
  have hv : ∀ v : Visibility, Forall₂ R (as.filter fun a => visibility a == v) (bs.filter fun b => b.1 == v.isRuntime) :=
    fun v => (forall₂_filter h fun a b hab => hR a b hab v).imp fun _ _ hab => hab.1
  exact rel_append (hv .runtime) (hv .classFile)

namespace Model

variable {b : Bool × ClassDoc.TypeAnnotation Label} {r : RecordComponent} {a : TypeAnnotation}

theorem TypeAnnotation.Encodes.beq_visibility
    (h : a.Encodes b) (v : Visibility) : (a.base.visibility == v) = (b.1 == v.isRuntime) := by
  obtain ⟨c, hc, hb⟩ := bind_eq_ok.1 h.there
  cases hb
  obtain ⟨_, -, hc⟩ := bind_eq_ok.1 hc
  cases hc
  cases a.base.visibility <;> cases v <;> rfl

theorem TypeAnnotation.Encodes.map (h : a.Encodes b) (f : Label → Label) : (a.relabel f).Encodes (b.1, b.2.map f) := by
  refine ⟨?_, fun g => ?_, h.targetType, congrArg (TypeTarget.map f) h.target⟩
  · obtain ⟨c, hc, hb⟩ := bind_eq_ok.1 h.there
    cases hb
    rw [toClassFile, relabel, hc]
    rfl
  · rw [b.2.map_map, h.back]
    simp [relabel, TypeTarget.map_map]

/-! ## Components and fields -/

def RecordComponent.stored (r : RecordComponent) : RecordComponent :=
  { r with
    annotations := visibleFirst Annotation.visibility r.annotations
    typeAnnotations := visibleFirst (fun a => a.base.visibility) r.typeAnnotations }

theorem RecordComponent.Encodes.stored {b : ClassDoc.RecordComponent} (h : r.Encodes b) :
    r.stored.Encodes b.readBack where
  name := h.name
  descriptor := h.descriptor
  signature := h.signature
  annotations := forall₂_visibleFirst (fun _ _ hab => hab.beq_visibility) h.annotations
  typeAnnotations := forall₂_visibleFirst (fun _ _ hab => hab.beq_visibility) h.typeAnnotations

theorem RecordComponent.Valid.stored (h : r.Valid) : r.stored.Valid where
  descriptor := h.descriptor
  annotations a ha := h.annotations a (mem_visibleFirst.1 ha)
  typeAnnotations a ha := h.typeAnnotations a (mem_visibleFirst.1 ha)

def FieldParts.stored (p : FieldParts) : FieldParts :=
  { p with annotations := byVisibility p.annotations, typeAnnotations := byVisibility p.typeAnnotations }

namespace Field

variable {f : Field} {p : FieldParts}

def stored (f : Field) : Field :=
  { f with
    annotations := visibleFirst Annotation.visibility f.annotations
    typeAnnotations := visibleFirst (fun a => a.base.visibility) f.typeAnnotations }

theorem Encodes.stored (h : f.Encodes p) : f.stored.Encodes p.stored where
  value := h.value
  kinds := h.kinds
  annotations := forall₂_visibleFirst (fun _ _ hab => hab.beq_visibility) h.annotations
  typeAnnotations := forall₂_visibleFirst (fun _ _ hab => hab.beq_visibility) h.typeAnnotations

theorem Valid.stored (h : f.Valid) : f.stored.Valid where
  visibility := h.visibility
  finalVolatile := h.finalVolatile
  descriptor := h.descriptor
  value := h.value
  annotations a ha := h.annotations a (mem_visibleFirst.1 ha)
  typeAnnotations a ha := h.typeAnnotations a (mem_visibleFirst.1 ha)

theorem readBack_innerEvents (f : Field) (p : FieldParts) :
    Element.headEvents (f.innerEvents p) ++ Element.annotationEvents (f.innerEvents p) = f.stored.innerEvents p.stored := by
  rw [← events_form, FieldForm.readBack_stored, ← events_form]
  rfl

end Field

/-! ## Methods -/

def MethodParts.stored (p : MethodParts) (code : CodeParts) : MethodParts where
  annotations := byVisibility p.annotations
  typeAnnotations := byVisibility (p.typeAnnotations.filter fun a => !TargetType.isCode a.2.targetType) ++ code.types
  parameters := p.parameters
  default := p.default
  code := code.entries

namespace Method

variable {m : Method} {p : MethodParts} {arguments : List String} {result : String} {code : CodeParts} {n : Nat}
  (v : Visibility)

def stored (m : Method) (n : Nat) (code : CodeParts) : Method :=
  { m with
    visibleAnnotable := m.visibleAnnotable.filter fun count => count.toNat ≠ n
    invisibleAnnotable := m.invisibleAnnotable.filter fun count => count.toNat ≠ n
    annotations := visibleFirst Annotation.visibility m.annotations
    typeAnnotations := visibleFirst (fun a => a.base.visibility) m.declarationTypeAnnotations
      ++ code.types.filterMap fun a => Except.toOption <| TypeAnnotation.ofClassFile a.1 a.2
    entries := code.entries.filterMap CodeEvent.inBody?
    localVariables := code.locals
    maxStack := code.maxs.map Prod.fst
    maxLocals := code.maxs.map Prod.snd }

/-- The code can stand for that of the method. -/
structure Stores (m : Method) (code : CodeParts) : Prop where
  entries : ∀ e ∈ code.entries, ∃ entry : MethodEntry, entry.Encodes e ∧ entry.Valid
  types : ∀ a ∈ code.types, ∃ t ∈ m.codeTypeAnnotations, ∃ f, (t.relabel f).Encodes a
  body : code.entries = [] ↔ m.entries = []
  parts : code.entries = [] → code.locals = [] ∧ code.maxs = none
  tryCatches : code.entries.countP (fun e => (Body.tryCatch? e).isSome) = m.tryCatches

theorem annotable_stored : (m.stored n code).annotable v = (m.annotable v).filter fun count => count.toNat ≠ n := by
  cases v <;> rfl

theorem skipped_stored : (m.stored n code).skipped n v = m.skipped n v := by
  rw [skipped, skipped, annotable_stored]
  cases m.annotable v with
  | none => rfl
  | some count =>
    by_cases hn : count.toNat = n <;> simp [Option.filter, hn]

theorem Reaches.stored {v : Visibility} (h : m.Reaches n v) : (m.stored n code).Reaches n v := by
  rw [Reaches, skipped_stored]
  exact h

theorem Stores.isCode (h : m.Stores code) : ∀ a ∈ code.types, TargetType.isCode a.2.targetType = true := by
  intro a ha
  obtain ⟨t, ht, f, hta⟩ := h.types a ha
  rw [hta.targetType]
  exact (mem_filter.1 ht).2

theorem Stores.forall₂_types (h : m.Stores code) : Forall₂ TypeAnnotation.Encodes
    (code.types.filterMap fun a => Except.toOption <| TypeAnnotation.ofClassFile a.1 a.2) code.types := by
  have ht : ∀ a ∈ code.types, ∃ t : TypeAnnotation, t.Encodes a := fun a ha => by
    obtain ⟨t, -, f, hta⟩ := h.types a ha
    exact ⟨_, hta⟩
  obtain ⟨ts, ht⟩ := forall₂_exists ht
  rw [filterMap_eq_of_forall₂ (ht.flip.imp fun t a hta => by rw [hta.ofClassFile_eq]; rfl)]
  exact ht.flip

theorem Stores.forall₂_entries (h : m.Stores code) :
    Forall₂ MethodEntry.Encodes (code.entries.filterMap CodeEvent.inBody?) code.entries := by
  obtain ⟨entries, he⟩ := forall₂_exists h.entries
  rw [filterMap_eq_of_forall₂ (he.imp fun _ _ hab => hab.1.1).flip]
  exact (he.imp fun _ _ hab => hab.1).flip

theorem Encodes.stored (h : m.Encodes p) (hc : m.Stores code) : (m.stored n code).Encodes (p.stored code) where
  annotations := forall₂_visibleFirst (fun _ _ hab => hab.beq_visibility) h.annotations
  typeAnnotations := by
    have hd := forall₂_types h false
    simp only [beq_false] at hd
    exact rel_append (forall₂_visibleFirst (fun _ _ hab => hab.beq_visibility) hd) hc.forall₂_types
  parameters := h.parameters
  default := h.default
  code := hc.forall₂_entries

/-! ### Events -/

theorem annotated_form : (m.form p n).annotated v.isRuntime =
    ⟨m.annotable v, (annotationsFor p v).map fun a => (UInt8.ofNat (a.1 - m.skipped n v), a.2)⟩ := by
  cases v <;> rfl

theorem filter_types_stored (hc : m.Stores code) (p : MethodParts) :
    (p.stored code).typeAnnotations.filter (fun a => !TargetType.isCode a.2.targetType) =
      byVisibility (p.typeAnnotations.filter fun a => !TargetType.isCode a.2.targetType) ∧
    (p.stored code).typeAnnotations.filter (fun a => TargetType.isCode a.2.targetType) = code.types := by
  have hd : ∀ a ∈ byVisibility (p.typeAnnotations.filter fun a => !TargetType.isCode a.2.targetType),
      TargetType.isCode a.2.targetType = false :=
    fun a ha => by simpa using (mem_filter.1 (mem_byVisibility.1 ha)).2
  rw [MethodParts.stored, filter_append, filter_append]
  constructor
  · have hnone : code.types.filter (fun a => !TargetType.isCode a.2.targetType) = [] :=
      filter_eq_nil_iff.2 fun a ha => by simp [hc.isCode a ha]
    rw [hnone, append_nil, filter_eq_self.2 fun a ha => by simp [hd a ha]]
  · rw [filter_eq_nil_iff.2 fun a ha => by simp [hd a ha], filter_eq_self.2 hc.isCode, nil_append]

theorem form_stored (hc : m.Stores code) : (m.stored n code).form (p.stored code) n = (m.form p n).stored n := by
  rw [form, (filter_types_stored hc p).1, skipped_stored, skipped_stored]
  rfl

theorem pairwise_annotationsFor (p : MethodParts) (v : Visibility) :
    (annotationsFor p v).Pairwise fun a b => a.1 ≤ b.1 := by
  have hz : ∀ (qs : List (List (Bool × ClassDoc.Annotation))) (start : Nat), ((qs.zipIdx start).flatMap fun x =>
      (x.1.filter fun a => a.1 == v.isRuntime).map fun a => (x.2, a.2)).Pairwise fun a b => a.1 ≤ b.1 := by
    intro qs
    induction qs with
    | nil => simp
    | cons q qs ih =>
      intro start
      rw [zipIdx_cons, flatMap_cons, pairwise_append]
      refine ⟨pairwise_map.2 (pairwise_of_forall fun _ _ => le_rfl), ih (start + 1), fun a ha b hb => ?_⟩
      obtain ⟨a', -, rfl⟩ := mem_map.1 ha
      obtain ⟨x, hx, hb⟩ := mem_flatMap.1 hb
      obtain ⟨b', -, rfl⟩ := mem_map.1 hb
      have := le_snd_of_mem_zipIdx hx
      exact Nat.le_of_succ_le this
  exact hz p.parameters 0

/-- **What is read of a method is the stored one.** -/
theorem readBack_innerEvents (h : m.Encodes p) (hn : ∀ v, m.Reaches n v) (hc : m.Stores code)
    (hr : ∀ visible, ParametersInRange visible n (m.innerEvents p n)) :
    methodReadBack m.headerOf n (m.innerEvents p n) = .method m.headerOf :: (m.stored n code).headOf (p.stored code) n := by
  have hp : ∀ visible, ((m.form p n).annotated visible).annotations.Pairwise fun a b => a.1 ≤ b.1 := by
    have hv : ∀ v : Visibility, ((m.form p n).annotated v.isRuntime).annotations.Pairwise fun a b => a.1 ≤ b.1 := by
      intro v
      rw [annotated_form]
      refine pairwise_map.2 ((pairwise_annotationsFor p v).imp_of_mem fun {a b} ha hb hab => ?_)
      have hlow : ∀ c ∈ annotationsFor p v, c.1 - m.skipped n v < 256 := by
        intro c hcm
        obtain ⟨q, hq, hb⟩ := mem_annotationsFor h hcm
        exact hn v c.1 q hq hb
      rw [UInt8.le_iff_toNat_le, UInt8.toNat_ofNat_of_lt' (hlow a ha), UInt8.toNat_ofNat_of_lt' (hlow b hb)]
      exact Nat.sub_le_sub_right hab _
    intro visible
    cases visible with
    | true => exact hv .runtime
    | false => exact hv .classFile
  rw [innerEvents, ← frontEvents_form] at hr ⊢
  rw [← frontEvents_form, form_stored hc]
  exact MethodForm.readBack_stored (m := m.form p n) (m.codeOf p) hp hr

theorem codeOf_stored (hc : m.Stores code) : (m.stored n code).codeOf (p.stored code) = code.events := by
  have hm : (m.stored n code).maxs = code.maxs := by
    rw [maxs, stored]
    cases code.maxs <;> rfl
  rw [codeOf, CodeParts.events, hm, (filter_types_stored hc p).2]
  rfl

/-! ### Rules -/

theorem tryCatches_eq {es : List CodeEvent} (h : Forall₂ MethodEntry.Encodes m.entries es) :
    m.tryCatches = es.countP fun e => (Body.tryCatch? e).isSome := by
  rw [tryCatches]
  generalize m.entries = entries at h ⊢
  induction h with
  | nil => rfl
  | @cons entry e entries es he _ ih =>
    rw [countP_cons, countP_cons, ih]
    cases e <;> cases he.1 <;> rfl

theorem tryCatches_stored (hc : m.Stores code) : (m.stored n code).tryCatches = m.tryCatches :=
  (tryCatches_eq (m := m.stored n code) hc.forall₂_entries).trans hc.tryCatches

theorem hasBody_stored (hc : m.Stores code) : (m.stored n code).hasBody = m.hasBody := by
  have hl := hc.forall₂_entries.length_eq
  have he : code.entries.filterMap CodeEvent.inBody? = [] ↔ m.entries = [] := by
    rw [← hc.body, ← length_eq_zero_iff, hl, length_eq_zero_iff]
  rw [hasBody, hasBody, Bool.eq_iff_iff]
  simpa [stored] using not_congr he

theorem mem_types_stored (hc : m.Stores code) (ha : a ∈ (m.stored n code).typeAnnotations) :
    ∃ t ∈ m.typeAnnotations, ∃ f, a = t.relabel f := by
  rw [stored, mem_append] at ha
  rcases ha with ha | ha
  · refine ⟨a, (mem_filter.1 (mem_visibleFirst.1 ha)).1, fun l => l, ?_⟩
    rw [a.relabel_id]
  · obtain ⟨b, hb, hab⟩ := mem_filterMap.1 ha
    obtain ⟨t, ht, f, htb⟩ := hc.types b hb
    rw [htb.ofClassFile_eq] at hab
    exact ⟨t, (mem_filter.1 ht).1, f, (Option.some.inj hab).symm⟩

theorem Valid.stored (h : m.Valid arguments result) (hc : m.Stores code)
    (hl : (m.stored arguments.length code).checkLabels = .ok ()) :
      (m.stored arguments.length code).Valid arguments result where
  visibility := h.visibility
  descriptor := h.descriptor
  abstractAccess := h.abstractAccess
  body := by
    rw [hasBody_stored hc]
    exact h.body
  bodyParts := by
    rw [hasBody_stored hc, Bool.or_eq_true]
    by_cases hb : m.entries = []
    · obtain ⟨hv, hm⟩ := hc.parts (hc.body.2 hb)
      exact .inr (by simp [Method.stored, hv, hm])
    · exact .inl (by simp [hasBody, hb])
  maxs := by
    rw [Method.stored]
    cases code.maxs <;> rfl
  parameters := h.parameters
  annotable v := by
    have hv := checkAnnotable_eq_ok.1 (h.annotable v)
    refine checkAnnotable_eq_ok.2 fun count hcount => hv count ?_
    rw [annotable_stored, Option.filter_eq_some_iff] at hcount
    exact hcount.1
  annotations a ha := h.annotations a (mem_visibleFirst.1 ha)
  parameterAnnotations := h.parameterAnnotations
  typeAnnotations a ha := by
    obtain ⟨t, ht, f, rfl⟩ := mem_types_stored hc ha
    rw [hasBody_stored hc]
    exact Iff.mpr (t.validate_relabel f) (h.typeAnnotations t ht)
  catches a ha := by
    obtain ⟨t, ht, f, rfl⟩ := mem_types_stored hc ha
    rw [tryCatches_stored hc]
    exact (checkCatch_relabel f).2 (h.catches t ht)
  default := h.default
  labels := hl
  entries entry he := by
    obtain ⟨e, he, hb⟩ := mem_filterMap.1 he
    obtain ⟨entry', hee, hv⟩ := hc.entries e he
    rw [hee.1] at hb
    cases hb
    exact hv

end Method

end Model

/-! ## Classes -/

def ClassParts.stored (p : ClassParts) (methods : List Model.MethodParts) : ClassParts where
  annotations := byVisibility p.annotations
  typeAnnotations := byVisibility p.typeAnnotations
  record := p.record.map RecordComponent.readBack
  fields := p.fields.map Model.FieldParts.stored
  methods := methods

namespace ClassModel

open Model

variable {c : ClassModel} {p : ClassParts} {methods : List Method} {ps : List MethodParts}

def stored (c : ClassModel) (methods : List Method) : ClassModel :=
  { c with
    annotations := visibleFirst Model.Annotation.visibility c.annotations
    typeAnnotations := visibleFirst (fun a => a.base.visibility) c.typeAnnotations
    record := c.record.map fun rs => rs.map RecordComponent.stored
    fields := c.fields.map Field.stored
    methods := methods }

theorem getD_record_stored (c : ClassModel) (methods : List Method) :
    (c.stored methods).record.getD [] = (c.record.getD []).map RecordComponent.stored := by
  rw [stored]
  cases c.record <;> rfl

theorem Encodes.stored (h : c.Encodes p) (hm : Forall₂ Method.Encodes methods ps) :
    (c.stored methods).Encodes (p.stored ps) where
  annotations := forall₂_visibleFirst (fun _ _ hab => hab.beq_visibility) h.annotations
  typeAnnotations := forall₂_visibleFirst (fun _ _ hab => hab.beq_visibility) h.typeAnnotations
  record := by
    rw [getD_record_stored, ClassParts.stored, forall₂_map_left_iff, forall₂_map_right_iff]
    exact h.record.imp fun _ _ hr => hr.stored
  fields := by
    rw [ClassModel.stored, ClassParts.stored, forall₂_map_left_iff, forall₂_map_right_iff]
    exact h.fields.imp fun _ _ hf => hf.stored
  methods := hm

theorem Valid.stored (h : c.Valid) (hm : ∀ m ∈ methods, ∃ arguments result, m.Valid arguments result)
    (hn : methods.map (fun m => (m.name, m.descriptor)) = c.methods.map fun m => (m.name, m.descriptor)) :
    (c.stored methods).Valid where
  visibility := h.visibility
  interfaceAbstract := h.interfaceAbstract
  interfaceFinal := h.interfaceFinal
  moduleFlag := h.moduleFlag
  annotations a ha := h.annotations a (mem_visibleFirst.1 ha)
  typeAnnotations a ha := h.typeAnnotations a (mem_visibleFirst.1 ha)
  components := by
    rw [getD_record_stored, forall_mem_map]
    exact fun r hr => (h.components r hr).stored
  componentNames := by
    rw [getD_record_stored, map_map]
    exact h.componentNames
  fields := by
    rw [ClassModel.stored, forall_mem_map]
    exact fun f hf => (h.fields f hf).stored
  fieldNames := by
    rw [ClassModel.stored, map_map]
    exact h.fieldNames
  methods := hm
  methodNames := by
    rw [ClassModel.stored, hn]
    exact h.methodNames

/-- **What is read of a class up to its members is the stored one.** -/
theorem readBack_headOf (c : ClassModel) (p : ClassParts) (methods : List Method) (ps : List MethodParts) :
    classReadBack (c.headOf p) = (c.stored methods).headOf (p.stored ps) := by
  have hs : ∀ s ∈ (c.form p).source, s.1.isSome || s.2.isSome := by
    intro s hs
    rw [form] at hs
    dsimp only at hs
    split at hs
    next h =>
      cases hs
      exact h
    next => cases hs
  have hf : ((c.form p).stored).ownEvents = ((c.stored methods).form (p.stored ps)).ownEvents := by
    have hr : ((c.form p).stored).record = ((c.stored methods).form (p.stored ps)).record := by
      rw [ClassForm.stored, form, form, ClassModel.stored, ClassParts.stored]
      cases c.record <;> rfl
    simp only [ClassForm.ownEvents, hr]
    rfl
  rw [← ownEvents_form, ← ownEvents_form, ClassForm.readBack_stored hs, hf]

end ClassModel

end ClassDoc
