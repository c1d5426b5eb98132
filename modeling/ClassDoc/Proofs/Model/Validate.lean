/-
  The rules on classes, one by one.

  `ClassModel.validate` stops at the first broken rule. Here the rules stand side by side, for each part of a class.
-/
import ClassDoc.Proofs.Fault
namespace ClassDoc

open List

/-! ## Steps -/

theorem check_bind_eq_ok {α : Type} {x : Except Fault Unit} {f : Unit → Except Fault α} {a : α} :
    x >>= f = .ok a ↔ x = .ok () ∧ f () = .ok a :=
  bind_eq_ok.trans Unique.exists_iff

theorem ensureDescriptor_eq_ok {α : Type} {v : Descriptor.Problem → Violation} {x : Except Descriptor.Problem α} {a : α} :
    ensureDescriptor v x = .ok a ↔ x = .ok a := by
  cases x <;> simp [ensureDescriptor]

theorem forall_mem_zipIdx {α : Type} {xs : List α} {P : α → Prop} : (∀ x i, (x, i) ∈ xs.zipIdx → P x) ↔ ∀ x ∈ xs, P x := by
  have h := forall_mem_map (f := Prod.fst) (l := xs.zipIdx) (P := P)
  rw [zipIdx_map_fst] at h
  exact Prod.forall.symm.trans h.symm

theorem eachOnce_eq_ok {α κ : Type} [BEq κ] [LawfulBEq κ] [Hashable κ] {key : α → κ} {check : α → Except Fault Unit}
    {twice : α → Fault} {seen : Std.HashSet κ} {xs : List α} {u : Unit} :
    eachOnce key check twice seen xs = .ok u ↔
      (∀ x ∈ xs, check x = .ok ()) ∧ (xs.map key).Nodup ∧ ∀ x ∈ xs, key x ∉ seen := by
  induction xs generalizing seen with
  | nil => simp [eachOnce]
  | cons x xs ih =>
    rw [eachOnce]
    cases hx : check x with
    | error f => simp [hx]
    | ok u =>
      by_cases hs : key x ∈ seen
      · simp [hs]
      · simp only [Std.HashSet.contains_iff_mem, hs, if_false, ih, Std.HashSet.mem_insert, map_cons, nodup_cons,
          mem_map, mem_cons, forall_eq_or_imp, hx, true_and, not_or, not_false_eq_true, beq_iff_eq]
        constructor
        · rintro ⟨h1, h2, h3⟩
          exact ⟨h1, ⟨by rintro ⟨y, hy, he⟩; exact (h3 y hy).1 he.symm, h2⟩, fun y hy => (h3 y hy).2⟩
        · rintro ⟨h1, ⟨h2, h3⟩, h4⟩
          exact ⟨h1, h3, fun y hy => ⟨fun he => h2 ⟨y, hy, he.symm⟩, h4 y hy⟩⟩

namespace Model

/-! ## Annotations -/

theorem Annotation.validate_iff {a : Annotation} :
    a.validate = .ok () ↔ AnnotationValue.checkProperties a.properties = .ok () := within_eq_ok

theorem TypeAnnotation.validate_iff {allowed : UInt8 → Bool} {a : TypeAnnotation} :
    TypeAnnotation.validate allowed a = .ok () ↔ allowed a.targetType = true ∧ a.target.fits a.targetType = true ∧
      AnnotationValue.checkProperties a.base.properties = .ok () := by
  simp [bind_eq_ok, TypeAnnotation.validate, ensure_eq_ok, within_eq_ok]

/-! ## Components and fields -/

/-- The component follows the rules. -/
@[mk_iff] structure RecordComponent.Valid (c : RecordComponent) : Prop where
  descriptor : Descriptor.checkField c.descriptor = .ok ()
  annotations : ∀ a ∈ c.annotations, a.validate = .ok ()
  typeAnnotations : ∀ a ∈ c.typeAnnotations, TypeAnnotation.validate targetsField a = .ok ()

theorem RecordComponent.validate_iff {c : RecordComponent} : c.validate = .ok () ↔ c.Valid := by
  simp only [RecordComponent.validate, valid_iff, check_bind_eq_ok, ensureDescriptor_eq_ok, forM_eq_ok]

/-- The field follows the rules. -/
@[mk_iff] structure Field.Valid (f : Field) : Prop where
  visibility : Access.oneVisibility f.access = true
  finalVolatile : (!(Access.has f.access Access.final && Access.has f.access Access.volatile)) = true
  descriptor : Descriptor.checkField f.descriptor = .ok ()
  value : ∀ v ∈ f.value, initialises v f.descriptor = true
  annotations : ∀ a ∈ f.annotations, a.validate = .ok ()
  typeAnnotations : ∀ a ∈ f.typeAnnotations, TypeAnnotation.validate targetsField a = .ok ()

theorem Field.validate_iff {f : Field} : f.validate = .ok () ↔ f.Valid := by
  cases hv : f.value <;> simp [Field.validate, checkVisibility, valid_iff, hv, check_bind_eq_ok, ensureDescriptor_eq_ok,
    ensure_eq_ok, forM_eq_ok, -List.forM_eq_forM]

end Model

/-! ## Methods -/

def MethodEntry.Valid : MethodEntry → Prop
  | instruction i => ∃ insn, i.toInsn = .ok insn
  | frame f => f.wellFormed = true
  | label _ | tryCatch _ | line _ _ => True

namespace Model.Method

theorem checkEntry_eq_ok {index : Nat} {e : MethodEntry} : checkEntry index e = .ok () ↔ e.Valid := by
  cases e <;> simp [checkEntry, MethodEntry.Valid, bind_eq_ok, within_eq_ok, ensure_eq_ok]

variable {m : Method}

theorem checkLabels_eq_ok : m.checkLabels = .ok () ↔ (m.entries.filterMap MethodEntry.defined?).Nodup ∧
    ∃ references, m.references = .ok references ∧ ∀ r ∈ references, r.1 ∈ m.entries.filterMap MethodEntry.defined? := by
  have hd : ∀ labels, m.definitions = .ok labels ↔
      (m.entries.filterMap MethodEntry.defined?).Nodup ∧ labels = m.entries.filterMap MethodEntry.defined? := by
    intro labels
    simp only [definitions, bind_eq_ok, eachOnce_eq_ok, pure_eq_ok, Except.ok.injEq, eq_comm (a := labels)]
    simp
  constructor
  · intro h
    obtain ⟨undefined, hu, h⟩ := bind_eq_ok.1 h
    cases undefined with
    | some p => cases h
    | none =>
      obtain ⟨labels, hl, hu⟩ := bind_eq_ok.1 hu
      obtain ⟨references, hr, hu⟩ := bind_eq_ok.1 hu
      obtain ⟨hn, rfl⟩ := (hd labels).1 hl
      refine ⟨hn, references, hr, ?_⟩
      simpa using Except.ok.inj hu
  · rintro ⟨hn, references, hr, ha⟩
    have hu : m.undefined? = .ok none := by
      rw [undefined?, (hd _).2 ⟨hn, rfl⟩, ok_bind, hr, ok_bind]
      refine congrArg Except.ok ?_
      simpa using ha
    rw [checkLabels, hu]
    rfl

/-- The method follows the rules, with the arguments and the result of its descriptor. -/
@[mk_iff] structure Valid (m : Method) (arguments : List String) (result : String) : Prop where
  visibility : Access.oneVisibility m.access = true
  descriptor : Descriptor.splitMethod m.descriptor = .ok (arguments, result)
  abstractAccess : (!(Access.has m.access Access.abstract && Access.has m.access notAbstract)) = true
  body : m.needsBody = m.hasBody
  bodyParts : (m.hasBody || (m.localVariables.isEmpty && m.maxStack.isNone && m.maxLocals.isNone)) = true
  maxs : m.maxStack.isSome = m.maxLocals.isSome
  parameters : (m.parameters.isEmpty || m.parameters.length == arguments.length) = true
  annotable : ∀ v, m.checkAnnotable arguments.length v = .ok ()
  annotations : ∀ a ∈ m.annotations, a.validate = .ok ()
  parameterAnnotations : ∀ p ∈ m.parameters, ∀ a ∈ p.annotations, a.validate = .ok ()
  typeAnnotations : ∀ a ∈ m.typeAnnotations, TypeAnnotation.validate (targetsMethod m.hasBody) a = .ok ()
  catches : ∀ a ∈ m.typeAnnotations, checkCatch m.tryCatches a = .ok ()
  default : ∀ v ∈ m.annotationDefault, v.check = .ok ()
  labels : m.checkLabels = .ok ()
  entries : ∀ e ∈ m.entries, e.Valid

theorem checkBody_eq_ok : m.checkBody = .ok () ↔
    (!(Access.has m.access Access.abstract && Access.has m.access notAbstract)) = true ∧ m.needsBody = m.hasBody ∧
      (m.hasBody || (m.localVariables.isEmpty && m.maxStack.isNone && m.maxLocals.isNone)) = true ∧
      m.maxStack.isSome = m.maxLocals.isSome := by
  simp only [checkBody, check_bind_eq_ok, ensure_eq_ok, beq_iff_eq]
  cases m.needsBody <;> cases m.hasBody <;> simp

theorem forall_visibility {P : Visibility → Prop} : (∀ v, P v) ↔ P .runtime ∧ P .classFile :=
  ⟨fun h => ⟨h _, h _⟩, fun h v => by cases v <;> simp only [h]⟩

theorem checkParameters_eq_ok {arguments : Nat} : m.checkParameters arguments = .ok () ↔
    (m.parameters.isEmpty || m.parameters.length == arguments) = true ∧ ∀ v, m.checkAnnotable arguments v = .ok () := by
  simp only [checkParameters, check_bind_eq_ok, ensure_eq_ok, forall_visibility]

theorem checkAnnotated_eq_ok : m.checkAnnotated = .ok () ↔
    (∀ a ∈ m.annotations, a.validate = .ok ()) ∧ (∀ p ∈ m.parameters, ∀ a ∈ p.annotations, a.validate = .ok ()) ∧
      (∀ a ∈ m.typeAnnotations, TypeAnnotation.validate (targetsMethod m.hasBody) a = .ok ()) ∧
      (∀ a ∈ m.typeAnnotations, checkCatch m.tryCatches a = .ok ()) ∧ ∀ v ∈ m.annotationDefault, v.check = .ok () := by
  cases hd : m.annotationDefault <;> simp [checkAnnotated, check_bind_eq_ok, hd, forM_eq_ok, within_eq_ok,
    forall_mem_zipIdx, -List.forM_eq_forM]

theorem validate_iff : m.validate = .ok () ↔ ∃ arguments result, m.Valid arguments result := by
  simp only [validate, checkVisibility, ↓check_bind_eq_ok, bind_eq_ok, exists_const, ensure_eq_ok, ensureDescriptor_eq_ok,
    Prod.exists, checkBody_eq_ok, checkParameters_eq_ok, checkAnnotated_eq_ok, forM_eq_ok, checkEntry_eq_ok, Prod.forall,
    forall_mem_zipIdx, valid_iff, and_assoc, exists_and_left]

end Model.Method

/-! ## Classes -/

namespace ClassModel

/-- The class follows the rules. -/
@[mk_iff] structure Valid (c : ClassModel) : Prop where
  visibility : Access.oneVisibility c.access = true
  interfaceAbstract : (!Access.has c.access Access.interface || Access.has c.access Access.abstract) = true
  interfaceFinal : (!Access.has c.access Access.interface || !Access.has c.access Access.final) = true
  moduleFlag : (c.module.isNone || Access.has c.access Access.module) = true
  annotations : ∀ a ∈ c.annotations, a.validate = .ok ()
  typeAnnotations : ∀ a ∈ c.typeAnnotations, Model.TypeAnnotation.validate Model.targetsClass a = .ok ()
  components : ∀ r ∈ c.record.getD [], r.Valid
  componentNames : ((c.record.getD []).map fun r => r.name).Nodup
  fields : ∀ f ∈ c.fields, f.Valid
  fieldNames : (c.fields.map fun f => (f.name, f.descriptor)).Nodup
  methods : ∀ m ∈ c.methods, ∃ arguments result, m.Valid arguments result
  methodNames : (c.methods.map fun m => (m.name, m.descriptor)).Nodup

theorem validate_iff {c : ClassModel} : c.validate = .ok () ↔ c.Valid := by
  simp only [validate, within_eq_ok, check_bind_eq_ok, checkAccess, checkVisibility, ensure_eq_ok, forM_eq_ok,
    checkComponents,
    checkFields, checkMethods, eachOnce_eq_ok, Model.RecordComponent.validate_iff, Model.Field.validate_iff,
    Model.Method.validate_iff, Std.HashSet.not_mem_empty, not_false_eq_true, implies_true, and_true, valid_iff, and_assoc]

end ClassModel

/-! ## Deciding -/

instance : DecidablePred MethodEntry.Valid
  | .instruction i => decidable_of_iff (∃ a, i.toInsn = .ok a ∧ True) (by simp [MethodEntry.Valid])
  | .frame f => inferInstanceAs (Decidable (f.wellFormed = true))
  | .label _ | .tryCatch _ | .line _ _ => .isTrue trivial

namespace Model

instance {P : Visibility → Prop} [DecidablePred P] : Decidable (∀ v, P v) := decidable_of_iff' _ Method.forall_visibility

instance (m : Method) : Decidable (m.checkLabels = .ok ()) := decidable_of_iff' _ Method.checkLabels_eq_ok

instance (m : Method) (arguments : List String) (result : String) : Decidable (m.Valid arguments result) :=
  decidable_of_iff' _ (m.valid_iff ..)

instance (m : Method) : Decidable (∃ arguments result, m.Valid arguments result) :=
  decidable_of_iff (∃ s, Descriptor.splitMethod m.descriptor = .ok s ∧ m.Valid s.1 s.2)
    ⟨fun ⟨_, _, h⟩ => ⟨_, _, h⟩, fun ⟨_, _, h⟩ => ⟨_, h.descriptor, h⟩⟩

instance : DecidablePred RecordComponent.Valid := fun r => decidable_of_iff' _ r.valid_iff

instance : DecidablePred Field.Valid := fun f => decidable_of_iff' _ f.valid_iff

end Model

instance : DecidablePred ClassModel.Valid := fun c => decidable_of_iff' _ c.valid_iff

end ClassDoc
