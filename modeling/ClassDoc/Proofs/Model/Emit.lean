/-
  The events of a model, as one list.
-/
import ClassDoc.Model.Events
import ClassDoc.Proofs.Model.Annotation
import ClassDoc.Proofs.Model.Instruction
namespace ClassDoc

open List

variable {α β : Type}

/-! ## Computations that bring about events -/

/-- The computation brings about these events, and ends with the result. -/
def Emits (x : Model.EventM α) (events : List ClassEvent) (r : Except Fault α) : Prop :=
  ∀ items, ∃ new, new.reverse.filterMap TraceItem.event? = events ∧ outcome x ((), items) = (r, (), new ++ items)

namespace Emits

variable {x : Model.EventM α} {f : α → Model.EventM β} {events events' : List ClassEvent} {a : α} {r : Except Fault β}
  {xs : List α} {ys : List β}

theorem pure (a : α) : Emits (Pure.pure a) [] (.ok a) := fun _ => ⟨[], rfl, rfl⟩

theorem lift (y : Except Fault α) : Emits (liftM y) [] y := fun _ => ⟨[], rfl, by cases y <;> rfl⟩

theorem emit (e : ClassEvent) : Emits (ClassDoc.emit e) [e] (.ok ()) := fun _ => ⟨[.event [] e], rfl, rfl⟩

theorem outcome_bind {σ : Type} (x : EStateM Fault σ α) (f : α → EStateM Fault σ β) (s : σ) :
    outcome (x >>= f) s = match outcome x s with
      | (.ok a, s) => outcome (f a) s
      | (.error e, s) => (.error e, s) := by
  have hb : (x >>= f) s = EStateM.bind x f s := rfl
  simp only [outcome, hb, EStateM.bind]
  cases x s <;> rfl

theorem bind (hx : Emits x events (.ok a)) (hf : Emits (f a) events' r) : Emits (x >>= f) (events ++ events') r := by
  intro items
  obtain ⟨new, rfl, h⟩ := hx items
  obtain ⟨new', rfl, h'⟩ := hf (new ++ items)
  refine ⟨new' ++ new, by simp, ?_⟩
  rw [outcome_bind, h, append_assoc]
  exact h'

theorem bind_nil (hx : Emits x events (.ok a)) (hf : Emits (f a) [] r) : Emits (x >>= f) events r := by
  simpa using hx.bind hf

theorem nil_bind (hx : Emits x [] (.ok a)) (hf : Emits (f a) events r) : Emits (x >>= f) events r := hx.bind hf

theorem bind_error {e : Fault} (hx : Emits x events (.error e)) : Emits (x >>= f) events (.error e) := by
  intro items
  obtain ⟨new, rfl, h⟩ := hx items
  exact ⟨new, rfl, by rw [outcome_bind, h]⟩

theorem lift_bind {y : Except Fault α} (h : y = .ok a) (hf : Emits (f a) events r) : Emits (liftM y >>= f) events r := by
  subst h
  exact bind (lift _) hf

theorem when {c : Prop} [Decidable c] {x : Model.EventM Unit} {k : Unit → Model.EventM β} (hx : Emits x events (.ok ()))
    (hk : Emits (k ()) events' r) :
    Emits (if c then x >>= k else k ()) ((if c then events else []) ++ events') r := by
  by_cases h : c
  · rw [if_pos h, if_pos h]
    exact bind hx hk
  · rw [if_neg h, if_neg h]
    exact hk

theorem mapM (h : Forall₂ (fun x y => Emits (f x) [] (.ok y)) xs ys) : Emits (xs.mapM f) [] (.ok ys) := by
  induction h with
  | nil => exact pure []
  | cons hx _ ih =>
    rw [mapM_cons]
    exact bind hx (bind ih (pure _))

theorem forM {f : α → Model.EventM Unit} {events : β → List ClassEvent}
    (h : Forall₂ (fun x y => Emits (f x) (events y) (.ok ())) xs ys) :
    Emits (xs.forM f) (ys.flatMap events) (.ok ()) := by
  induction h with
  | nil => exact pure ()
  | cons hx _ ih =>
    rw [flatMap_cons]
    exact bind hx ih

theorem inside {r : Except Fault α} (p : Place) (h : Emits x events r) : Emits (tracedInside p x) events (within p r) := by
  intro items
  obtain ⟨new, rfl, ho⟩ := h []
  refine ⟨new.map (TraceItem.inside p), ?_, ?_⟩
  · rw [← map_reverse, filterMap_map]
    congr 1
    funext i
    cases i <;> rfl
  · rw [outcome] at ho
    rw [outcome, tracedInside]
    cases hx : x ((), []) with
    | error f s | ok a s =>
      rw [hx] at ho
      simp only [append_nil, Prod.mk.injEq] at ho
      obtain ⟨rfl, rfl⟩ := ho
      rfl

end Emits

/-! ## What all elements have -/

namespace Model

theorem emits_for (value : Option α) (event : α → ClassEvent) :
    Emits (emitFor value event) (value.toList.map event) (.ok ()) := by
  cases value with
  | none => exact .pure ()
  | some a => exact .emit _

theorem emits_each (values : List α) (event : α → ClassEvent) :
    Emits (emitEach values event) (values.map event) (.ok ()) := by
  rw [map_eq_flatMap]
  exact .forM (forall₂_same.2 fun a _ => .emit (event a))

def markers (deprecated synthetic : Bool) : List ClassEvent :=
  (if deprecated then [.deprecated] else []) ++ (if synthetic then [.synthetic] else [])

theorem forall_markers {P : ClassEvent → Prop} (hd : P .deprecated) (hs : P .synthetic) {deprecated synthetic : Bool} :
    ∀ e ∈ markers deprecated synthetic, P e := by
  cases deprecated <;> cases synthetic <;> simp [markers, hd, hs]

theorem emits_markers (deprecated synthetic : Bool) :
    Emits (emitMarkers deprecated synthetic) (markers deprecated synthetic) (.ok ()) := by
  have hs : Emits (if synthetic then emit .synthetic else pure ()) (markers false synthetic) (.ok ()) := by
    cases synthetic with
    | true => exact .emit _
    | false => exact .pure ()
  cases deprecated with
  | true => exact .bind (.emit _) hs
  | false => exact hs

theorem emits_annotations {as : List Annotation} {bs : List (Bool × ClassDoc.Annotation)}
    (h : Forall₂ Annotation.Encodes as bs) :
    Emits (emitAnnotations as) (bs.map fun b => .annotate b.1 b.2) (.ok ()) := by
  rw [map_eq_flatMap]
  exact .forM (h.imp fun a b hb => .lift_bind hb.there (.emit _))

theorem emits_types {as : List TypeAnnotation} {bs : List (Bool × ClassDoc.TypeAnnotation Label)}
    (h : Forall₂ TypeAnnotation.Encodes as bs) :
    Emits (emitTypeAnnotations as) (bs.map fun b => .annotateType b.1 b.2) (.ok ()) := by
  rw [map_eq_flatMap]
  exact .forM (h.imp fun a b hb => .lift_bind hb.there (.emit _))

/-! ## Record components and fields -/

/-- The components say the same. -/
structure RecordComponent.Encodes (c : RecordComponent) (b : ClassDoc.RecordComponent) : Prop where
  name : b.name = c.name
  descriptor : b.descriptor = c.descriptor
  signature : b.signature = c.signature
  annotations : Forall₂ Annotation.Encodes c.annotations b.annotations
  typeAnnotations : Forall₂ TypeAnnotation.Encodes c.typeAnnotations b.typeAnnotations

theorem exists_annotated {as : List Annotation} {ts : List TypeAnnotation} {allowed : UInt8 → Bool}
    (ha : ∀ a ∈ as, a.validate = .ok ()) (ht : ∀ a ∈ ts, TypeAnnotation.validate allowed a = .ok ())
    (hd : distinctAnnotated as ts = true) :
    (∃ bs, Forall₂ Annotation.Encodes as bs) ∧ ∃ bs, Forall₂ TypeAnnotation.Encodes ts bs := by
  simp only [distinctAnnotated, Bool.and_eq_true, all_eq_true] at hd
  exact ⟨forall₂_exists fun a h => Annotation.exists_toClassFile (ha a h) (hd.1 a h),
    forall₂_exists fun a h => TypeAnnotation.exists_toClassFile (ht a h) (hd.2 a h)⟩

theorem RecordComponent.exists_encodes {c : RecordComponent} (h : c.Valid)
    (hd : distinctAnnotated c.annotations c.typeAnnotations = true) : ∃ b, c.Encodes b := by
  obtain ⟨⟨as, ha⟩, ⟨ts, ht⟩⟩ := exists_annotated h.annotations h.typeAnnotations hd
  exact ⟨⟨c.name, c.descriptor, c.signature, as, ts⟩, rfl, rfl, rfl, ha, ht⟩

theorem RecordComponent.toClassFile_eq {c : RecordComponent} {b : ClassDoc.RecordComponent} (h : c.Encodes b) :
    c.toClassFile = .ok b := by
  obtain ⟨name, descriptor, signature, as, ts⟩ := b
  obtain ⟨rfl, rfl, rfl, ha, ht⟩ := h
  rw [toClassFile, mapM_eq_ok_iff.2 (ha.imp fun _ _ h => h.there), ok_bind, mapM_eq_ok_iff.2 (ht.imp fun _ _ h => h.there)]
  rfl

/-- What of a field is encoded for the class file. -/
structure FieldParts where
  value : Option Constant
  annotations : List (Bool × ClassDoc.Annotation)
  typeAnnotations : List (Bool × ClassDoc.TypeAnnotation Label)

namespace Field

variable {f : Field} {p : FieldParts}

/-- The parts say what the field says. -/
structure Encodes (f : Field) (p : FieldParts) : Prop where
  value : f.value = p.value.map Operand.ofConstant
  kinds : ∀ c ∈ p.value, c.kindsOk = true
  annotations : Forall₂ Annotation.Encodes f.annotations p.annotations
  typeAnnotations : Forall₂ TypeAnnotation.Encodes f.typeAnnotations p.typeAnnotations

theorem exists_encodes (h : f.Valid) (hd : distinctAnnotated f.annotations f.typeAnnotations = true) : ∃ p, f.Encodes p := by
  obtain ⟨⟨as, ha⟩, ⟨ts, ht⟩⟩ := exists_annotated h.annotations h.typeAnnotations hd
  have hv : ∃ value : Option Constant, f.value = value.map Operand.ofConstant ∧ ∀ c ∈ value, c.kindsOk = true := by
    cases hv : f.value with
    | none => exact ⟨none, rfl, by simp⟩
    | some v =>
      have hi := h.value v hv
      cases v with
      | int n => exact ⟨some (.integer n), rfl, by simp [Constant.kindsOk]⟩
      | long n => exact ⟨some (.long n), rfl, by simp [Constant.kindsOk]⟩
      | float n => exact ⟨some (.float n), rfl, by simp [Constant.kindsOk]⟩
      | double n => exact ⟨some (.double n), rfl, by simp [Constant.kindsOk]⟩
      | string n => exact ⟨some (.string n), rfl, by simp [Constant.kindsOk]⟩
      | _ => cases hi
  obtain ⟨value, hv, hk⟩ := hv
  exact ⟨⟨value, as, ts⟩, hv, hk, ha, ht⟩

def eventsOf (f : Field) (p : FieldParts) : List ClassEvent :=
  .field ⟨f.access, f.name, f.descriptor, p.value⟩ :: (f.signature.toList.map .signature
    ++ markers f.deprecated f.synthetic ++ p.annotations.map (fun a => .annotate a.1 a.2)
    ++ p.typeAnnotations.map fun a => .annotateType a.1 a.2)

theorem emits (h : f.Encodes p) : Emits f.emitEvents (f.eventsOf p) (.ok ()) := by
  have hv : Emits (f.value.mapM fun v => (liftM v.toConstant : EventM Constant)) [] (.ok p.value) := by
    rw [h.value]
    cases hc : p.value with
    | none => exact .pure _
    | some c => exact .lift_bind ((Operand.toConstant_eq_ok _ c).2 ⟨rfl, h.kinds c hc⟩) (.pure _)
  simp only [eventsOf, append_assoc]
  refine .bind hv (.bind (.emit _) (.bind (emits_for _ _) (.bind (emits_markers _ _) ?_)))
  exact .bind (emits_annotations h.annotations) (emits_types h.typeAnnotations)

end Field

end Model

/-! ## Methods -/

def CodeEvent.inBody? : CodeEvent → Option MethodEntry
  | .insn i => some (.instruction (.ofInsn i))
  | .label l => some (.label l)
  | .tryCatch t => some (.tryCatch t)
  | .frame f => some (.frame f)
  | .lineNumber line l => some (.line line l)
  | .localVariable _ | .annotateType _ _ | .maxs _ _ => none

def MethodEntry.Encodes (entry : MethodEntry) (e : CodeEvent) : Prop :=
  e.inBody? = some entry ∧ ∀ index, Model.Method.entryEvent index entry = .ok e

theorem MethodEntry.exists_encodes {entry : MethodEntry} (h : entry.Valid) : ∃ e, entry.Encodes e := by
  cases entry with
  | instruction i =>
    obtain ⟨insn, hi⟩ := h
    refine ⟨.insn insn, by rw [CodeEvent.inBody?, ← (Instruction.toInsn_eq_ok_iff.1 hi).1], fun index => ?_⟩
    rw [Model.Method.entryEvent, hi]
    rfl
  | label l => exact ⟨.label l, rfl, fun _ => rfl⟩
  | tryCatch t => exact ⟨.tryCatch t, rfl, fun _ => rfl⟩
  | frame f => exact ⟨.frame f, rfl, fun _ => rfl⟩
  | line number l => exact ⟨.lineNumber number l, rfl, fun _ => rfl⟩

namespace Model

/-- What of a method is encoded for the class file. -/
structure MethodParts where
  annotations : List (Bool × ClassDoc.Annotation)
  typeAnnotations : List (Bool × ClassDoc.TypeAnnotation Label)
  parameters : List (List (Bool × ClassDoc.Annotation))
  default : Option ElementValue
  /-- The body, without local variables and the rest. -/
  code : List CodeEvent

namespace Method

variable {m : Method} {p : MethodParts} {arguments : List String} {result : String} {v : Visibility}

/-- The parts say what the method says. -/
structure Encodes (m : Method) (p : MethodParts) : Prop where
  annotations : Forall₂ Annotation.Encodes m.annotations p.annotations
  typeAnnotations : Forall₂ TypeAnnotation.Encodes m.typeAnnotations p.typeAnnotations
  parameters : Forall₂ (fun q as => Forall₂ Annotation.Encodes q.annotations as) m.parameters p.parameters
  default : Forall₂ (fun v e => AnnotationValue.toElement v = .ok e ∧ .ofElement e = v) m.annotationDefault.toList
    p.default.toList
  code : Forall₂ MethodEntry.Encodes m.entries p.code

theorem exists_encodes (h : m.Valid arguments result) (hd : m.distinct = true) : ∃ p, m.Encodes p := by
  simp only [Method.distinct, Bool.and_eq_true, all_eq_true, Option.all_eq_true] at hd
  obtain ⟨⟨hp, ha⟩, hv⟩ := hd
  obtain ⟨⟨as, ha⟩, ⟨ts, ht⟩⟩ := exists_annotated h.annotations h.typeAnnotations ha
  obtain ⟨ps, hp⟩ : ∃ ps, Forall₂ (fun (q : Parameter) as => Forall₂ Annotation.Encodes q.annotations as)
      m.parameters ps := forall₂_exists fun q hq => forall₂_exists fun a hm =>
    Annotation.exists_toClassFile (h.parameterAnnotations q hq a hm) (hp q hq a hm)
  obtain ⟨code, hc⟩ := forall₂_exists fun e he => MethodEntry.exists_encodes (h.entries e he)
  cases hm : m.annotationDefault with
  | none => exact ⟨⟨as, ts, ps, none, code⟩, ha, ht, hp, by simp [hm], hc⟩
  | some v =>
    obtain ⟨e, he, ho⟩ := AnnotationValue.exists_toElement v (h.default v hm)
    exact ⟨⟨as, ts, ps, some e, code⟩, ha, ht, hp, by simp [hm, he, ho (hv v hm)], hc⟩

/-! ### Parameters -/

def skipped (m : Method) (arguments : Nat) (v : Visibility) : Nat :=
  match m.annotable v with
  | none => 0
  | some count => arguments - count.toNat

/-- The number of every annotated parameter has 8 bits. -/
def Reaches (m : Method) (arguments : Nat) (v : Visibility) : Prop :=
  ∀ index q, m.parameters[index]? = some q → (∃ a ∈ q.annotations, a.visibility = v) → index - m.skipped arguments v < 256

def parameterEvents (m : Method) (p : MethodParts) (arguments : Nat) (v : Visibility) : List ClassEvent :=
  (m.annotable v).toList.map (fun count => .annotableParameterCount count v.isRuntime)
    ++ p.parameters.zipIdx.flatMap fun (as, index) => (as.filter fun a => a.1 == v.isRuntime).map fun a =>
      .annotateParameter (UInt8.ofNat (index - m.skipped arguments v)) a.1 a.2

theorem skipped_le {n : Nat} (h : m.checkAnnotable n v = .ok ()) {index : Nat} {q : Parameter}
    (hq : m.parameters[index]? = some q) (ha : ∃ a ∈ q.annotations, a.visibility = v) : m.skipped n v ≤ index := by
  unfold checkAnnotable at h
  unfold skipped
  cases hm : m.annotable v with
  | none => simp
  | some count =>
    simp only [hm, bind_eq_ok, ensure_eq_ok] at h
    obtain ⟨-, -, h⟩ := h
    split at h
    next => cases h
    next hf =>
      by_contra hlt
      rw [findIdx?_eq_none_iff] at hf
      have hmem : q ∈ m.parameters.take (n - count.toNat) := by
        rw [mem_iff_getElem?]
        exact ⟨index, by rw [getElem?_take, if_pos (Nat.lt_of_not_le hlt), hq]⟩
      obtain ⟨a, ham, hav⟩ := ha
      have := hf q hmem
      simp only [any_eq_false, beq_iff_eq] at this
      exact this a ham hav

theorem emits_parameters (h : Forall₂ (fun q as => Forall₂ Annotation.Encodes q.annotations as) m.parameters
      p.parameters) {n : Nat} (hc : m.checkAnnotable n v = .ok ()) (hr : m.Reaches n v) :
    Emits (m.emitParameterAnnotations n v) (m.parameterEvents p n v) (.ok ()) := by
  have hs : Emits (m.emitAnnotable n v) ((m.annotable v).toList.map
      (fun count => .annotableParameterCount count v.isRuntime)) (.ok (m.skipped n v)) := by
    unfold emitAnnotable skipped
    unfold checkAnnotable at hc
    cases hm : m.annotable v with
    | none => exact .pure 0
    | some count =>
      simp only [hm, bind_eq_ok, ensure_eq_ok, decide_eq_true_eq] at hc
      obtain ⟨-, hle, -⟩ := hc
      refine Emits.bind_nil (.emit _) ?_
      rw [if_neg (by omega)]
      exact .pure _
  refine hs.bind (.forM ((forall₂_zipIdx h 0).imp ?_))
  rintro ⟨q, index⟩ ⟨as, _⟩ ⟨ha, rfl, i, hi, hq⟩
  obtain rfl : index = i := by simpa using hi
  change Emits ((q.annotations.filter fun a => a.visibility == v).forM _)
    ((as.filter fun a => a.1 == v.isRuntime).map _) (.ok ())
  rw [map_eq_flatMap]
  refine .forM ((forall₂_filter ha fun a b hab => hab.beq_visibility v).imp ?_)
  rintro a b ⟨hab, ham, hav⟩
  have hav : ∃ a ∈ q.annotations, a.visibility = v := ⟨a, ham, by simpa using hav⟩
  have hi : annotableIndex (m.skipped n v) index = .ok (UInt8.ofNat (index - m.skipped n v)) := by
    rw [annotableIndex, if_neg (Nat.not_lt.2 (skipped_le hc hq hav)), if_pos (hr index q hq hav)]
  exact .lift_bind hi (.lift_bind hab.there (.emit _))

/-! ### Code and the rest -/

def maxs (m : Method) : Option (UInt16 × UInt16) :=
  m.maxStack.bind fun stack => m.maxLocals.map fun locals => (stack, locals)

def codeOf (m : Method) (p : MethodParts) : List CodeEvent :=
  p.code ++ m.localVariables.map .localVariable
    ++ (p.typeAnnotations.filter fun a => TargetType.isCode a.2.targetType).map (fun a => .annotateType a.1 a.2)
    ++ m.maxs.toList.map fun maxs => .maxs maxs.1 maxs.2

theorem emits_entries {code : List CodeEvent} (h : Forall₂ MethodEntry.Encodes m.entries code) :
    Emits (m.entries.zipIdx.forM fun x => do
      let e ← entryEvent x.2 x.1
      emit (.code e)) (code.map .code) (.ok ()) := by
  have hz : Forall₂ (fun (x : MethodEntry × Nat) e => x.1.Encodes e) m.entries.zipIdx code := by
    rwa [← zipIdx_map_fst 0 m.entries, forall₂_map_left_iff] at h
  rw [map_eq_flatMap]
  exact .forM (hz.imp fun x e he => .lift_bind (he.2 x.2) (.emit _))

theorem emits_code (h : m.Encodes p) : Emits m.emitCode ((m.codeOf p).map .code) (.ok ()) := by
  have ht := forall₂_filter (f := fun a => TargetType.isCode a.targetType)
    (g := fun a => TargetType.isCode a.2.targetType) h.typeAnnotations fun a b hab => by rw [hab.targetType]
  simp only [codeOf, map_append, append_assoc, map_map]
  refine .bind (emits_entries h.code) (.bind (emits_each _ _) (.bind (a := ()) ?_ ?_))
  · rw [map_eq_flatMap]
    exact .forM (ht.imp fun a b hab => .lift_bind hab.1.there (.emit _))
  · unfold maxs
    cases m.maxStack with
    | none => exact .pure ()
    | some stack =>
      cases m.maxLocals with
      | none => exact .pure ()
      | some locals => exact .emit _

def leadOf (m : Method) (p : MethodParts) : List ClassEvent :=
  m.signature.toList.map .signature ++ markers m.deprecated m.synthetic
    ++ (if m.namesParameters then m.parameters.map fun q => .parameter q.name q.access else [])
    ++ p.annotations.map (fun a => .annotate a.1 a.2)
    ++ (p.typeAnnotations.filter fun a => !TargetType.isCode a.2.targetType).map (fun a => .annotateType a.1 a.2)

def headOf (m : Method) (p : MethodParts) (arguments : Nat) : List ClassEvent :=
  m.leadOf p ++ m.parameterEvents p arguments .runtime ++ m.parameterEvents p arguments .classFile
    ++ p.default.toList.map .annotationDefault

def eventsOf (m : Method) (p : MethodParts) (arguments : Nat) : List ClassEvent :=
  .method ⟨m.access, m.name, m.descriptor, m.exceptions⟩ :: (m.headOf p arguments ++ (m.codeOf p).map .code)

theorem argumentCount_eq (h : m.Valid arguments result) : ModelBuilder.argumentCount m = .ok arguments.length := by
  rw [ModelBuilder.argumentCount, h.descriptor]
  rfl

theorem emits (h : m.Encodes p) (hv : m.Valid arguments result) (hr : ∀ v, m.Reaches arguments.length v) :
    Emits m.emitEvents (m.eventsOf p arguments.length) (.ok ()) := by
  have ht := forall₂_filter (f := fun a => !TargetType.isCode a.targetType)
    (g := fun a => !TargetType.isCode a.2.targetType) h.typeAnnotations fun a b hab => by rw [hab.targetType]
  have hp := fun v => emits_parameters h.parameters (hv.annotable v) (hr v)
  unfold emitEvents
  simp only [eventsOf, headOf, leadOf, append_assoc]
  refine .bind (.emit _) (.bind (emits_for _ _) (.bind (emits_markers _ _) (.when (emits_each _ _) ?_)))
  refine .bind (emits_annotations h.annotations) (.bind (emits_types (ht.imp fun _ _ hab => hab.1)) ?_)
  refine .lift_bind (argumentCount_eq hv) (.bind (hp .runtime) (.bind (hp .classFile) ?_))
  have hd := h.default
  cases hm : m.annotationDefault with
  | none =>
    rw [hm] at hd
    obtain hn : p.default = none := by simpa using hd
    simpa [hn] using emits_code h
  | some v =>
    rw [hm] at hd
    obtain ⟨e, he⟩ : ∃ e, p.default = some e := by
      cases hpd : p.default with
      | none => rw [hpd] at hd; cases hd
      | some e => exact ⟨e, rfl⟩
    simp only [he, Option.toList_some, forall₂_cons, forall₂_nil_left_iff, and_true] at hd ⊢
    exact .lift_bind hd.1 (.bind (.emit _) (emits_code h))

end Method

end Model

/-! ## Classes -/

/-- What of a class is encoded for the class file. -/
structure ClassParts where
  annotations : List (Bool × Annotation)
  typeAnnotations : List (Bool × TypeAnnotation Label)
  record : List RecordComponent
  fields : List Model.FieldParts
  methods : List Model.MethodParts

namespace ClassModel

open Model

variable {c : ClassModel} {p : ClassParts}

/-- The parts say what the class says. -/
structure Encodes (c : ClassModel) (p : ClassParts) : Prop where
  annotations : Forall₂ Model.Annotation.Encodes c.annotations p.annotations
  typeAnnotations : Forall₂ Model.TypeAnnotation.Encodes c.typeAnnotations p.typeAnnotations
  record : Forall₂ Model.RecordComponent.Encodes (c.record.getD []) p.record
  fields : Forall₂ Field.Encodes c.fields p.fields
  methods : Forall₂ Method.Encodes c.methods p.methods

theorem exists_encodes_of_distinct (h : c.Valid) (hr : c.Distinct) : ∃ p, c.Encodes p := by
  obtain ⟨⟨as, ha⟩, ⟨ts, ht⟩⟩ := exists_annotated h.annotations h.typeAnnotations hr.annotated
  obtain ⟨rs, hrs⟩ := forall₂_exists fun r hm => RecordComponent.exists_encodes (h.components r hm) (hr.components r hm)
  obtain ⟨fs, hfs⟩ := forall₂_exists fun f hm => Field.exists_encodes (h.fields f hm) (hr.fields f hm)
  obtain ⟨ms, hms⟩ := forall₂_exists fun m hm =>
    (h.methods m hm).elim fun _ h' => h'.elim fun _ h' => Method.exists_encodes h' (hr.methods m hm)
  exact ⟨⟨as, ts, rs, fs, ms⟩, ha, ht, hrs, hfs, hms⟩

theorem exists_encodes (h : c.Valid) (hr : c.Representable) : ∃ p, c.Encodes p := exists_encodes_of_distinct h hr.distinct

def headOf (c : ClassModel) (p : ClassParts) : List ClassEvent :=
  (if c.sourceFile.isSome || c.sourceDebug.isSome then [.source c.sourceFile c.sourceDebug] else [])
    ++ c.signature.toList.map .signature
    ++ c.enclosingMethod.toList.map (fun e => .enclosingMethod e.owner (e.method.map Prod.fst) (e.method.map Prod.snd))
    ++ c.nestHost.toList.map .nestHost ++ c.nestMembers.map .nestMember
    ++ c.permittedSubclasses.map .permittedSubclass ++ c.innerClasses.map .innerClass
    ++ markers c.deprecated c.synthetic ++ p.annotations.map (fun a => .annotate a.1 a.2)
    ++ p.typeAnnotations.map (fun a => .annotateType a.1 a.2)
    ++ (c.record.map fun _ => ClassEvent.record p.record).toList ++ c.module.toList.map .module

def argumentsOf (m : Model.Method) : Nat := (ModelBuilder.argumentCount m).toOption.getD 0

def eventsOf (c : ClassModel) (p : ClassParts) : List ClassEvent :=
  .header ⟨c.version, c.access, c.name, c.superClass, c.interfaces⟩ :: (c.headOf p
    ++ (c.fields.zip p.fields).flatMap (fun f => f.1.eventsOf f.2)
    ++ (c.methods.zip p.methods).flatMap (fun m => m.1.eventsOf m.2 (argumentsOf m.1)) ++ [.done])

theorem emits_head (h : c.Encodes p) : Emits c.emitClass
    (.header ⟨c.version, c.access, c.name, c.superClass, c.interfaces⟩ :: c.headOf p) (.ok ()) := by
  unfold emitClass
  simp only [headOf, append_assoc]
  refine .bind (.emit _) (.when (.emit _) ?_)
  refine .bind (emits_for _ _) (.bind (emits_for _ _) (.bind (emits_for _ _) (.bind (emits_each _ _) ?_)))
  refine .bind (emits_each _ _) (.bind (emits_each _ _) (.bind (emits_markers _ _) ?_))
  refine .bind (emits_annotations h.annotations) (.bind (emits_types h.typeAnnotations) ?_)
  have hr := h.record
  cases hc : c.record with
  | none => simpa using emits_for _ _
  | some components =>
    rw [hc] at hr
    refine Emits.nil_bind (.mapM (hr.imp fun r b hb => ?_)) (.bind (.emit _) (emits_for _ _))
    have hw : within (.inComponent r.name) r.toClassFile = .ok b := within_eq_ok.2 (RecordComponent.toClassFile_eq hb)
    rw [hw]
    exact .lift _

/-- **The events of a class that follows the rules.** -/
theorem emits (h : c.Encodes p) (hv : c.Valid) (hr : ∀ m ∈ c.methods, ∀ v, m.Reaches (argumentsOf m) v) :
    Emits c.emitEvents (c.eventsOf p) (.ok ()) := by
  have hf : Emits (c.fields.forM fun f => tracedInside (.inField f.name f.descriptor) f.emitEvents)
      ((c.fields.zip p.fields).flatMap fun f => f.1.eventsOf f.2) (.ok ()) := by
    refine .forM ((forall₂_zip h.fields).imp ?_)
    rintro _ ⟨f, q⟩ ⟨-, hq, rfl⟩
    exact (Field.emits hq).inside _
  have hm : Emits (c.methods.forM fun m => tracedInside (.inMethod m.name m.descriptor) m.emitEvents)
      ((c.methods.zip p.methods).flatMap fun m => m.1.eventsOf m.2 (argumentsOf m.1)) (.ok ()) := by
    refine .forM ((forall₂_zip h.methods).imp ?_)
    rintro _ ⟨m, q⟩ ⟨hmem, hq, rfl⟩
    obtain ⟨arguments, result, hm⟩ := hv.methods m hmem
    have ha : argumentsOf m = arguments.length := by rw [argumentsOf, Method.argumentCount_eq hm]; rfl
    have hr := hr m hmem
    rw [ha] at hr ⊢
    exact (Method.emits hq hm hr).inside _
  simp only [eventsOf, append_assoc, ← cons_append]
  exact .bind (emits_head h) (.bind hf (.bind hm (.emit _)))

theorem events_eq {es : List ClassEvent} (h : Emits c.emitEvents es (.ok ())) : c.events = .ok es := by
  obtain ⟨new, rfl, ho⟩ := h []
  rw [events, trace, traceOf]
  rw [outcome] at ho
  cases hx : c.emitEvents ((), []) with
  | error => simp [hx] at ho
  | ok a s =>
    simp only [hx, append_nil, Prod.mk.injEq, true_and] at ho
    obtain ⟨-, rfl⟩ := ho
    rfl

end ClassModel

end ClassDoc
