/-
  The labels in the events of a model that follows the rules.

  Part of such a model can still lack a counterpart in class files; then its events end there.
-/
import ClassDoc.Proofs.ClassFile.Trace
import ClassDoc.Proofs.Labels.Write
import ClassDoc.Proofs.Model.Replay
namespace ClassDoc

open List

variable {α β : Type} {x : Model.EventM α}

/-! ## Values of a class file -/

namespace LabelSafe

@[grind ←] theorem elementOf (v : Operand) : LabelSafe (AnnotationValue.elementOf v) := by
  cases v <;> first | exact ok _ | exact fail rfl

mutual

@[grind ←] theorem toElement : (v : AnnotationValue) → LabelSafe v.toElement
  | .value operand => elementOf operand
  | .enum _ _ | .classRef _ => ok _
  | .nested _ properties => bind (toNamed properties) fun _ => pure _
  | .array values => bind (toElements values) fun _ => pure _

theorem toNamed : (ps : List (String × AnnotationValue)) → LabelSafe (AnnotationValue.toNamed ps)
  | [] => ok _
  | (_, v) :: rest => bind (toElement v) fun _ => bind (toNamed rest) fun _ => pure _

theorem toElements : (vs : List AnnotationValue) → LabelSafe (AnnotationValue.toElements vs)
  | [] => ok _
  | v :: rest => bind (toElement v) fun _ => bind (toElements rest) fun _ => pure _

end

@[grind ←] theorem annotationToClassFile (a : Model.Annotation) : LabelSafe a.toClassFile :=
  bind (toNamed _) fun _ => pure _

@[grind ←] theorem typeToClassFile (a : Model.TypeAnnotation) : LabelSafe a.toClassFile :=
  bind (annotationToClassFile _) fun _ => pure _

@[grind ←] theorem checkHandle (h : Handle) : LabelSafe (Operand.checkHandle h) := by grind [Operand.checkHandle]

mutual

@[grind ←] theorem toConstant : (v : Operand) → LabelSafe v.toConstant
  | .handle h => bind (checkHandle h) fun _ => pure _
  | .dynamic _ _ bootstrap arguments => bind (checkHandle bootstrap) fun _ => bind (toConstants arguments) fun _ => pure _
  | .int _ | .float _ | .long _ | .double _ | .string _ | .classRef _ | .methodType _ => ok _
  | .none | .bool _ | .byte _ | .short _ | .char _ | .label _ | .array _ => fail rfl

theorem toConstants : (vs : List Operand) → LabelSafe (Operand.toConstants vs)
  | [] => ok _
  | v :: rest => bind (toConstant v) fun _ => bind (toConstants rest) fun _ => pure _

end

end LabelSafe

/-! ## Computations that bring about events of a kind -/

/-- All events satisfy `P`, and no failure is due to labels. -/
def EmitsOnly (P : ClassEvent → Prop) (x : Model.EventM α) : Prop :=
  ∃ events r, Emits x events r ∧ (∀ e ∈ events, P e) ∧ LabelSafe r

def EmitsThen (P : ClassEvent → Prop) (Q : List ClassEvent → Prop) (x : Model.EventM α) : Prop :=
  ∃ head rest r, Emits x (head ++ rest) r ∧ (∀ e ∈ head, P e) ∧ Q rest ∧ LabelSafe r

theorem LabelSafe.result {f : Fault} (h : LabelSafe (.error f : Except Fault α)) : LabelSafe (.error f : Except Fault β) :=
  .error (h f rfl)

namespace EmitsOnly

variable {P : ClassEvent → Prop} {x : Model.EventM α} {f : α → Model.EventM β} {y : Except Fault α}
  {event : α → ClassEvent} {xs : List α}

@[grind ←] theorem pure (a : α) : EmitsOnly P (Pure.pure a) := ⟨[], _, .pure a, by simp, .ok a⟩

@[grind ←] theorem lift (h : LabelSafe y) : EmitsOnly P (liftM y) := ⟨[], y, .lift y, by simp, h⟩

@[grind ←] theorem throw {f : Fault} (h : f.cause.isLabel = false) : EmitsOnly P (throw f : Model.EventM α) :=
  lift (.error h)

@[grind ←] theorem emit {e : ClassEvent} (h : P e) : EmitsOnly P (ClassDoc.emit e) :=
  ⟨[e], _, .emit e, by simpa using h, .ok ()⟩

@[grind ←] theorem bind (hx : EmitsOnly P x) (hf : ∀ a, EmitsOnly P (f a)) : EmitsOnly P (x >>= f) := by
  obtain ⟨events, r, hx, hp, hs⟩ := hx
  cases r with
  | error e => exact ⟨events, .error e, hx.bind_error, hp, hs.result⟩
  | ok a =>
    obtain ⟨events', r, hf, hp', hs⟩ := hf a
    refine ⟨events ++ events', r, hx.bind hf, fun e he => ?_, hs⟩
    exact (mem_append.1 he).elim (hp e) (hp' e)

theorem nil_bind (hx : Emits x [] y) (hs : LabelSafe y) (h : ∀ a, y = .ok a → EmitsOnly P (f a)) :
    EmitsOnly P (x >>= f) := by
  cases y with
  | error e => exact ⟨[], .error e, hx.bind_error, by simp, hs.result⟩
  | ok a =>
    obtain ⟨events, r, hf, hp⟩ := h a rfl
    exact ⟨events, r, .nil_bind hx hf, hp⟩

theorem lift_bind (hs : LabelSafe y) (h : ∀ a, y = .ok a → EmitsOnly P (f a)) :
    EmitsOnly P (liftM y >>= f) := nil_bind (.lift y) hs h

@[grind ←] theorem forM {f : α → Model.EventM Unit} (h : ∀ a ∈ xs, EmitsOnly P (f a)) : EmitsOnly P (xs.forM f) := by
  induction xs with
  | nil => exact pure ()
  | cons a xs ih => exact bind (h a (by simp)) fun _ => ih fun b hb => h b (by simp [hb])

@[grind ←] theorem emitFor {value : Option α} (h : ∀ a, P (event a)) : EmitsOnly P (Model.emitFor value event) := by
  cases value with
  | none => exact pure ()
  | some a => exact emit (h a)

@[grind ←] theorem emitEach {values : List α} (h : ∀ a, P (event a)) :
    EmitsOnly P (Model.emitEach values event) := forM fun a _ => emit (h a)

theorem when {c : Prop} [Decidable c] {x : Model.EventM Unit} {k : Unit → Model.EventM β} (hx : EmitsOnly P x)
    (hk : EmitsOnly P (k ())) : EmitsOnly P (if c then x >>= k else k ()) := by
  split
  · exact bind hx fun _ => hk
  · exact hk

end EmitsOnly

namespace EmitsThen

variable {P : ClassEvent → Prop} {Q : List ClassEvent → Prop} {x : Model.EventM α} {f : α → Model.EventM β}

theorem bind (hQ : Q []) (hx : EmitsOnly P x) (hf : ∀ a, EmitsThen P Q (f a)) : EmitsThen P Q (x >>= f) := by
  obtain ⟨events, r, hx, hp, hs⟩ := hx
  cases r with
  | error e => exact ⟨events, [], .error e, by simpa using hx.bind_error, hp, hQ, hs.result⟩
  | ok a =>
    obtain ⟨head, rest, r, hf, hp', hq⟩ := hf a
    refine ⟨events ++ head, rest, r, by simpa using hx.bind hf, fun e he => ?_, hq⟩
    exact (mem_append.1 he).elim (hp e) (hp' e)

theorem when {c : Prop} [Decidable c] {x : Model.EventM Unit} {k : Unit → Model.EventM β} (hQ : Q []) (hx : EmitsOnly P x)
    (hk : EmitsThen P Q (k ())) : EmitsThen P Q (if c then x >>= k else k ()) := by
  split
  · exact bind hQ hx fun _ => hk
  · exact hk

end EmitsThen

/-! ## Labels of a method -/

/-- The event is neither code nor the start of an element, and has no labels. -/
structure ClassEvent.Inert (e : ClassEvent) : Prop where
  notBoundary : e.isBoundary = false
  notCode : e.isCode = false
  labels : e.labels = []

namespace Model

theorem Annotation.emitsOnly (as : List Annotation) : EmitsOnly ClassEvent.Inert (emitAnnotations as) :=
  .forM fun _ _ => .bind (.lift (.annotationToClassFile _)) fun _ => .emit ⟨rfl, rfl, rfl⟩

theorem TypeAnnotation.target_of_toClassFile {a : TypeAnnotation} {b : Bool × ClassDoc.TypeAnnotation Label}
    (h : a.toClassFile = .ok b) : b.2.target = a.target := by
  simp only [toClassFile, bind_eq_ok] at h
  obtain ⟨_, -, h⟩ := h
  cases h
  rfl

theorem TypeAnnotation.emitsOnly {as : List TypeAnnotation} (h : ∀ a ∈ as, a.target.labels = []) :
    EmitsOnly ClassEvent.Inert (emitTypeAnnotations as) := by
  refine .forM fun a ha => .lift_bind (.typeToClassFile a) fun b hb => .emit ⟨rfl, rfl, ?_⟩
  rw [ClassEvent.labels, target_of_toClassFile hb, h a ha]

theorem emitsOnly_markers (deprecated synthetic : Bool) : EmitsOnly ClassEvent.Inert (emitMarkers deprecated synthetic) := by
  have h1 : EmitsOnly ClassEvent.Inert (emit .deprecated) := .emit ⟨rfl, rfl, rfl⟩
  have h2 : EmitsOnly ClassEvent.Inert (emit .synthetic) := .emit ⟨rfl, rfl, rfl⟩
  unfold emitMarkers
  grind

namespace Method

variable {m : Method} {arguments : List String} {result : String} {code : List CodeEvent}

def defined (m : Method) : List Label := m.entries.filterMap MethodEntry.defined?

theorem exists_references (h : m.Valid arguments result) : ∃ code, m.entries.mapM MethodEntry.references = .ok code ∧
    (∀ found ∈ code, ∀ r ∈ found, r.1 ∈ m.defined) ∧
    (∀ v ∈ m.localVariables, v.start ∈ m.defined ∧ v.stop ∈ m.defined) ∧
    ∀ a ∈ m.typeAnnotations, ∀ l ∈ a.target.labels, l ∈ m.defined := by
  obtain ⟨-, references, hr, hd⟩ := checkLabels_eq_ok.1 h.labels
  obtain ⟨code, hc, hr⟩ := bind_eq_ok.1 hr
  cases hr
  simp only [mem_append, mem_flatten, mem_flatMap] at hd
  refine ⟨code, hc, fun found hf r hm => hd r (.inl (.inl ⟨found, hf, hm⟩)), fun v hv => ⟨?_, ?_⟩, fun a ha l hl => ?_⟩
  · exact hd (v.start, .localVariable v.name) (.inl (.inr ⟨v, hv, by simp [variableReferences]⟩))
  · exact hd (v.stop, .localVariable v.name) (.inl (.inr ⟨v, hv, by simp [variableReferences]⟩))
  · exact hd (l, .annotatedType a.base.descriptor) (.inr ⟨a, ha, mem_map.2 ⟨l, hl, rfl⟩⟩)

theorem mem_defined_of_entry (h : m.Valid arguments result) {entry : MethodEntry} (he : entry ∈ m.entries) {l : Label}
    (hl : l ∈ entry.labels) : l ∈ m.defined := by
  obtain ⟨code, hc, hd, -⟩ := exists_references h
  obtain ⟨found, hf, hfr⟩ := exists_of_mem_mapM hc he
  have hfound := hd found hf
  cases entry with
  | instruction i =>
    obtain ⟨insn, hi⟩ := h.entries _ he
    obtain ⟨rfl, hw⟩ := Instruction.toInsn_eq_ok_iff.1 hi
    rw [MethodEntry.labels, Instruction.labels_ofInsn] at hl
    rw [MethodEntry.references, Instruction.targets_ofInsn hw.fits] at hfr
    cases hfr
    exact hfound _ (mem_map.2 ⟨l, hl, rfl⟩)
  | label l' =>
    obtain rfl : l = l' := by simpa [MethodEntry.labels] using hl
    exact mem_filterMap.2 ⟨_, he, rfl⟩
  | tryCatch t =>
    cases hfr
    simp only [MethodEntry.labels, mem_cons, not_mem_nil, or_false] at hl
    rcases hl with rfl | rfl | rfl
    · exact hfound (t.start, .tryStart) (by simp)
    · exact hfound (t.stop, .tryEnd) (by simp)
    · exact hfound (t.handler, .handler) (by simp)
  | frame f =>
    cases hfr
    exact hfound _ (mem_map.2 ⟨l, hl, rfl⟩)
  | line number l' =>
    cases hfr
    obtain rfl : l = l' := by simpa [MethodEntry.labels] using hl
    exact hfound _ (mem_singleton.2 rfl)

/-- An event of code that defines no label, and whose labels the method defines. -/
def Refers (m : Method) (e : ClassEvent) : Prop :=
  ∃ c : CodeEvent, e = .code c ∧ c.defined? = none ∧ ∀ l ∈ c.labels, l ∈ m.defined

def IsLabelledCode (events : List ClassEvent) : Prop := ∃ code : List CodeEvent, events = code.map .code ∧ WellLabelled code

theorem wellLabelled_append (h : m.Valid arguments result)
    (hc : Forall₂ MethodEntry.Encodes m.entries code) {rest : List ClassEvent} (hr : ∀ e ∈ rest, m.Refers e) :
    IsLabelledCode (code.map .code ++ rest) := by
  obtain ⟨cs, rfl, hcs⟩ : ∃ cs : List CodeEvent, rest = cs.map .code ∧
      ∀ c ∈ cs, c.defined? = none ∧ ∀ l ∈ c.labels, l ∈ m.defined := by
    induction rest with
    | nil => exact ⟨[], rfl, by simp⟩
    | cons e rest ih =>
      obtain ⟨c, rfl, hc⟩ := hr e (by simp)
      obtain ⟨cs, rfl, hcs⟩ := ih fun e he => hr e (by simp [he])
      exact ⟨c :: cs, rfl, by simpa using ⟨hc, hcs⟩⟩
  have hd : (code ++ cs).filterMap CodeEvent.defined? = m.defined := by
    have hn : cs.filterMap CodeEvent.defined? = [] := filterMap_eq_nil_iff.2 fun c hm => (hcs c hm).1
    rw [filterMap_append, hn, append_nil, defined]
    refine (filterMap_congr_of_forall₂ (hc.imp fun entry c hec => ?_)).symm
    have hb := hec.1
    cases c <;> cases hb <;> rfl
  refine ⟨code ++ cs, by simp, ?_, fun c hm l hl => ?_⟩
  · rw [hd]
    exact (checkLabels_eq_ok.1 h.labels).1
  · rw [hd]
    rcases mem_append.1 hm with hm | hm
    · obtain ⟨entry, he, hec⟩ := exists_of_mem_right hc hm
      exact mem_defined_of_entry h he (CodeEvent.labels_eq hec.1 ▸ hl)
    · exact (hcs c hm).2 l hl

theorem emitsThen_of_entries (h : m.Valid arguments result)
    (hc : Forall₂ MethodEntry.Encodes m.entries code) {x y : EventM Unit} (hx : Emits x (code.map .code) (.ok ()))
    (hy : EmitsOnly m.Refers y) : EmitsThen ClassEvent.Inert IsLabelledCode (x >>= fun _ => y) := by
  obtain ⟨rest, r, hr, hp, hs⟩ := hy
  exact ⟨[], code.map .code ++ rest, r, hx.bind hr, by simp, wellLabelled_append h hc hp, hs⟩

theorem emitsThen_code (h : m.Valid arguments result) : EmitsThen ClassEvent.Inert IsLabelledCode m.emitCode := by
  obtain ⟨code, hc⟩ := forall₂_exists fun e he => MethodEntry.exists_encodes (h.entries e he)
  obtain ⟨-, -, -, hv, ha⟩ := exists_references h
  refine emitsThen_of_entries h hc (emits_entries hc) ?_
  refine .bind (.forM fun v hm => .emit ⟨_, rfl, rfl, by simpa [CodeEvent.labels] using hv v hm⟩) fun _ => ?_
  refine .bind (.forM fun a hm => .lift_bind (.typeToClassFile a) fun b hb => .emit ⟨_, rfl, rfl, ?_⟩) fun _ => ?_
  · rw [CodeEvent.labels, TypeAnnotation.target_of_toClassFile hb]
    exact ha a (mem_filter.1 hm).1
  · split
    · exact .emit ⟨_, rfl, rfl, by simp [CodeEvent.labels]⟩
    · exact .pure ()

theorem emitsOnly_parameters (m : Method) (count : Nat) (v : Visibility) :
    EmitsOnly ClassEvent.Inert (m.emitParameterAnnotations count v) := by
  have hs : EmitsOnly ClassEvent.Inert (m.emitAnnotable count v) := by
    unfold emitAnnotable
    split
    · exact .pure _
    · refine .bind (.emit ⟨rfl, rfl, rfl⟩) fun _ => ?_
      grind
  have hi : ∀ skipped index, LabelSafe (annotableIndex skipped index) := by
    intro skipped index
    unfold annotableIndex
    split
    · exact .error rfl
    · split
      · exact .ok _
      · exact .fail rfl
  refine .bind hs fun _ => .forM fun x _ => .forM fun a _ => ?_
  exact .bind (.lift (hi _ _)) fun _ => .bind (.lift (.annotationToClassFile _)) fun _ => .emit ⟨rfl, rfl, rfl⟩

/-- **The code of a method that follows the rules is well labelled, and its other events have no label.** -/
theorem emitsThen_events (h : m.Valid arguments result) : ∃ head code r,
    Emits m.emitEvents (.method ⟨m.access, m.name, m.descriptor, m.exceptions⟩ :: (head ++ code.map .code)) r ∧
      (∀ e ∈ head, e.Inert) ∧ WellLabelled code ∧ LabelSafe r := by
  have hQ : IsLabelledCode [] := ⟨[], rfl, by simp, by simp⟩
  have ht : ∀ a ∈ m.declarationTypeAnnotations, a.target.labels = [] := by
    intro a ha
    obtain ⟨ha, hc⟩ := mem_filter.1 ha
    obtain ⟨-, hf, -⟩ := TypeAnnotation.validate_iff.1 (h.typeAnnotations a ha)
    exact TypeTarget.labels_eq_nil hf (by simpa using hc)
  -- The first event starts the method; the rest is what is to be shown of the others.
  have hevents : ∀ {x : EventM Unit}, EmitsThen ClassEvent.Inert IsLabelledCode x → ∃ head code r,
      Emits (emit (.method ⟨m.access, m.name, m.descriptor, m.exceptions⟩) >>= fun _ => x)
        (.method ⟨m.access, m.name, m.descriptor, m.exceptions⟩ :: (head ++ code.map .code)) r ∧
      (∀ e ∈ head, e.Inert) ∧ WellLabelled code ∧ LabelSafe r := by
    rintro x ⟨head, _, r, he, hp, ⟨code, rfl, hc⟩, hs⟩
    exact ⟨head, code, r, (Emits.emit _).bind he, hp, hc, hs⟩
  refine hevents ?_
  refine .bind hQ (.emitFor fun _ => ⟨rfl, rfl, rfl⟩) fun _ => .bind hQ (emitsOnly_markers _ _) fun _ => ?_
  refine .when hQ (.emitEach fun _ => ⟨rfl, rfl, rfl⟩) ?_
  have hannotations := Annotation.emitsOnly m.annotations
  have htypes := TypeAnnotation.emitsOnly ht
  refine .bind hQ hannotations fun _ => .bind hQ htypes fun _ => ?_
  have hcount : LabelSafe (ModelBuilder.argumentCount m) := by grind [ModelBuilder.argumentCount]
  refine .bind hQ (.lift hcount) fun _ => .bind hQ (emitsOnly_parameters m _ _) fun _ => ?_
  refine .bind hQ (emitsOnly_parameters m _ _) fun _ => ?_
  have hcode := emitsThen_code h
  cases m.annotationDefault with
  | some value => exact .bind hQ (.lift (.toElement value)) fun _ => .bind hQ (.emit ⟨rfl, rfl, rfl⟩) fun _ => hcode
  | none => exact hcode

end Method

end Model

/-! ## Labels of a class -/

namespace Emits

variable {x : Model.EventM α} {events : List ClassEvent} {r : Except Fault α}

theorem mapM_lift (f : α → Except Fault β) (xs : List α) :
    Emits (xs.mapM fun x => (liftM (f x) : Model.EventM β)) [] (xs.mapM f) := by
  induction xs with
  | nil => exact pure []
  | cons x xs ih =>
    rw [mapM_cons, mapM_cons]
    cases hx : f x with
    | error e => exact (lift (.error e)).bind_error
    | ok y =>
      refine nil_bind (lift (.ok y)) ?_
      rw [ok_bind]
      cases hxs : xs.mapM f with
      | error e => exact (hxs ▸ ih).bind_error
      | ok ys => exact nil_bind (hxs ▸ ih) (pure _)

theorem events_traceOf {x : Model.EventM Unit} {r : Except Fault Unit} (h : Emits x events r) :
    (traceOf x ()).items.filterMap TraceItem.event? = events ∧ (traceOf x ()).outcome = r := by
  obtain ⟨new, rfl, ho⟩ := h []
  rw [outcome] at ho
  rw [traceOf]
  cases hx : x ((), []) with
  | ok a s =>
    simp only [hx, append_nil, Prod.mk.injEq] at ho
    obtain ⟨rfl, rfl⟩ := ho
    exact ⟨rfl, rfl⟩
  | error f s =>
    simp only [hx, append_nil, Prod.mk.injEq] at ho
    obtain ⟨rfl, rfl⟩ := ho
    exact ⟨rfl, rfl⟩

end Emits

/-- All events of a computation, whether it fails or not. -/
def emittedBy (x : Model.EventM Unit) : List ClassEvent := (traceOf x ()).items.filterMap TraceItem.event?

def Model.Method.emittedCode (m : Model.Method) : List CodeEvent := Element.code (emittedBy m.emitEvents)

/-- The event is neither code nor the start of a method, and has no labels. -/
structure ClassEvent.Aside (e : ClassEvent) : Prop where
  notMethod : ∀ header, e ≠ .method header
  notCode : e.isCode = false
  labels : e.labels = []

theorem ClassEvent.Inert.aside {e : ClassEvent} (h : e.Inert) : e.Aside := by
  refine ⟨?_, h.notCode, h.labels⟩
  rintro header rfl
  cases h.notBoundary

theorem EmitsOnly.aside (h : EmitsOnly ClassEvent.Inert x) : EmitsOnly ClassEvent.Aside x := by
  obtain ⟨events, r, he, hp, hs⟩ := h
  exact ⟨events, r, he, fun e hm => (hp e hm).aside, hs⟩

theorem EmitsOnly.inside {P : ClassEvent → Prop} (p : Place) (h : EmitsOnly P x) : EmitsOnly P (tracedInside p x) := by
  obtain ⟨events, r, he, hp, hs⟩ := h
  exact ⟨events, _, he.inside p, hp, hs.within p⟩

namespace Model

theorem labels_eq_nil_of_validate {allowed : UInt8 → Bool} {a : TypeAnnotation}
    (h : TypeAnnotation.validate allowed a = .ok ())
    (ha : ∀ t, allowed t = true → targetsClass t = true ∨ targetsField t = true) :
    a.target.labels = [] := by
  obtain ⟨ht, hf, -⟩ := TypeAnnotation.validate_iff.1 h
  exact TypeTarget.labels_eq_nil hf (not_isCode (ha _ ht))

theorem RecordComponent.labels_eq_nil {r : RecordComponent} {b : ClassDoc.RecordComponent} (h : r.Valid)
    (hb : r.toClassFile = .ok b) : (b.typeAnnotations.flatMap fun a => a.2.target.labels) = [] := by
  simp only [toClassFile, bind_eq_ok] at hb
  obtain ⟨_, -, types, ht, hb⟩ := hb
  cases hb
  rw [flatMap_eq_nil_iff]
  intro x hx
  obtain ⟨a, ha, hax⟩ := exists_of_mem_right (mapM_eq_ok_iff.1 ht) hx
  rw [a.target_of_toClassFile hax]
  exact labels_eq_nil_of_validate (h.typeAnnotations a ha) fun _ => .inr

theorem Field.emitsOnly_events {f : Field} (h : f.Valid) : EmitsOnly ClassEvent.Aside f.emitEvents := by
  have hv : EmitsOnly ClassEvent.Aside (f.value.mapM fun v => (liftM v.toConstant : EventM Constant)) := by
    cases f.value with
    | none => exact .pure _
    | some v => exact .bind (.lift (.toConstant v)) fun _ => .pure _
  have hf : ∀ header, ClassEvent.Aside (.field header) := fun _ => ⟨by simp, rfl, rfl⟩
  refine .bind hv fun _ => .bind (.emit (hf _)) fun _ => .bind (.aside (.emitFor fun _ => ⟨rfl, rfl, rfl⟩)) fun _ => ?_
  have ha := Annotation.emitsOnly f.annotations
  have ht := TypeAnnotation.emitsOnly fun a ha => labels_eq_nil_of_validate (h.typeAnnotations a ha) fun _ => .inr
  exact .bind (emitsOnly_markers _ _).aside fun _ => .bind ha.aside fun _ => ht.aside

end Model

namespace ClassModel

open Model

variable {c : ClassModel} {head : List ClassEvent} {code : List CodeEvent}

theorem emitsOnly_class (h : c.Valid) : EmitsOnly ClassEvent.Aside c.emitClass := by
  have hh : ∀ header, ClassEvent.Aside (.header header) := fun _ => ⟨by simp, rfl, rfl⟩
  have hm : EmitsOnly ClassEvent.Aside (emitFor c.module .module) := .emitFor fun _ => ⟨by simp, rfl, rfl⟩
  have ha := Annotation.emitsOnly c.annotations
  have ht := TypeAnnotation.emitsOnly fun a ha => labels_eq_nil_of_validate (h.typeAnnotations a ha) fun _ => .inl
  unfold emitClass
  refine .bind (.emit (hh _)) fun _ => .when (.emit ⟨by simp, rfl, rfl⟩) ?_
  refine .bind (.emitFor fun _ => ⟨by simp, rfl, rfl⟩) fun _ => .bind (.emitFor fun _ => ⟨by simp, rfl, rfl⟩) fun _ => ?_
  refine .bind (.emitFor fun _ => ⟨by simp, rfl, rfl⟩) fun _ => .bind (.emitEach fun _ => ⟨by simp, rfl, rfl⟩) fun _ => ?_
  refine .bind (.emitEach fun _ => ⟨by simp, rfl, rfl⟩) fun _ => .bind (.emitEach fun _ => ⟨by simp, rfl, rfl⟩) fun _ => ?_
  refine .bind (emitsOnly_markers _ _).aside fun _ => .bind ha.aside fun _ => .bind ht.aside fun _ => ?_
  cases hc : c.record with
  | none => exact hm
  | some components =>
    have hr : ∀ r : Model.RecordComponent, LabelSafe r.toClassFile := by grind [Model.RecordComponent.toClassFile]
    refine .nil_bind (.mapM_lift _ _) (.mapM _ fun r _ => .within _ (hr r)) fun bs hb =>
      .bind (.emit ⟨by simp, rfl, ?_⟩) fun _ => hm
    rw [ClassEvent.labels, flatMap_eq_nil_iff]
    intro b hmem
    obtain ⟨r, hr, hrb⟩ := exists_of_mem_right (mapM_eq_ok_iff.1 hb) hmem
    exact RecordComponent.labels_eq_nil (h.components r (by simpa [hc] using hr)) (within_eq_ok.1 hrb)

/-- The code of each method is well labelled, and nothing else has labels. -/
structure Labelled (events : List ClassEvent) : Prop where
  starts : ∀ e ∈ events.head?, e.isBoundary = true
  codes : ∀ code ∈ methodCodes events, WellLabelled code
  outside : ∀ e ∈ events, e.isCode = false → e.labels = []

theorem Labelled.append {xs ys : List ClassEvent} (hx : Labelled xs) (hy : Labelled ys) : Labelled (xs ++ ys) := by
  refine ⟨fun e he => ?_, fun code hc => ?_, fun e he => ?_⟩
  · cases xs with
    | nil => exact hy.starts e he
    | cons x xs => exact hx.starts e he
  · rw [methodCodes_append hy.starts] at hc
    exact (mem_append.1 hc).elim (hx.codes code) (hy.codes code)
  · exact (mem_append.1 he).elim (hx.outside e) (hy.outside e)

theorem isBoundary_of_method (h : ∀ e ∈ head, e.Inert) (code : List CodeEvent) :
    ∀ e ∈ head ++ code.map .code, e.isBoundary = false := by
  intro e he
  rcases mem_append.1 he with he | he
  · exact (h e he).notBoundary
  · obtain ⟨c, -, rfl⟩ := mem_map.1 he
    rfl

theorem labelled_method (header : MethodHeader)
    (hh : ∀ e ∈ head, e.Inert) (hc : WellLabelled code) : Labelled (.method header :: (head ++ code.map .code)) := by
  refine ⟨by simp [ClassEvent.isBoundary, ClassEvent.level], ?_, ?_⟩
  · rw [methodCodes_method (isBoundary_of_method hh code), code_append fun e he => (hh e he).notCode]
    simpa using hc
  · intro e he hn
    rcases mem_cons.1 he with rfl | he
    · rfl
    · rcases mem_append.1 he with he | he
      · exact (hh e he).labels
      · obtain ⟨c, -, rfl⟩ := mem_map.1 he
        cases hn

theorem emittedCode_eq {m : Model.Method} {header : MethodHeader}
    {r : Except Fault Unit} (he : Emits m.emitEvents (.method header :: (head ++ code.map .code)) r)
    (hh : ∀ e ∈ head, e.Inert) : m.emittedCode = code := by
  rw [Method.emittedCode, emittedBy, he.events_traceOf.1]
  exact code_append (fun e he => (hh e he).notCode) code

theorem emits_methods {ms : List Model.Method} (h : ∀ m ∈ ms, ∃ arguments result, m.Valid arguments result) :
    ∃ events r, Emits (ms.forM fun m => tracedInside (.inMethod m.name m.descriptor) m.emitEvents) events r ∧
      (Labelled events ∧ methodCodes events <+: ms.map Method.emittedCode) ∧ LabelSafe r := by
  induction ms with
  | nil => exact ⟨[], _, .pure (), ⟨⟨by simp, by simp [methodCodes], by simp⟩, prefix_refl _⟩, .ok ()⟩
  | cons m ms ih =>
    obtain ⟨arguments, result, hm⟩ := h m (by simp)
    obtain ⟨head, code, r, he, hh, hc, hr⟩ := Method.emitsThen_events hm
    have hcode := emittedCode_eq he hh
    have he := he.inside (.inMethod m.name m.descriptor)
    have hr := hr.within (.inMethod m.name m.descriptor)
    have hl := labelled_method ⟨m.access, m.name, m.descriptor, m.exceptions⟩ hh hc
    have hs : methodCodes (.method ⟨m.access, m.name, m.descriptor, m.exceptions⟩ :: (head ++ code.map .code)) =
        [m.emittedCode] := by
      rw [methodCodes_method (isBoundary_of_method hh code), code_append fun e he => (hh e he).notCode, hcode]
    cases r with
    | error f => exact ⟨_, _, he.bind_error, ⟨hl, by rw [hs]; exact ⟨ms.map Method.emittedCode, rfl⟩⟩, hr⟩
    | ok u =>
      obtain ⟨events, r, hes, ⟨hls, hp⟩, hr⟩ := ih fun m hm => h m (by simp [hm])
      refine ⟨_, r, he.bind hes, ⟨hl.append hls, ?_⟩, hr⟩
      rw [methodCodes_append hls.starts, hs]
      exact prefix_append_right_inj _ |>.2 hp

/-- **The events of a class that follows the rules: code is well labelled, and other events have no label.** -/
theorem emitted_labelled (h : c.Valid) : (∀ code ∈ methodCodes (emittedBy c.emitEvents), WellLabelled code) ∧
    methodCodes (emittedBy c.emitEvents) <+: c.methods.map Method.emittedCode ∧
    (∀ e ∈ emittedBy c.emitEvents, e.isCode = false → e.labels = []) ∧ LabelSafe c.trace.outcome := by
  let Q := fun events => Labelled events ∧ methodCodes events <+: c.methods.map Method.emittedCode
  have hQ : Q [] := ⟨⟨by simp, by simp [methodCodes], by simp⟩, nil_prefix⟩
  have hmethods : EmitsThen ClassEvent.Aside Q (do
      c.methods.forM fun m => tracedInside (.inMethod m.name m.descriptor) m.emitEvents
      emit .done) := by
    have hb : ∀ e ∈ [ClassEvent.done].head?, e.isBoundary = true := by simp [ClassEvent.isBoundary, ClassEvent.level]
    have hd : Labelled [ClassEvent.done] := ⟨hb, by simp [methodCodes], by simp [ClassEvent.labels]⟩
    obtain ⟨events, r, he, hl, hs⟩ := emits_methods h.methods
    cases r with
    | error f => exact ⟨[], events, _, he.bind_error, by simp, hl, hs⟩
    | ok u =>
      refine ⟨[], events ++ [.done], _, he.bind (.emit _), by simp, ⟨hl.1.append hd, ?_⟩, .ok ()⟩
      rw [methodCodes_append hb]
      simpa [methodCodes] using hl.2
  obtain ⟨head, rest, r, he, hh, ⟨hl, hp⟩, hs⟩ : EmitsThen ClassEvent.Aside Q c.emitEvents :=
    .bind hQ (emitsOnly_class h) fun _ => .bind hQ (.forM fun f hf => .inside _ (Field.emitsOnly_events (h.fields f hf)))
      fun _ => hmethods
  have hcodes : methodCodes (head ++ rest) = methodCodes rest := by
    rw [methodCodes_append hl.starts, methodCodes_eq_nil fun e he => (hh e he).notMethod, nil_append]
  rw [emittedBy, trace, he.events_traceOf.1, he.events_traceOf.2, hcodes]
  refine ⟨hl.codes, hp, fun e hm hn => ?_, hs⟩
  exact (mem_append.1 hm).elim (fun hm => (hh e hm).labels) fun hm => hl.outside e hm hn

end ClassModel

/-! ## Writing models -/

namespace ClassModel

variable {c : ClassModel}

theorem writeModel_safe (h : c.Valid) : LabelSafe (writeModel c) := by
  intro f hf
  have hf : writeModel c = .error f := hf
  rw [writeModel] at hf
  cases hv : (c.trace.feed ClassWriter.accept {}).value with
  | ok w =>
    rw [hv] at hf
    exact w.finish_safe f hf
  | error g =>
    rw [hv] at hf
    cases hf
    rcases Trace.feed_eq_error hv with ho | ⟨g, t, hr, hc⟩
    · exact (emitted_labelled h).2.2.2 _ ho
    · rw [hc]
      refine ClassWriter.Pending.run_safe ?_ (emitted_labelled h).1 hr
      intro _ _ hm
      cases hm

/-- **A class that follows the rules has code in which each label that is mentioned is defined, and none twice; no other
event mentions a label; so writing it never fails because of a label.** -/
theorem labels_of_validate (h : c.validate = .ok ()) :
    (∀ m ∈ c.methods, (m.emittedCode.filterMap CodeEvent.defined?).Nodup ∧
      ∀ e ∈ m.emittedCode, ∀ l ∈ e.labels, (m.emittedCode.filterMap CodeEvent.defined?).count l = 1) ∧
    methodCodes (emittedBy c.emitEvents) <+: c.methods.map Model.Method.emittedCode ∧
    (∀ e ∈ emittedBy c.emitEvents, e.isCode = false → e.labels = []) ∧
    ∀ f, writeModel c = .error f → f.cause.isLabel = false := by
  have hv := validate_iff.1 h
  obtain ⟨-, hp, ho, -⟩ := emitted_labelled hv
  refine ⟨fun m hm => ?_, hp, ho, writeModel_safe hv⟩
  obtain ⟨arguments, result, hm⟩ := hv.methods m hm
  obtain ⟨head, code, r, he, hh, hc, -⟩ := Model.Method.emitsThen_events hm
  rw [emittedCode_eq he hh]
  exact ⟨hc.nodup, fun e hm l hl => count_eq_one_of_mem hc.nodup (hc.defined e hm l hl)⟩

theorem labels_of_validate_shifted : shifted.validate = .ok () ∧
    (∀ m ∈ shifted.methods, ∀ e ∈ m.emittedCode, ∀ l ∈ e.labels,
      (m.emittedCode.filterMap CodeEvent.defined?).count l = 1) ∧
    (∀ e ∈ emittedBy shifted.emitEvents, e.isCode = false → e.labels = []) ∧
    ∀ f, writeModel shifted = .error f → f.cause.isLabel = false := by
  have hv : shifted.validate = .ok () := validate_iff.2 shifted_valid
  obtain ⟨hm, -, ho, hw⟩ := labels_of_validate hv
  exact ⟨hv, fun m h => (hm m h).2, ho, hw⟩

end ClassModel

end ClassDoc
