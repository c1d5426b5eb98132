/-
  The labels of methods that are built from events.
-/
import ClassDoc.Proofs.ClassFile.Reading
import ClassDoc.Proofs.Labels.Model
import ClassDoc.Proofs.Labels.Read
namespace ClassDoc

open List

/-! ## Labels of events -/

namespace CodeEvent

theorem labels_map (g : Label → Label) (e : CodeEvent) : (e.map g).labels = e.labels.map g := by
  cases e with
  | frame f => exact f.labels_map
  | insn i => exact i.targets_map
  | annotateType visible a => exact a.target.labels_map
  | _ => rfl

theorem defined?_map (g : Label → Label) (e : CodeEvent) : (e.map g).defined? = e.defined?.map g := by
  cases e <;> rfl

theorem bind_inBody? (e : CodeEvent) : e.inBody?.bind MethodEntry.defined? = e.defined? := by
  cases e <;> rfl

end CodeEvent

theorem mem_code {events : List ClassEvent} {e : CodeEvent} : e ∈ Element.code events ↔ .code e ∈ events := by
  rw [Element.code, mem_filterMap]
  constructor
  · rintro ⟨c, hc, h⟩
    cases c with
    | code e' =>
      cases h
      exact hc
    | _ => cases h
  · exact fun h => ⟨_, h, rfl⟩

def InsnsFit (code : List CodeEvent) : Prop := ∀ i, CodeEvent.insn i ∈ code → i.Fits

theorem MethodEntry.exists_references {e : CodeEvent} {entry : MethodEntry} (h : e.inBody? = some entry)
    (ht : ∀ i, e = .insn i → i.Fits) :
    ∃ found, entry.references = .ok found ∧ ∀ r ∈ found, r.1 ∈ e.labels := by
  cases e with
  | insn i =>
    cases h
    refine ⟨_, by rw [references, Instruction.targets_ofInsn (ht i rfl)]; rfl, fun r hr => ?_⟩
    obtain ⟨l, hl, rfl⟩ := mem_map.1 hr
    exact hl
  | tryCatch t =>
    cases h
    exact ⟨_, rfl, by simp [CodeEvent.labels]⟩
  | label l =>
    cases h
    exact ⟨_, rfl, by simp⟩
  | frame f =>
    cases h
    refine ⟨_, rfl, fun r hr => ?_⟩
    obtain ⟨l, hl, rfl⟩ := mem_map.1 hr
    exact hl
  | lineNumber line l =>
    cases h
    exact ⟨_, rfl, by simp [CodeEvent.labels]⟩
  | localVariable | annotateType | maxs => cases h

theorem Model.TypeAnnotation.target_of_ofClassFile {v : Bool} {b : ClassDoc.TypeAnnotation Label} {a : Model.TypeAnnotation}
    (h : (ofClassFile v b).toOption = some a) : a.target = b.target := by
  cases hok : Model.TypeAnnotation.ofClassFile v b with
  | error f => simp [hok, Except.toOption] at h
  | ok a' =>
    obtain rfl : a' = a := by simpa [hok, Except.toOption] using h
    obtain ⟨_, -, hok⟩ := bind_eq_ok.1 hok
    cases hok
    rfl

namespace Model.Method

section

variable {header : MethodHeader} {events : List ClassEvent} {g : Label → Label}

theorem defined_ofEvents : (Method.ofEvents header g events).defined
    = ((Element.code events).filterMap CodeEvent.defined?).map g := by
  rw [defined, Method.ofEvents, filterMap_filterMap, map_filterMap]
  exact filterMap_congr fun e _ => by rw [CodeEvent.bind_inBody?, CodeEvent.defined?_map]

theorem mem_defined_ofEvents (hc : WellLabelled (Element.code events)) {e : CodeEvent} (he : e ∈ Element.code events)
    {l : Label} (hl : l ∈ (e.map g).labels) : l ∈ (Method.ofEvents header g events).defined := by
  rw [CodeEvent.labels_map] at hl
  obtain ⟨k, hk, rfl⟩ := mem_map.1 hl
  rw [defined_ofEvents]
  exact mem_map_of_mem (hc.defined e he k hk)

theorem exists_references_ofEvents (hc : WellLabelled (Element.code events)) (ht : InsnsFit (Element.code events)) :
    ∃ found, (Method.ofEvents header g events).entries.mapM MethodEntry.references = .ok found ∧
      ∀ rs ∈ found, ∀ r ∈ rs, r.1 ∈ (Method.ofEvents header g events).defined := by
  have hex : ∀ entry ∈ (Method.ofEvents header g events).entries, ∃ rs, entry.references = .ok rs ∧
      ∀ r ∈ rs, r.1 ∈ (Method.ofEvents header g events).defined := by
    intro entry he
    obtain ⟨e, he, hb⟩ := mem_filterMap.1 he
    have hti : ∀ i, e.map g = .insn i → i.Fits := by
      intro i hi
      cases e with
      | insn j =>
        cases hi
        exact Insn.fits_map.2 (ht j he)
      | _ => cases hi
    obtain ⟨rs, hr, hl⟩ := MethodEntry.exists_references hb hti
    exact ⟨rs, hr, fun r hm => mem_defined_ofEvents hc he (hl r hm)⟩
  obtain ⟨found, hf⟩ := forall₂_exists hex
  refine ⟨found, mapM_eq_ok_iff.2 (hf.imp fun _ _ h => h.1), fun rs hrs => ?_⟩
  obtain ⟨entry, -, h⟩ := exists_of_mem_right hf hrs
  exact h.2

theorem references_variables_ofEvents (hc : WellLabelled (Element.code events)) :
    ∀ v ∈ (Method.ofEvents header g events).localVariables, ∀ r ∈ variableReferences v,
      r.1 ∈ (Method.ofEvents header g events).defined := by
  intro v hv r hr
  obtain ⟨e, he, hb⟩ := mem_filterMap.1 hv
  refine mem_defined_ofEvents hc he ?_
  cases e with
  | localVariable w =>
    cases hb
    simp only [variableReferences, mem_cons, not_mem_nil, or_false] at hr
    rcases hr with rfl | rfl <;> simp [CodeEvent.map, CodeEvent.labels]
  | _ => cases hb

theorem references_types_ofEvents (hc : WellLabelled (Element.code events))
    (ho : ∀ e ∈ events, e.isCode = false → e.labels = []) :
    ∀ a ∈ (Method.ofEvents header g events).typeAnnotations, ∀ r ∈ TypeAnnotation.references a,
      r.1 ∈ (Method.ofEvents header g events).defined := by
  intro a ha r hr
  obtain ⟨l, hl, rfl⟩ := mem_map.1 hr
  obtain ⟨e, he, hb⟩ := mem_filterMap.1 ha
  obtain ⟨b, hb, hok⟩ := Option.bind_eq_some_iff.1 hb
  rw [a.target_of_ofClassFile hok] at hl
  cases e with
  | code c =>
    cases c with
    | annotateType visible b' =>
      cases hb
      exact mem_defined_ofEvents hc (mem_code.2 he) hl
    | _ => cases hb
  | annotateType visible b' =>
    -- outside of code there are no labels
    cases hb
    have hn : b'.target.labels = [] := ho _ he rfl
    have ht : ((b'.map g).target).labels = b'.target.labels.map g := TypeTarget.labels_map _
    rw [ht, hn] at hl
    cases hl
  | _ => cases hb

/-- **What well labelled code says about a method has its labels in order, if they are replaced so that they stay apart.** -/
theorem checkLabels_ofEvents (hc : WellLabelled (Element.code events)) (ho : ∀ e ∈ events, e.isCode = false → e.labels = [])
    (ht : InsnsFit (Element.code events))
    (hg : ∀ k ∈ events.flatMap ClassEvent.labels, ∀ l ∈ events.flatMap ClassEvent.labels, g k = g l → k = l) :
    (Method.ofEvents header g events).checkLabels = .ok () := by
  refine checkLabels_eq_ok.2 ⟨?_, ?_⟩
  · have hlab : ∀ l ∈ (Element.code events).filterMap CodeEvent.defined?, l ∈ events.flatMap ClassEvent.labels := by
      intro l hl
      obtain ⟨e, he, hl⟩ := mem_filterMap.1 hl
      refine mem_flatMap.2 ⟨.code e, mem_code.1 he, ?_⟩
      cases e with
      | label k =>
        cases hl
        simp [ClassEvent.labels, CodeEvent.labels]
      | _ => cases hl
    have hd : (ofEvents header g events).defined = ((Element.code events).filterMap CodeEvent.defined?).map g :=
        defined_ofEvents
    rw [defined] at hd
    rw [hd]
    exact hc.nodup.map_on fun k hk l hl e => hg k (hlab k hk) l (hlab l hl) e
  · obtain ⟨found, hfm, hf⟩ : ∃ found, (ofEvents header g events).entries.mapM MethodEntry.references = .ok found ∧
        ∀ rs ∈ found, ∀ r ∈ rs, r.1 ∈ (ofEvents header g events).defined := exists_references_ofEvents hc ht
    refine ⟨_, by rw [references, hfm]; rfl, fun r hr => ?_⟩
    simp only [mem_append, mem_flatten, mem_flatMap] at hr
    rcases hr with (⟨rs, hrs, hr⟩ | ⟨v, hv, hr⟩) | ⟨a, ha, hr⟩
    · exact hf rs hrs r hr
    · exact references_variables_ofEvents hc v hv r hr
    · exact references_types_ofEvents hc ho a ha r hr

end

def IsOfClassFile (m : Method) : Prop :=
  ∀ i, MethodEntry.instruction i ∈ m.entries → ∃ insn : Insn Label, i = Instruction.ofInsn insn ∧ insn.Fits

theorem isOfClassFile_ofEvents {header : MethodHeader} {events : List ClassEvent} {g : Label → Label}
    (ht : InsnsFit (Element.code events)) : (Method.ofEvents header g events).IsOfClassFile := by
  intro i hi
  obtain ⟨e, he, hb⟩ := mem_filterMap.1 hi
  cases e with
  | insn j =>
    cases hb
    exact ⟨_, rfl, Insn.fits_map.2 (ht j he)⟩
  | _ => cases hb

theorem labels_of_builds {x : MethodHeader × List ClassEvent} {m : Method} (h : ModelBuilder.BuildsMethod x m)
    (hi : ∀ e ∈ x.2, e.isInMethod = true) (hc : WellLabelled (Element.code x.2))
    (ho : ∀ e ∈ x.2, e.isCode = false → e.labels = []) (ht : InsnsFit (Element.code x.2)) :
    m.checkLabels = .ok () ∧ m.IsOfClassFile := by
  obtain ⟨m', n, hr, rfl⟩ := h
  have hs := ModelBuilder.soFar_run hi (hr default)
  constructor
  · have hl : (ModelBuilder.soFar m').checkLabels = .ok () := by
      rw [hs]
      exact checkLabels_ofEvents hc ho ht fun k hk l hl e => Label.renumber_inj hk hl e
    exact hl
  · have hf : (ModelBuilder.soFar m').IsOfClassFile := by
      rw [hs]
      exact isOfClassFile_ofEvents ht
    exact hf

end Model.Method

/-! ## Rules -/

namespace Instruction

theorem inRange_safe (i : Instruction) (what : String) (low high : Int) (v : Int32) :
    LabelSafe (inRange i what low high v) :=
  .ite (.ok _) (.error rfl)

theorem nameOf_safe (t : JavaText) : LabelSafe (nameOf t) := by
  rw [nameOf]
  split
  · exact .ok _
  · exact .error rfl

theorem toInsn_safe_of_shape {i : Instruction} (h : Opcode.shape i.opcode ∉ [.jump, .table, .lookup]) :
    LabelSafe i.toInsn := by
  have hr := inRange_safe i
  have hn := nameOf_safe
  have hv : ∀ v, LabelSafe (variableOf i v) := fun v => .bind (hr _ _ _ _) fun _ => .pure _
  have hs : ∀ e, LabelSafe (shapeFault i e : Except Fault (Insn Label)) := fun e => .error rfl
  have hc : ∀ vs, LabelSafe (Operand.toConstants vs) := LabelSafe.toConstants
  simp only [mem_cons, not_mem_nil, or_false, not_or] at h
  obtain ⟨h1, h2, h3⟩ := h
  rw [toInsn]
  refine .ite (.error rfl) ?_
  split <;> first
    | contradiction
    | grind

theorem toInsn_safe {insn : Insn Label} (h : insn.Fits) : LabelSafe (ofInsn insn).toInsn := by
  have hk : ∀ v, LabelSafe (keyOf v) := by
    intro v
    cases v <;> first | exact .ok _ | exact .error rfl
  cases insn with
  | jump op l =>
    have hj : Opcode.shape op = .jump := List.mem_singleton.1 h
    rw [toInsn]
    refine .ite (.error rfl) ?_
    simp only [ofInsn, Insn.opcode, operandsOf, hj, labelOf]
    exact .ok _
  | tableSwitch low high d ts =>
    have hj : Opcode.shape (Insn.tableSwitch low high d ts).opcode = .table := rfl
    rw [toInsn]
    refine .ite (.error rfl) ?_
    simp only [ofInsn, operandsOf, hj, labelsOf_eq_ok.2 rfl, ok_bind, labelOf]
    exact .ite (.error rfl) (.ok _)
  | lookupSwitch d ps =>
    have hj : Opcode.shape (Insn.lookupSwitch d ps).opcode = .lookup := rfl
    have hp : ps.map (fun p => Operand.label p.2) = (ps.map Prod.snd).map Operand.label := by simp
    rw [toInsn]
    refine .ite (.error rfl) ?_
    simp only [ofInsn, operandsOf, hj, hp, labelsOf_eq_ok.2 rfl, ok_bind, labelOf]
    exact .ite (.error rfl) (.bind (.mapM _ fun v _ => hk v) fun _ => .ok _)
  | simple | int | var | type | field | method | invokeDynamic | ldc | iinc | multiANewArray =>
    exact toInsn_safe_of_shape (noTargets_of_fits h (by simp [Insn.shapes]))

end Instruction
namespace LabelSafe

theorem ensure (holds : Bool) (v : Violation) : LabelSafe (ensure holds v) := .ite (.ok _) (.error rfl)

theorem ensureDescriptor {α : Type} (v : Descriptor.Problem → Violation) (x : Except Descriptor.Problem α) :
    LabelSafe (ensureDescriptor v x) := by
  cases x with
  | ok a => exact .ok a
  | error p => exact .error rfl

theorem eachOnce {α κ : Type} [BEq κ] [Hashable κ] {key : α → κ} {check : α → Except Fault Unit} {twice : α → Fault}
    {xs : List α} (hc : ∀ a ∈ xs, LabelSafe (check a)) (ht : ∀ a, (twice a).cause.isLabel = false) (seen : Std.HashSet κ) :
    LabelSafe (eachOnce key check twice seen xs) := by
  induction xs generalizing seen with
  | nil => exact .ok _
  | cons a xs ih =>
    rw [ClassDoc.eachOnce]
    split
    next f hf => exact .error (hc a (by simp) f hf)
    next => exact .ite (.error (ht a)) (ih (fun b hb => hc b (by simp [hb])) _)

mutual

theorem checkValue : (v : AnnotationValue) → LabelSafe v.check
  | .value _ => .ite (.ok _) (.fail rfl)
  | .enum _ _ | .classRef _ => .ok _
  | .nested _ properties => checkProperties properties
  | .array values => checkValues values

theorem checkProperties : (ps : List (String × AnnotationValue)) → LabelSafe (AnnotationValue.checkProperties ps)
  | [] => .ok _
  | (name, v) :: rest => by
    rw [AnnotationValue.checkProperties]
    split
    next f hf => exact .error (within _ (checkValue v) f hf)
    next => exact checkProperties rest

theorem checkValues : (vs : List AnnotationValue) → LabelSafe (AnnotationValue.checkAll vs)
  | [] => .ok _
  | v :: rest => by
    rw [AnnotationValue.checkAll]
    split
    next f hf => exact .error (checkValue v f hf)
    next => exact checkValues rest

end

theorem validateAnnotations (as : List Model.Annotation) : LabelSafe (as.forM Model.Annotation.validate) :=
  forM _ fun _ _ => within _ (checkProperties _)

theorem validateTypes (allowed : UInt8 → Bool) (as : List Model.TypeAnnotation) :
    LabelSafe (as.forM (·.validate allowed)) :=
  forM _ fun _ _ => bind (ensure _ _) fun _ => bind (ensure _ _) fun _ => within _ (checkProperties _)

theorem validateComponent (c : Model.RecordComponent) : LabelSafe c.validate :=
  bind (ensureDescriptor _ _) fun _ => bind (validateAnnotations _) fun _ => validateTypes _ _

theorem validateField (f : Model.Field) : LabelSafe f.validate := by
  refine bind (ensure _ _) fun _ => bind (ensure _ _) fun _ => bind (ensureDescriptor _ _) fun _ => ?_
  cases f.value with
  | none => exact bind (validateAnnotations _) fun _ => validateTypes _ _
  | some v => exact bind (ensure _ _) fun _ => bind (validateAnnotations _) fun _ => validateTypes _ _

variable (e : ClassEvent) (m : Model.Method)

theorem checkAnnotable (arguments : Nat) (v : Visibility) : LabelSafe (m.checkAnnotable arguments v) := by
  rw [Model.Method.checkAnnotable]
  split
  · exact ok _
  · refine bind (ensure _ _) fun _ => ?_
    dsimp only
    split
    · exact error rfl
    · exact ok _

theorem checkAnnotated : LabelSafe m.checkAnnotated := by
  have hcatch : ∀ n a, LabelSafe (Model.Method.checkCatch n a) := by
    intro n a
    rw [Model.Method.checkCatch]
    split
    · exact ensure _ _
    · exact ok _
  refine bind (validateAnnotations _) fun _ => bind (forM _ fun _ _ => within _ (validateAnnotations _)) fun _ => ?_
  refine bind (validateTypes _ _) fun _ => bind (forM _ fun _ _ => hcatch _ _) fun _ => ?_
  split
  · exact within _ (checkValue _)
  · exact ok _

theorem checkEntry {m : Model.Method} (h : m.IsOfClassFile) {entry : MethodEntry} (he : entry ∈ m.entries) (index : Nat) :
    LabelSafe (Model.Method.checkEntry index entry) := by
  cases entry with
  | instruction i =>
    obtain ⟨insn, rfl, ht⟩ := h i he
    exact bind (within _ (Instruction.toInsn_safe ht)) fun _ => pure _
  | frame f => exact within _ (ensure _ _)
  | label | tryCatch | line => exact ok _

theorem validateMethod {m : Model.Method} (hl : m.checkLabels = .ok ()) (hi : m.IsOfClassFile) : LabelSafe m.validate := by
  refine bind (ensure _ _) fun _ => bind (ensureDescriptor _ _) fun _ => bind ?_ fun _ => bind ?_ fun _ => ?_
  · exact bind (ensure _ _) fun _ => bind (ensure _ _) fun _ => bind (ensure _ _) fun _ => bind (ensure _ _) fun _ =>
      ensure _ _
  · exact bind (ensure _ _) fun _ => bind (checkAnnotable _ _ _) fun _ => checkAnnotable _ _ _
  · rw [hl]
    refine bind (checkAnnotated m) fun _ => bind (ok _) fun _ => forM _ fun x hx => ?_
    exact checkEntry hi (fst_mem_of_mem_zipIdx hx) _

theorem validateClass {c : ClassModel} (h : ∀ m ∈ c.methods, m.checkLabels = .ok () ∧ m.IsOfClassFile) :
    LabelSafe c.validate := by
  refine within _ (bind ?_ fun _ => bind (validateAnnotations _) fun _ => bind (validateTypes _ _) fun _ => ?_)
  · exact bind (ensure _ _) fun _ => bind (ensure _ _) fun _ => bind (ensure _ _) fun _ => ensure _ _
  refine bind (eachOnce (fun r _ => within _ (validateComponent r)) (fun _ => rfl) _) fun _ => ?_
  refine bind (eachOnce (fun f _ => within _ (validateField f)) (fun _ => rfl) _) fun _ => ?_
  exact eachOnce (fun m hm => within _ (validateMethod (h m hm).1 (h m hm).2)) (fun _ => rfl) _

/-! ## Building -/

theorem ofClassFile (visible : Bool) (a : TypeAnnotation Label) :
    LabelSafe <| Model.TypeAnnotation.ofClassFile visible a := by
  refine bind (mapM _ fun step _ => ?_) fun _ => pure _
  exact ite (ok _) (ite (ok _) (ite (ok _) (ite (ok _) (error rfl))))

theorem unexpected : LabelSafe (ModelBuilder.unexpected e : ModelBuilder.BuildM Unit) :=
  bind get_safe fun _ => throw rfl

theorem onMethod (f : Model.Method → Model.Method) : LabelSafe (ModelBuilder.onMethod f) := by
  refine bind get_safe fun b => ?_
  split
  · exact throw rfl
  · exact modify_safe _

theorem renumber {α : Type} (x : StateM Label.Numbering α) : LabelSafe (ModelBuilder.renumber x) :=
  bind get_safe fun _ => bind (modify_safe _) fun _ => pure _

theorem typeAnnotated (visible : Bool) (a : TypeAnnotation Label) : LabelSafe (ModelBuilder.typeAnnotated visible a) :=
  bind (renumber _) fun _ => lift (ofClassFile _ _)

theorem argumentCount : LabelSafe (ModelBuilder.argumentCount m) := bind (ofDescriptor _) fun _ => pure _

theorem lastMethod : LabelSafe ModelBuilder.lastMethod := by
  refine bind get_safe fun b => ?_
  split
  · exact throw rfl
  · exact pure _

theorem annotateParameter (index : UInt8) (visible : Bool) (a : Annotation) :
    LabelSafe (ModelBuilder.annotateParameter index visible a) := by
  have hi : ∀ m, LabelSafe (ModelBuilder.annotatedIndex m index visible) := by
    intro m
    rw [ModelBuilder.annotatedIndex]
    split
    · exact ok _
    · exact bind (argumentCount m) fun _ => ite (error rfl) (ite (ok _) (error rfl))
  have hp : LabelSafe ModelBuilder.makeParameters :=
    bind lastMethod fun _ => ite (bind (lift (argumentCount _)) fun _ => onMethod _) (pure _)
  refine bind lastMethod fun _ => bind (lift (hi _)) fun _ => bind hp fun _ => bind lastMethod fun _ => ?_
  exact ite (onMethod _) (throw rfl)

theorem buildCode (e : CodeEvent) : LabelSafe (ModelBuilder.code e) := by
  refine bind get_safe fun b => ite (throw rfl) ?_
  cases e with
  | tryCatch t =>
    exact bind (renumber _) fun _ => bind (renumber _) fun _ => bind (renumber _) fun _ => onMethod _
  | localVariable v => exact bind (renumber _) fun _ => bind (renumber _) fun _ => onMethod _
  | annotateType visible a => exact bind (typeAnnotated _ _) fun _ => onMethod _
  | maxs => exact onMethod _
  | label | lineNumber | frame | insn => exact bind (renumber _) fun _ => onMethod _

theorem next : LabelSafe (ModelBuilder.next e) := by
  cases e with
  | field | method => exact bind (modify_safe _) fun _ => modify_safe _
  | done => exact modify_safe _
  | _ => exact unexpected _

theorem preambleEvent : LabelSafe (ModelBuilder.preambleEvent e) := by
  refine bind get_safe fun b => ite ?_ (unexpected e)
  cases e with
  | source | enclosingMethod | nestHost | nestMember | permittedSubclass | innerClass | module => exact modify_safe _
  | record components =>
    refine bind (mapM _ fun c _ => ?_) fun _ => modify_safe _
    exact bind (mapM _ fun _ _ => typeAnnotated _ _) fun _ => pure _
  | _ => exact unexpected _

theorem classEvent : LabelSafe (ModelBuilder.classEvent e) := by
  have hn := next e
  have hp := preambleEvent e
  cases e with
  | annotateType visible a => exact bind (typeAnnotated _ _) fun _ => modify_safe _
  | signature | annotate | deprecated | synthetic => exact modify_safe _
  | header | field | method | parameter | annotableParameterCount | annotateParameter | annotationDefault | code | done =>
    exact hn
  | _ => exact hp

theorem fieldEvent : LabelSafe (ModelBuilder.fieldEvent e) := by
  have hn := next e
  cases e with
  | annotateType visible a => exact bind (typeAnnotated _ _) fun _ => modify_safe _
  | signature | annotate | deprecated | synthetic => exact modify_safe _
  | _ => exact hn

theorem methodEvent : LabelSafe (ModelBuilder.methodEvent e) := by
  have hn := next e
  cases e with
  | annotateType visible a => exact bind (typeAnnotated _ _) fun _ => onMethod _
  | annotateParameter index visible a => exact annotateParameter index visible a
  | code c => exact buildCode c
  | signature | annotate | deprecated | synthetic | parameter | annotableParameterCount | annotationDefault =>
    exact onMethod _
  | _ => exact hn

theorem accept : LabelSafe (ModelBuilder.accept e) := by
  refine bind get_safe fun b => ?_
  split
  · exact bind (modify_safe _) fun _ => modify_safe _
  · exact classEvent _
  · exact fieldEvent _
  · exact methodEvent _
  · exact unexpected _

end LabelSafe

end ClassDoc
