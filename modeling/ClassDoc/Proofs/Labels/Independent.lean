/-
  Class files do not depend on which labels the events have.
-/
import ClassDoc.Proofs.ClassFile.Form
import ClassDoc.Proofs.Grammar
import ClassDoc.Proofs.Labels.Renamed
namespace ClassDoc

open List

open ClassWriter

variable {f g : Label → Label} {events : List ClassEvent}

/-! ## Permutations -/

instance : Finite Label := by
  refine .of_injective (fun l => l.id.toFin) fun a b h => ?_
  cases a
  cases b
  exact congrArg Label.mk (UInt32.toFin_inj.1 h)

theorem exists_perm {labels : Set Label} (hf : labels.InjOn f) : ∃ g : Equiv.Perm Label, ∀ l ∈ labels, g l = f l := by
  have := Fintype.ofFinite Label
  obtain ⟨g, hg⟩ := Set.MapsTo.exists_equiv_extend_of_card_eq (t := Finset.univ) rfl (fun l _ => Finset.mem_univ (f l)) hf
  exact ⟨g.trans (Equiv.subtypeUnivEquiv Finset.mem_univ), hg⟩

namespace CodeEvent

theorem map_map (e : CodeEvent) : (e.map f).map g = e.map fun l => g (f l) := by
  cases e <;> simp [map, Frame.map_map, Insn.map_map, TypeAnnotation.map_map]

theorem map_id (e : CodeEvent) : e.map (fun l => l) = e := by
  cases e <;> simp [map, Frame.map_id, Insn.map_id, TypeAnnotation.map_id]

end CodeEvent

theorem filterMap_map_code {α : Type} {pick : CodeEvent → Option α} {k : α → α}
    (h : ∀ e : CodeEvent, pick (e.map f) = (pick e).map k) (events : List CodeEvent) :
    (events.map (CodeEvent.map f)).filterMap pick = (events.filterMap pick).map k := by
  rw [filterMap_map, map_filterMap]
  exact filterMap_congr fun e _ => h e

theorem Body.ofEvents_map (events : List CodeEvent) :
    Body.ofEvents (events.map (CodeEvent.map f)) = (Body.ofEvents events).map f := by
  have hmaxs : (events.map (CodeEvent.map f)).filterMap Body.maxs? = events.filterMap Body.maxs? := by
    rw [filterMap_map_code (k := id) fun e => by cases e <;> rfl, map_id]
  simp only [Body.ofEvents, Body.map, Body.mk.injEq, hmaxs, and_true]
  exact ⟨filterMap_map_code (fun e => by cases e <;> rfl) _, filterMap_map_code (fun e => by cases e <;> rfl) _,
    filterMap_map_code (fun e => by cases e <;> rfl) _, filterMap_map_code (fun e => by cases e <;> rfl) _,
    filterMap_map_code (fun e => by cases e <;> rfl) _⟩

/-! ## Methods -/

def ClassEvent.mapCode (f : Label → Label) : ClassEvent → ClassEvent
  | code e => code (e.map f)
  | e => e

section
variable {events events' : List ClassEvent} {header : MethodHeader}

theorem CommonForm.attributes_eq (h : CommonForm.ofEvents events = CommonForm.ofEvents events') :
    Element.signature events = Element.signature events' ∧ markerAttributes events = markerAttributes events' ∧
      elementAnnotations events = elementAnnotations events' := by
  obtain ⟨hs, hd, hy, ha, ht⟩ := CommonForm.mk.inj h
  simp only [markerAttributes, elementAnnotations, hs, hd, hy, ha, ht, and_self]

/-- The bytes of a method come from its form, and from its code whatever the labels are. -/
theorem follows_methodBytes (hf : Function.Injective f)
    (h : MethodForm.ofEvents header events = MethodForm.ofEvents header events')
    (hc : Element.code events' = (Element.code events).map (CodeEvent.map f)) :
    Follows (methodBytes header events) (methodBytes header events') Eq := by
  obtain ⟨-, hcommon, hp, hv, hi, hd, -⟩ := MethodForm.mk.inj h
  obtain ⟨hs, hm, ha⟩ := CommonForm.attributes_eq hcommon
  obtain ⟨hvc, hva⟩ := ParameterForm.mk.inj hv
  obtain ⟨hic, hia⟩ := ParameterForm.mk.inj hi
  unfold methodBytes methodAttributes
  simp only [parameterAnnotationsAttribute, hc, Body.ofEvents_map, isEmpty_map, hs, hm, ha, hp, hd, hvc, hva, hic, hia]
  refine (Follows.refl _).bind_eq fun split => (Follows.refl _).bind_eq fun name =>
    (Follows.refl _).bind_eq fun descriptor => ?_
  refine Follows.bind_eq ?_ fun attributes => .refl _
  exact (follows_makeIf (Body.follows_encode hf _ _) _ _).bind_eq fun _ => .refl _

/-- The methods are written as the same bytes, or not at all. -/
def SameBytes (events events' : List ClassEvent) : Prop :=
  ∀ header p bytes q, methodBytes header events p = .ok bytes q ↔ methodBytes header events' p = .ok bytes q

/-- **A method of the same form is written as the same bytes if its labels are replaced so that they stay apart.** -/
theorem sameBytes_of_form (hf : {l | ∃ e ∈ Element.code events, l ∈ e.labels}.InjOn f)
    (h : ∀ header, MethodForm.ofEvents header events = MethodForm.ofEvents header events')
    (hc : Element.code events' = (Element.code events).map (CodeEvent.map f)) : SameBytes events events' := by
  obtain ⟨g, hg⟩ := exists_perm hf
  have hc : Element.code events' = (Element.code events).map (CodeEvent.map g) :=
    hc.trans (map_congr_left fun e he => CodeEvent.map_congr fun l hl => (hg l ⟨e, he, hl⟩).symm)
  have hback : Element.code events = (Element.code events').map (CodeEvent.map g.symm) := by
    simp [hc, Function.comp_def, CodeEvent.map_map, CodeEvent.map_id]
  intro header p bytes q
  constructor
  · intro hb
    obtain ⟨_, hb, rfl⟩ := follows_methodBytes g.injective (h header) hc p bytes q hb
    exact hb
  · intro hb
    obtain ⟨_, hb, rfl⟩ := follows_methodBytes g.symm.injective (h header).symm hback p bytes q hb
    exact hb

theorem filterMap_mapCode {α : Type} {pick : ClassEvent → Option α} (h : ∀ e, pick (.code e) = none) :
    (events.map (ClassEvent.mapCode f)).filterMap pick = events.filterMap pick := by
  rw [filterMap_map]
  refine filterMap_congr fun e _ => ?_
  cases e with
  | code e => rw [Function.comp_apply, h, ClassEvent.mapCode, h]
  | _ => rfl

theorem any_mapCode {test : ClassEvent → Bool} (h : ∀ e, test (.code e) = false) :
    (events.map (ClassEvent.mapCode f)).any test = events.any test := by
  rw [any_map]
  congr 1
  funext e
  cases e with
  | code e => rw [Function.comp_apply, h, ClassEvent.mapCode, h]
  | _ => rfl

theorem MethodForm.ofEvents_mapCode (header : MethodHeader) :
    ofEvents header events = ofEvents header (events.map (ClassEvent.mapCode f)) := by
  simp only [ofEvents, CommonForm.ofEvents, Element.signature, Element.deprecated, Element.synthetic, Element.annotations,
    Element.typeAnnotations, Element.parameters, Element.annotableParameters, Element.parameterAnnotations,
    Element.annotationDefault, filterMap_mapCode, any_mapCode, implies_true]

theorem Element.code_mapCode :
    Element.code (events.map (ClassEvent.mapCode f)) = (Element.code events).map (CodeEvent.map f) := by
  rw [Element.code, Element.code, filterMap_map, map_filterMap]
  refine filterMap_congr fun e _ => ?_
  cases e <;> rfl

end

/-! ## Classes -/

def relabelFrom (rename : Nat → Label → Label) (n : Nat) (current : Label → Label) : List ClassEvent → List ClassEvent
  | [] => []
  | .method header :: rest => .method header :: relabelFrom rename (n + 1) (rename n) rest
  | e :: rest => e.mapCode current :: relabelFrom rename n current rest

/-- Replaces the labels in the code of each method by the function of its number. -/
def relabel (rename : Nat → Label → Label) (es : List ClassEvent) : List ClassEvent := relabelFrom rename 0 id es

section
variable {rename : Nat → Label → Label} {n : Nat} {current : Label → Label} {ms : List (Member × List ClassEvent)}
  {es : List ClassEvent}

theorem run_relabelFrom (p : Phase) (es : List ClassEvent) : p.run (relabelFrom rename n current es) = p.run es := by
  have hnext : ∀ (f : Label → Label) (p : Phase) (e : ClassEvent), p.next (e.mapCode f) = p.next e := by
    intro f p e
    cases e with
    | code e => rcases p with _ | ⟨_ | _ | _⟩ | _ <;> rfl
    | _ => rfl
  induction es generalizing p n current with
  | nil => rfl
  | cons e es ih =>
    cases e with
    | method header => simp only [relabelFrom, Phase.run_cons, ih]
    | _ => simp only [relabelFrom, Phase.run_cons, hnext, ih]

theorem grammatical_relabel : Grammatical (relabel rename es) ↔ Grammatical es := by
  rw [← Phase.run_start, ← Phase.run_start, relabel, run_relabelFrom]

theorem relabelFrom_append (h : ∀ e ∈ es, ∀ header, e ≠ .method header) (rest : List ClassEvent) :
    relabelFrom rename n current (es ++ rest) = es.map (ClassEvent.mapCode current)
      ++ relabelFrom rename n current rest := by
  induction es with
  | nil => rfl
  | cons e es ih =>
    rw [forall_mem_cons] at h
    cases e with
    | method header => exact absurd rfl (h.1 header)
    | _ => simp only [cons_append, relabelFrom, map_cons, ih h.2]

theorem map_mapCode_of_not_code (h : ∀ e ∈ es, e.isCode = false) : es.map (ClassEvent.mapCode f) = es := by
  refine (map_congr_left fun e he => ?_).trans (map_id es)
  have hc := h e he
  cases e <;> first | rfl | cases hc

def relabelMembers (rename : Nat → Label → Label) (n : Nat) : List (Member × List ClassEvent) →
    List (Member × List ClassEvent)
  | [] => []
  | (.field header, es) :: ms => (.field header, es) :: relabelMembers rename n ms
  | (.method header, es) :: ms =>
    (.method header, es.map (ClassEvent.mapCode (rename n))) :: relabelMembers rename (n + 1) ms

theorem relabelFrom_members (h : ∀ m ∈ ms, m.1.Holds m.2) :
    relabelFrom rename n current (ms.flatMap (fun m => m.1.event :: m.2) ++ [.done])
      = (relabelMembers rename n ms).flatMap (fun m => m.1.event :: m.2) ++ [.done] := by
  induction ms generalizing n current with
  | nil => rfl
  | cons m ms ih =>
    rw [forall_mem_cons] at h
    obtain ⟨member, es⟩ := m
    have hm : ∀ e ∈ es, ∀ header, e ≠ .method header := by
      rintro _ he header rfl
      cases member <;> cases h.1 _ he
    cases member with
    | field header =>
      have hc : ∀ e ∈ es, e.isCode = false := by
        intro e he
        have hl := h.1 e he
        cases e <;> first | rfl | cases hl
      simp only [relabelMembers, flatMap_cons, cons_append, append_assoc]
      exact congrArg (_ :: ·) (by rw [relabelFrom_append hm, map_mapCode_of_not_code hc, ih h.2])
    | method header =>
      simp only [relabelMembers, flatMap_cons, cons_append, append_assoc]
      exact congrArg (_ :: ·) (by rw [relabelFrom_append hm, ih h.2])

theorem holds_relabelMembers (h : ∀ m ∈ ms, m.1.Holds m.2) : ∀ m ∈ relabelMembers rename n ms, m.1.Holds m.2 := by
  induction ms generalizing n with
  | nil => exact h
  | cons m ms ih =>
    rw [forall_mem_cons] at h
    obtain ⟨member, es⟩ := m
    cases member with
    | field header => exact forall_mem_cons.2 ⟨h.1, ih h.2⟩
    | method header =>
      refine forall_mem_cons.2 ⟨forall_mem_map.2 fun e he => ?_, ih h.2⟩
      have hi := h.1 e he
      cases e <;> exact hi

theorem methodCodes_members (h : ∀ m ∈ ms, m.1.Holds m.2) : methodCodes (ms.flatMap (fun m => m.1.event :: m.2) ++ [.done])
    = ms.filterMap fun m => if m.1.isMethod then some (Element.code m.2) else none := by
  induction ms with
  | nil => rfl
  | cons m ms ih =>
    rw [forall_mem_cons] at h
    obtain ⟨member, es⟩ := m
    have hb : ∀ e ∈ es, e.isBoundary = false := by
      intro e he
      cases member with
      | field | method =>
        have hl := h.1 e he
        cases e <;> first | rfl | cases hl
    rw [flatMap_cons, append_assoc, methodCodes_append, ih h.2, filterMap_cons]
    · cases member with
      | field header =>
        rw [methodCodes_eq_nil]
        · rfl
        · rintro e he header rfl
          rcases mem_cons.1 he with he | he
          · cases he
          · cases hb _ he
      | method header =>
        rw [Member.event, methodCodes_method hb]
        rfl
    · rcases ms with _ | ⟨⟨_ | _, _⟩, _⟩ <;> simp [Member.event, ClassEvent.isBoundary, ClassEvent.level]

theorem mapM_relabelMembers (h : ∀ i code,
      (ms.filterMap fun m => if m.1.isMethod then some (Element.code m.2) else none)[i]? = some code →
      {l | ∃ e ∈ code, l ∈ e.labels}.InjOn (rename (n + i))) {p q : Pool} {b : List (Bool × Bytes)} :
    (relabelMembers rename n ms).mapM (fun m => tagged m.1.isMethod (memberBytes m.2 m.1)) p = .ok b q ↔
      ms.mapM (fun m => tagged m.1.isMethod (memberBytes m.2 m.1)) p = .ok b q := by
  induction ms generalizing n p q b with
  | nil => rfl
  | cons m ms ih =>
    obtain ⟨member, es⟩ := m
    cases member with
    | field header => simp only [relabelMembers, mapM_cons, run_bind_eq_ok, ih (n := n) h]
    | method header =>
      have hrest := fun p b q => ih (n := n + 1) (p := p) (b := b) (q := q) fun i code hi => by
        rw [Nat.add_assoc, Nat.add_comm 1 i]
        exact h (i + 1) code hi
      have hsame : ∀ p bytes q, memberBytes (es.map (ClassEvent.mapCode (rename n))) (.method header) p = .ok bytes q ↔
          memberBytes es (.method header) p = .ok bytes q :=
        fun p bytes q =>
          (sameBytes_of_form (h 0 _ rfl) MethodForm.ofEvents_mapCode Element.code_mapCode header p bytes q).symm
      simp only [relabelMembers, mapM_cons, run_bind_eq_ok, tagged_eq_ok, hsame, hrest]

end

/-- **If the labels of each method are replaced so that they stay apart, the events are written exactly if they were before,
and as the same class file.** -/
theorem writeEvents_relabel (rename : Nat → Label → Label) (es : List ClassEvent)
    (h : ∀ i code, (methodCodes es)[i]? = some code → {l | ∃ e ∈ code, l ∈ e.labels}.InjOn (rename i)) (bytes : Bytes) :
    writeEvents (relabel rename es) = .ok bytes ↔ writeEvents es = .ok bytes := by
  by_cases hg : Grammatical es
  · obtain ⟨header, own, ms, rfl, ho, hm⟩ := hg
    have hown : ∀ e ∈ own, e.isCode = false ∧ ∀ header, e ≠ .method header := by
      intro e he
      have hi := ho e he
      constructor
      · cases e <;> first | rfl | cases hi
      · rintro header rfl
        cases hi
    have hcodes : methodCodes (.header header :: (own ++ ms.flatMap (fun m => m.1.event :: m.2) ++ [.done]))
        = ms.filterMap fun m => if m.1.isMethod then some (Element.code m.2) else none := by
      change methodCodes (own ++ ms.flatMap _ ++ [.done]) = _
      rw [append_assoc, methodCodes_append, methodCodes_eq_nil fun e he => (hown e he).2, methodCodes_members hm, nil_append]
      rcases ms with _ | ⟨⟨_ | _, _⟩, _⟩ <;> simp [Member.event, ClassEvent.isBoundary, ClassEvent.level]
    have hes : relabel rename (.header header :: (own ++ ms.flatMap (fun m => m.1.event :: m.2) ++ [.done]))
        = .header header :: (own ++ (relabelMembers rename 0 ms).flatMap (fun m => m.1.event :: m.2) ++ [.done]) := by
      refine congrArg (_ :: ·) ?_
      rw [append_assoc, relabelFrom_append fun e he => (hown e he).2, map_mapCode_of_not_code fun e he => (hown e he).1,
        relabelFrom_members hm, append_assoc]
    rw [hes, writeEvents_class ho hm, writeEvents_class ho (holds_relabelMembers hm)]
    simp only [putClass, run_bind_eq_ok, mapM_relabelMembers (n := 0) fun i code hi => by
      rw [Nat.zero_add]
      exact h i code (hcodes ▸ hi)]
  · have hne : ∀ {es}, ¬ Grammatical es → writeEvents es ≠ .ok bytes := fun hg h => hg (grammatical_of_writeEvents h)
    exact iff_of_false (hne (mt grammatical_relabel.1 hg)) (hne hg)

/-- A class with a method that jumps back and forth between two labels. -/
def jumpingClass (first second : Label) : List ClassEvent :=
  [.header ⟨⟨52, 0⟩, 33, "demo/Loop", none, []⟩, .method ⟨8, "spin", "()V", []⟩,
    .code (.label first), .code (.insn (.jump Opcode.goto second)),
    .code (.label second), .code (.insn (.jump Opcode.goto first)), .done]

theorem writeEvents_relabel_jumping :
    relabel (fun _ l => if l = ⟨41⟩ then ⟨0⟩ else ⟨1⟩) (jumpingClass ⟨41⟩ ⟨7⟩) = jumpingClass ⟨0⟩ ⟨1⟩ ∧
    ∀ bytes, writeEvents (jumpingClass ⟨0⟩ ⟨1⟩) = .ok bytes ↔ writeEvents (jumpingClass ⟨41⟩ ⟨7⟩) = .ok bytes := by
  refine ⟨rfl, writeEvents_relabel (fun _ l => if l = ⟨41⟩ then ⟨0⟩ else ⟨1⟩) (jumpingClass ⟨41⟩ ⟨7⟩) fun i code hi => ?_⟩
  obtain ⟨rfl, rfl⟩ : i = 0 ∧ code = [.label ⟨41⟩, .insn (.jump Opcode.goto ⟨7⟩), .label ⟨7⟩,
      .insn (.jump Opcode.goto ⟨41⟩)] := by
    cases i with
    | zero => exact ⟨rfl, (Option.some.inj hi).symm⟩
    | succ i => cases hi
  have hlabels : ∀ l, (∃ e ∈ [CodeEvent.label ⟨41⟩, .insn (.jump Opcode.goto ⟨7⟩), .label ⟨7⟩,
      .insn (.jump Opcode.goto ⟨41⟩)], l ∈ e.labels) → l = ⟨41⟩ ∨ l = ⟨7⟩ := by
    intro l hl
    simp only [CodeEvent.labels, Insn.targets, mem_cons, not_mem_nil, or_false, exists_eq_or_imp, exists_eq_left] at hl
    tauto
  intro a ha b hb hab
  rcases hlabels a ha with rfl | rfl <;> rcases hlabels b hb with rfl | rfl <;> simp_all

end ClassDoc
