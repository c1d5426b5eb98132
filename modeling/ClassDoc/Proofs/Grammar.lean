/-
  The order of the events of a class.

  Reading, building and writing agree on it. Each of the two that take events keeps track of it in its own way, a builder by
  its stage and the members it has, a writer by its last member; both follow the same automaton.
-/
import ClassDoc.Proofs.ClassFile.Reading
import ClassDoc.Proofs.ClassFile.Written
import ClassDoc.Proofs.Model.Build
namespace ClassDoc

open List

/-- The events are those of a class: its header, the events of the class itself, its members, each with its events, and the
end. -/
def Grammatical (events : List ClassEvent) : Prop :=
  ∃ (header : ClassHeader) (own : List ClassEvent) (members : List (Member × List ClassEvent)),
    events = .header header :: (own ++ members.flatMap (fun m => m.1.event :: m.2) ++ [.done]) ∧
      (∀ e ∈ own, e.isInClass = true) ∧ ∀ m ∈ members, m.1.Holds m.2

/-! ## An automaton -/

/-- What events belong to. -/
inductive Scope where
  | ofClass
  | ofField
  | ofMethod
  deriving DecidableEq

def Scope.has : Scope → ClassEvent → Bool
  | ofClass, e => e.isInClass
  | ofField, e => e.level == .element
  | ofMethod, e => e.isInMethod

def Member.scope : Member → Scope
  | field _ => .ofField
  | method _ => .ofMethod

theorem Member.holds_iff {m : Member} {events : List ClassEvent} : m.Holds events ↔ ∀ e ∈ events, m.scope.has e = true := by
  cases m <;> simp [Holds, scope, Scope.has]

/-- How far a list of events got. -/
inductive Phase where
  | start
  | within (scope : Scope)
  | ended
  deriving DecidableEq

namespace Phase

variable {p q : Phase} {s : Scope} {e : ClassEvent} {events : List ClassEvent}

def next : Phase → ClassEvent → Option Phase
  | start, .header _ => some (within .ofClass)
  | within _, .field _ => some (within .ofField)
  | within _, .method _ => some (within .ofMethod)
  | within _, .done => some ended
  | within s, e => if s.has e then some (within s) else none
  | _, _ => none

def run (p : Phase) (events : List ClassEvent) : Option Phase := events.foldlM next p

theorem run_cons : run p (e :: events) = (p.next e).bind fun q => q.run events := foldlM_cons

theorem run_append (before after : List ClassEvent) : run p (before ++ after) = (p.run before).bind fun q => q.run after :=
  foldlM_append

theorem next_member (m : Member) : (within s).next m.event = some (within m.scope) := by cases m <;> rfl

theorem next_of_has (h : s.has e = true) : (within s).next e = some (within s) := by
  cases e with
  | field | method | done => cases s <;> cases h
  | _ => simp [next, h]

theorem next_within (h : (within s).next e = some q) :
    s.has e = true ∧ q = within s ∨ (∃ m : Member, e = m.event ∧ q = within m.scope) ∨ e = .done ∧ q = ended := by
  cases e with
  | field header =>
    cases h
    exact .inr (.inl ⟨.field header, rfl, rfl⟩)
  | method header =>
    cases h
    exact .inr (.inl ⟨.method header, rfl, rfl⟩)
  | done =>
    cases h
    exact .inr (.inr ⟨rfl, rfl⟩)
  | _ =>
    obtain ⟨he, hq⟩ := Option.ite_none_right_eq_some.1 h
    cases hq
    exact .inl ⟨he, rfl⟩

theorem run_ended (h : run ended events = some q) : events = [] := by
  cases events with
  | nil => rfl
  | cons e events => cases h

theorem run_of_has (h : ∀ e ∈ events, s.has e = true) : run (within s) events = some (within s) := by
  induction events with
  | nil => rfl
  | cons e events ih =>
    rw [forall_mem_cons] at h
    rw [run_cons, next_of_has h.1, Option.bind_some, ih h.2]

theorem run_members {members : List (Member × List ClassEvent)} (h : ∀ m ∈ members, m.1.Holds m.2) :
    ∃ t, run (within s) (members.flatMap fun m => m.1.event :: m.2) = some (within t) := by
  induction members generalizing s with
  | nil => exact ⟨s, rfl⟩
  | cons m members ih =>
    rw [forall_mem_cons] at h
    obtain ⟨t, ht⟩ := ih (s := m.1.scope) h.2
    refine ⟨t, ?_⟩
    rw [flatMap_cons, run_append, run_cons, next_member, Option.bind_some, run_of_has (Member.holds_iff.1 h.1),
      Option.bind_some, ht]

theorem exists_members (h : run (within s) events = some ended) :
    ∃ (own : List ClassEvent) (members : List (Member × List ClassEvent)),
      events = own ++ members.flatMap (fun m => m.1.event :: m.2) ++ [.done] ∧
      (∀ e ∈ own, s.has e = true) ∧ ∀ m ∈ members, m.1.Holds m.2 := by
  induction events generalizing s with
  | nil => cases h
  | cons e events ih =>
    rw [run_cons, Option.bind_eq_some_iff] at h
    obtain ⟨q, hq, h⟩ := h
    rcases next_within hq with ⟨he, rfl⟩ | ⟨m, rfl, rfl⟩ | ⟨rfl, rfl⟩
    · obtain ⟨own, members, rfl, ho, hm⟩ := ih h
      exact ⟨e :: own, members, by simp, forall_mem_cons.2 ⟨he, ho⟩, hm⟩
    · obtain ⟨own, members, rfl, ho, hm⟩ := ih h
      exact ⟨[], (m, own) :: members, by simp, by simp, forall_mem_cons.2 ⟨Member.holds_iff.2 ho, hm⟩⟩
    · obtain rfl := run_ended h
      exact ⟨[], [], rfl, by simp, by simp⟩

/-- **The automaton reads exactly the events of classes.** -/
theorem run_start : run start events = some ended ↔ Grammatical events := by
  constructor
  · intro h
    cases events with
    | nil => cases h
    | cons e events =>
      rw [run_cons, Option.bind_eq_some_iff] at h
      obtain ⟨q, hq, h⟩ := h
      cases e with
      | header header =>
        cases hq
        obtain ⟨own, members, rfl, ho, hm⟩ := exists_members h
        exact ⟨header, own, members, rfl, ho, hm⟩
      | _ => cases hq
  · rintro ⟨header, own, members, rfl, ho, hm⟩
    obtain ⟨t, ht⟩ := run_members (s := .ofClass) hm
    have hown : run (within .ofClass) own = some (within .ofClass) := run_of_has ho
    rw [run_cons, next, Option.bind_some, run_append, run_append, hown, Option.bind_some, ht, Option.bind_some]
    rfl

instance (events : List ClassEvent) : Decidable (Grammatical events) := decidable_of_iff _ run_start

theorem run_of_next {σ : Type} {accept : ClassEvent → EStateM Fault σ Unit} {s t : σ}
    (At : Phase → σ → Prop) (step : ∀ {p e s t}, At p s → accept e s = .ok () t → ∃ q, p.next e = some q ∧ At q t)
    (hs : At p s) (h : events.forM accept s = .ok () t) : ∃ q, p.run events = some q ∧ At q t := by
  induction events generalizing p s with
  | nil =>
    cases h
    exact ⟨p, rfl, hs⟩
  | cons e events ih =>
    obtain ⟨r, h1, h2⟩ := run_forM_cons.1 h
    obtain ⟨q, hq, hr⟩ := step hs h1
    obtain ⟨q', hq', ht⟩ := ih hr h2
    exact ⟨q', by rw [run_cons, hq, Option.bind_some, hq'], ht⟩

end Phase

/-! ## Writing -/

namespace ClassWriter

variable {w t : ClassWriter} {p : Phase} {e : ClassEvent}

def scope (w : ClassWriter) : Scope := w.member.elim .ofClass fun m => m.1.scope

def At : Phase → ClassWriter → Prop
  | .start, w => w.ended = false ∧ w.header = none ∧ w.member = none
  | .within s, w => w.Open ∧ w.scope = s
  | .ended, w => w.ended = true

theorem Open.at_within (h : w.Open) (hp : At p w) : p = .within w.scope := by
  cases p with
  | start =>
    have := h.header
    rw [hp.2.1] at this
    cases this
  | within s => rw [hp.2]
  | ended =>
    have := h.ended
    rw [show w.ended = true from hp] at this
    cases this

theorem Allows.has (hl : w.Allows e.level) : w.scope.has e = true := by
  have hs : ∀ s : Scope, e.level = .element → s.has e = true := by
    intro s h
    cases s <;> simp [Scope.has, ClassEvent.isInClass, ClassEvent.isInMethod, h]
  cases h : e.level with
  | element => exact hs _ h
  | method =>
    rw [h] at hl
    obtain ⟨header, events, hm⟩ := hl
    simp [scope, hm, Member.scope, Scope.has, ClassEvent.isInMethod, h]
  | preamble =>
    rw [h] at hl
    have hm : w.member = none := hl
    simp [scope, hm, Scope.has, ClassEvent.isInClass, h]
  | header | member | done =>
    rw [h] at hl
    cases hl

theorem Open.kept (h : w.Open) : (w.kept e).Open ∧ (w.kept e).scope = w.scope := by
  rw [ClassWriter.kept]
  cases hm : w.member with
  | none => exact ⟨⟨h.ended, h.header⟩, by simp [scope, hm]⟩
  | some m => exact ⟨⟨h.ended, h.header⟩, by simp [scope, hm]⟩

/-- **A writer takes only events that can come now.** -/
theorem accept_next (hp : At p w) (h : accept e w = .ok () t) : ∃ q, p.next e = some q ∧ At q t := by
  cases he : e.level with
  | header =>
    obtain ⟨header, rfl⟩ : ∃ header, e = .header header := by
      cases e <;> first | exact ⟨_, rfl⟩ | cases he
    obtain ⟨hd, hn, written, pool, -, rfl⟩ := accept_header_eq_ok.1 h
    cases p with
    | start => exact ⟨.within .ofClass, rfl, ⟨hd, rfl⟩, by rw [scope, hp.2.2]; rfl⟩
    | within s =>
      have := hp.1.header
      rw [hn] at this
      cases this
    | ended =>
      rw [show w.ended = true from hp] at hd
      cases hd
  | member =>
    obtain ⟨m, rfl⟩ : ∃ m : Member, e = m.event := by
      cases e with
      | field header => exact ⟨.field header, rfl⟩
      | method header => exact ⟨.method header, rfl⟩
      | _ => cases he
    obtain ⟨ho, r, hr, rfl⟩ := (accept_member_eq_ok m).1 h
    rw [ho.at_within hp]
    exact ⟨_, Phase.next_member m, (ho.of_finishMember hr).of_member _, rfl⟩
  | done =>
    obtain rfl : e = .done := by cases e <;> first | rfl | cases he
    obtain ⟨ho, r, -, rfl⟩ := accept_done_eq_ok.1 h
    rw [ho.at_within hp]
    exact ⟨.ended, rfl, rfl⟩
  | element | preamble | method =>
    obtain ⟨ho, ha, rfl⟩ := (accept_kept_eq_ok (by simp [he]) (by simp [ClassEvent.isBoundary, he])).1 h
    rw [ho.at_within hp]
    exact ⟨_, Phase.next_of_has ha.has, ho.kept⟩

theorem grammatical_of_writeEvents {events : List ClassEvent} {bytes : Bytes} (h : writeEvents events = .ok bytes) :
    Grammatical events := by
  rw [writeEvents] at h
  split at h
  next u w hw =>
    obtain ⟨q, hq, hat⟩ := Phase.run_of_next At accept_next (p := .start) (s := {}) ⟨rfl, rfl, rfl⟩ hw
    have hended : w.ended = true := by
      rw [finish] at h
      split at h
      · cases h
      · split at h
        next => cases h
        next hn => simpa using hn
    have hend : q = .ended := by
      cases q with
      | start => exact absurd (hat.1.symm.trans hended) Bool.false_ne_true
      | within s => exact absurd (hat.1.ended.symm.trans hended) Bool.false_ne_true
      | ended => rfl
    exact Phase.run_start.1 (hq.trans (congrArg some hend))
  next => cases h

end ClassWriter

/-! ## Building -/

/-- The cause is that an event came too early or too late. -/
def Cause.isOrder : Cause → Bool
  | invalidClassStructure (.unexpectedEvent _ _) | invalidClassStructure (.eventsEnded _)
  | noMethod | codeWithoutMethod => true
  | _ => false

/-- No failure is due to the order of events. -/
def OrderSafe {α : Type} (x : Except Fault α) : Prop := ∀ f, x = .error f → f.cause.isOrder = false

namespace OrderSafe

variable {α β : Type} {f : α → Except Fault β}

theorem bind {x : Except Fault α} (hx : OrderSafe x) (hf : ∀ a, OrderSafe (f a)) : OrderSafe (x >>= f) := by
  cases x with
  | ok a => exact hf a
  | error f => exact fun _ h => hx _ (by cases h; rfl)

theorem ok (a : α) : OrderSafe (.ok a) := fun _ h => nomatch h

theorem error {f : Fault} (h : f.cause.isOrder = false) : OrderSafe (.error f : Except Fault α) := by
  rintro _ ⟨⟩
  exact h

theorem mapM (hf : ∀ a, OrderSafe (f a)) (xs : List α) : OrderSafe (xs.mapM f) := by
  induction xs with
  | nil => exact ok []
  | cons x xs ih =>
    rw [mapM_cons]
    exact (hf x).bind fun y => ih.bind fun ys => ok _

theorem ofClassFile (visible : Bool) (a : TypeAnnotation Label) :
    OrderSafe <| Model.TypeAnnotation.ofClassFile visible a := by
  have hstep : ∀ step, OrderSafe (TypePath.ofStep step) := by
    intro step
    rw [TypePath.ofStep]
    repeat' split
    all_goals first | exact ok _ | exact error rfl
  exact (mapM hstep a.path).bind fun path => ok _

theorem argumentCount (m : Model.Method) : OrderSafe (ModelBuilder.argumentCount m) := by
  refine bind ?_ fun split => ok _
  cases Descriptor.splitMethod m.descriptor with
  | ok split => exact ok _
  | error problem => exact error rfl

theorem annotatedIndex (m : Model.Method) (index : UInt8) (visible : Bool) :
    OrderSafe (ModelBuilder.annotatedIndex m index visible) := by
  rw [ModelBuilder.annotatedIndex]
  split
  · exact ok _
  · refine (argumentCount m).bind fun count => ?_
    split
    · exact error rfl
    · dsimp only
      split
      · exact ok _
      · exact error rfl

end OrderSafe

open ModelBuilder in
theorem ClassModel.Distinct.ordered {c : ClassModel} (h : c.Distinct) : (orderClass c).Distinct where
  annotated := by simpa [Model.distinctAnnotated, orderClass] using h.annotated
  components := h.components
  fields := by simpa [Model.distinctAnnotated, orderClass, orderField] using h.fields
  methods := by
    simp only [orderClass, forall_mem_map, mem_reverse]
    intro m hm
    have hd := Model.Method.distinct_iff.1 (h.methods m hm)
    refine Model.Method.distinct_iff.2 ⟨?_, ?_, hd.default⟩
    · simpa [orderMethod, orderParameter] using hd.parameters
    · simpa [orderMethod, Model.distinctAnnotated] using hd.annotated

namespace ModelBuilder

variable {α β : Type} {b : ModelBuilder} {p q : Phase} {e : ClassEvent}
  {events : List ClassEvent} {s : Scope} {t : ModelBuilder}

def At : Phase → ModelBuilder → Prop
  | .start, b => b.stage = .awaitingClass ∧ Bare b.model
  | .within .ofClass, b => b.stage = .inClass false ∧ Bare b.model
  | .within .ofField, b => b.stage = .inClass true
  | .within .ofMethod, b => b.stage = .inMethod ∧ b.model.methods ≠ []
  | .ended, b => b.stage = .closed

/-- The builder is in the phase, and what it has built is distinct. -/
def Sound (p : Phase) (b : ModelBuilder) : Prop := At p b ∧ b.model.Distinct

/-- The builder keeps the property even if the computation fails, and if it does, then not because of the order of events.
What the computation gives has the other property. -/
def Keeps (P : ModelBuilder → Prop) (x : BuildM α) (Q : α → Prop := fun _ => True) : Prop :=
  ∀ b, P b → (∀ a t, x b = .ok a t → P t ∧ Q a) ∧ ∀ f t, x b = .error f t → P t ∧ f.cause.isOrder = false

namespace Keeps

variable {P : ModelBuilder → Prop} {Q : α → Prop} {R : β → Prop}

theorem of_eq {x y : BuildM α} (h : ∀ b, P b → x b = y b) (hy : Keeps P y Q) : Keeps P x Q := by
  intro b hb
  rw [h b hb]
  exact hy b hb

theorem pure {a : α} (h : Q a) : Keeps P (Pure.pure a) Q := by
  intro b hb
  refine ⟨?_, ?_⟩
  · rintro _ _ ⟨⟩
    exact ⟨hb, h⟩
  · rintro _ _ ⟨⟩

theorem bind {x : BuildM α} {f : α → BuildM β} (hx : Keeps P x Q) (hf : ∀ a, Q a → Keeps P (f a) R) :
    Keeps P (x >>= f) R := by
  intro b hb
  refine ⟨fun c t h => ?_, fun g t h => ?_⟩
  · obtain ⟨a, r, h1, h2⟩ := run_bind_eq_ok.1 h
    obtain ⟨hr, ha⟩ := (hx b hb).1 a r h1
    exact (hf a ha r hr).1 c t h2
  · rcases run_bind_eq_error.1 h with h1 | ⟨a, r, h1, h2⟩
    · exact (hx b hb).2 g t h1
    · obtain ⟨hr, ha⟩ := (hx b hb).1 a r h1
      exact (hf a ha r hr).2 g t h2

theorem get_bind {f : ModelBuilder → BuildM β} (h : ∀ s, P s → Keeps P (f s) R) : Keeps P (get >>= f) R :=
  fun b hb => h b hb b hb

theorem modify {f : ModelBuilder → ModelBuilder} (h : ∀ b, P b → P (f b)) : Keeps P (modify f) := by
  intro b hb
  refine ⟨?_, ?_⟩
  · rintro _ _ ⟨⟩
    exact ⟨h b hb, trivial⟩
  · rintro _ _ ⟨⟩

theorem throw {f : Fault} (h : f.cause.isOrder = false) : Keeps P (throw f : BuildM α) Q := by
  intro b hb
  refine ⟨?_, ?_⟩
  · rintro _ _ ⟨⟩
  · rintro _ _ ⟨⟩
    exact ⟨hb, h⟩

theorem lift {x : Except Fault α} (h : OrderSafe x) (hq : ∀ a, x = .ok a → Q a) : Keeps P (liftM x : BuildM α) Q := by
  cases x with
  | ok a => exact pure (hq a rfl)
  | error f => exact throw (h f rfl)

theorem mapM {f : α → BuildM β} (hf : ∀ a, Keeps P (f a) R) (xs : List α) :
    Keeps P (xs.mapM f) fun ys => ∀ y ∈ ys, R y := by
  induction xs with
  | nil => exact pure (by simp)
  | cons x xs ih =>
    rw [mapM_cons]
    exact (hf x).bind fun y hy => ih.bind fun ys hys => pure (forall_mem_cons.2 ⟨hy, hys⟩)

/-! ### Steps of building -/

theorem renumber (x : StateM Label.Numbering α) : Keeps (Sound p) (ModelBuilder.renumber x) := by
  refine get_bind fun s _ => (modify fun b hb => ⟨?_, hb.2⟩).bind fun _ _ => pure trivial
  rcases p with _ | ⟨_ | _ | _⟩ | _ <;> exact hb.1

theorem typeAnnotated (visible : Bool) (a : TypeAnnotation Label) :
    Keeps (Sound p) (ModelBuilder.typeAnnotated visible a) fun t => t.base.distinct = true :=
  (renumber _).bind fun a _ => lift (OrderSafe.ofClassFile visible a) fun _ => Model.TypeAnnotation.distinct_ofClassFile

theorem component (c : RecordComponent) : Keeps (Sound p) (ModelBuilder.component c) fun r =>
    Model.distinctAnnotated r.annotations r.typeAnnotations = true := by
  have htypes : ∀ a : Bool × TypeAnnotation Label, Keeps (Sound p) (ModelBuilder.typeAnnotated a.1 a.2)
      fun t => t.base.distinct = true := fun a => typeAnnotated a.1 a.2
  refine (mapM htypes c.typeAnnotations).bind fun ts hts => pure ?_
  simpa [Model.distinctAnnotated, Model.Annotation.distinct_ofClassFile] using hts

theorem onClass {f : ClassModel → ClassModel} (hf : ∀ c, (f c).fields = c.fields ∧ (f c).methods = c.methods)
    (hd : ∀ c, c.Distinct → Model.distinctAnnotated (f c).annotations (f c).typeAnnotations = true ∧
      ∀ r ∈ (f c).record.getD [], Model.distinctAnnotated r.annotations r.typeAnnotations = true) :
    Keeps (Sound (.within .ofClass)) (ModelBuilder.onClass f) := by
  refine modify fun b hb => ⟨⟨hb.1.1, ?_⟩, (hd b.model hb.2).1, (hd b.model hb.2).2, ?_, ?_⟩
  · rw [Bare, (hf b.model).1, (hf b.model).2]
    exact hb.1.2
  · rw [(hf b.model).1]
    exact hb.2.fields
  · rw [(hf b.model).2]
    exact hb.2.methods

theorem onField {f : Model.Field → Model.Field} (h : ∀ g, Model.distinctAnnotated g.annotations g.typeAnnotations = true →
      Model.distinctAnnotated (f g).annotations (f g).typeAnnotations = true) :
    Keeps (Sound (.within .ofField)) (ModelBuilder.onField f) := by
  refine modify fun b hb => ⟨hb.1, hb.2.annotated, hb.2.components, ?_, hb.2.methods⟩
  have hf := hb.2.fields
  cases hg : b.model.fields with
  | nil => simp [hg]
  | cons g gs =>
    rw [hg, forall_mem_cons] at hf
    simpa [hg] using ⟨h g hf.1, hf.2⟩

theorem lastMethod : Keeps (Sound (.within .ofMethod)) ModelBuilder.lastMethod := by
  refine get_bind fun s hs => ?_
  cases hm : s.model.methods with
  | nil => exact absurd hm hs.1.2
  | cons m ms => exact pure trivial

theorem onMethod {f : Model.Method → Model.Method} (h : ∀ m, m.Distinct → (f m).Distinct) :
    Keeps (Sound (.within .ofMethod)) (ModelBuilder.onMethod f) := by
  refine get_bind fun s hs => ?_
  have hm := hs.2.methods
  cases hc : s.model.methods with
  | nil => exact absurd hc hs.1.2
  | cons m ms =>
    rw [hc, forall_mem_cons] at hm
    refine modify fun b hb => ⟨⟨hb.1.1, cons_ne_nil _ _⟩, hb.2.annotated, hb.2.components, hb.2.fields, ?_⟩
    exact forall_mem_cons.2 ⟨Model.Method.distinct_iff.2 (h m (Model.Method.distinct_iff.1 hm.1)), hm.2⟩

theorem annotateParameter (index : UInt8) (visible : Bool) (a : Annotation) :
    Keeps (Sound (.within .ofMethod)) (ModelBuilder.annotateParameter index visible a) := by
  have hmake : Keeps (Sound (.within .ofMethod)) makeParameters := by
    refine lastMethod.bind fun m _ => ?_
    split
    · refine (lift (OrderSafe.argumentCount m) fun _ _ => trivial).bind fun count (_ : True) => onMethod fun m hm => ?_
      exact { hm with parameters := fun p hp => by simp [eq_of_mem_replicate hp] }
    · exact pure trivial
  refine lastMethod.bind fun m _ => (lift (OrderSafe.annotatedIndex m index visible) fun _ _ => trivial).bind
    fun i (_ : True) => hmake.bind fun _ _ => lastMethod.bind fun m _ => ?_
  split
  · refine onMethod fun m hm => { hm with parameters := fun p hp => ?_ }
    obtain ⟨j, hj⟩ := mem_iff_getElem?.1 hp
    rw [getElem?_modify] at hj
    obtain ⟨q, hq, rfl⟩ := Option.map_eq_some_iff.1 hj
    have hq := hm.parameters q (mem_of_getElem? hq)
    split
    · exact forall_mem_cons.2 ⟨Model.Annotation.distinct_ofClassFile visible a, hq⟩
    · exact hq
  · exact throw rfl

section Annotated

variable {as : List Model.Annotation} {ts : List Model.TypeAnnotation} {t : Model.TypeAnnotation}

theorem annotated {visible : Bool} {a : Annotation} (h : Model.distinctAnnotated as ts = true) :
    Model.distinctAnnotated (.ofClassFile visible a :: as) ts = true := by
  simpa [Model.distinctAnnotated, Model.Annotation.distinct_ofClassFile] using h

theorem typed (ht : t.base.distinct = true) (h : Model.distinctAnnotated as ts = true) :
    Model.distinctAnnotated as (t :: ts) = true := by
  simpa [Model.distinctAnnotated, ht] using h

end Annotated

theorem code (e : CodeEvent) : Keeps (Sound (.within .ofMethod)) (ModelBuilder.code e) := by
  refine get_bind fun s hs => ?_
  rw [if_neg (by simpa using hs.1.2)]
  cases e with
  | tryCatch =>
    exact (renumber _).bind fun _ _ => (renumber _).bind fun _ _ => (renumber _).bind fun _ _ =>
      onMethod fun _ hm => { hm with }
  | label | lineNumber | frame | insn => exact (renumber _).bind fun _ _ => onMethod fun _ hm => { hm with }
  | localVariable => exact (renumber _).bind fun _ _ => (renumber _).bind fun _ _ => onMethod fun _ hm => { hm with }
  | annotateType visible a =>
    exact (typeAnnotated visible a).bind fun _ ht => onMethod fun _ hm => { hm with annotated := typed ht hm.annotated }
  | maxs => exact onMethod fun _ hm => { hm with }

/-! ### Events -/

theorem classEvent (he : e.isInClass = true) : Keeps (Sound (.within .ofClass)) (ModelBuilder.classEvent e) := by
  have hpre : ∀ {e}, Keeps (Sound (.within .ofClass)) (addPreamble e) →
      Keeps (Sound (.within .ofClass)) (preambleEvent e) := by
    refine fun h => get_bind fun s hs => ?_
    rw [if_pos (by simp [hs.1.2.1, hs.1.2.2])]
    exact h
  cases e with
  | header | field | method | parameter | annotableParameterCount | annotateParameter | annotationDefault | code | done =>
    cases he
  | annotate =>
    rw [ModelBuilder.classEvent]
    exact onClass (fun _ => ⟨rfl, rfl⟩) fun _ hc => ⟨annotated hc.annotated, hc.components⟩
  | annotateType visible a =>
    refine (typeAnnotated visible a).bind fun _ ht => onClass (fun _ => ?_) fun _ hc => ?_
    · exact ⟨rfl, rfl⟩
    · exact ⟨typed ht hc.annotated, hc.components⟩
  | signature | deprecated | synthetic =>
    rw [ModelBuilder.classEvent]
    exact onClass (fun _ => ⟨rfl, rfl⟩) fun _ hc => ⟨hc.annotated, hc.components⟩
  | record components =>
    refine hpre ((mapM component components).bind fun _ hr => onClass (fun _ => ?_) fun _ hc => ?_)
    · exact ⟨rfl, rfl⟩
    · exact ⟨hc.annotated, hr⟩
  | source | enclosingMethod | nestHost | nestMember | permittedSubclass | innerClass | module =>
    refine hpre ?_
    rw [addPreamble]
    exact onClass (fun _ => ⟨rfl, rfl⟩) fun _ hc => ⟨hc.annotated, hc.components⟩

theorem fieldEvent (he : e.level = .element) : Keeps (Sound (.within .ofField)) (ModelBuilder.fieldEvent e) := by
  cases e with
  | annotate => exact onField fun _ => annotated
  | annotateType visible a => exact (typeAnnotated visible a).bind fun _ ht => onField fun _ => typed ht
  | signature | deprecated | synthetic => exact onField fun _ hf => hf
  | _ => cases he

theorem methodEvent (he : e.isInMethod = true) : Keeps (Sound (.within .ofMethod)) (ModelBuilder.methodEvent e) := by
  cases e with
  | annotate => exact onMethod fun _ hm => { hm with annotated := annotated hm.annotated }
  | annotateType visible a =>
    exact (typeAnnotated visible a).bind fun _ ht => onMethod fun _ hm => { hm with annotated := typed ht hm.annotated }
  | annotateParameter index visible a => exact annotateParameter index visible a
  | code e => exact code e
  | parameter => exact onMethod fun _ hm => { hm with parameters := forall_mem_cons.2 ⟨by simp, hm.parameters⟩ }
  | annotationDefault value => exact onMethod fun _ hm => { hm with default := AnnotationValue.distinct_ofElement value }
  | annotableParameterCount _ visible => exact onMethod fun _ hm => by cases visible <;> exact { hm with }
  | signature | deprecated | synthetic => exact onMethod fun _ hm => { hm with }
  | _ => cases he

end Keeps

def eventIn : Scope → ClassEvent → BuildM Unit
  | .ofClass => classEvent
  | .ofField => fieldEvent
  | .ofMethod => methodEvent

theorem accept_within (hb : At (.within s) b) (e : ClassEvent) : accept e b = eventIn s e b := by
  obtain ⟨stage, model, labels⟩ := b
  cases s with
  | ofClass =>
    cases hb.1
    cases e <;> rfl
  | ofField =>
    cases hb
    cases e <;> rfl
  | ofMethod =>
    cases hb.1
    cases e <;> rfl

theorem keeps_accept (he : s.has e = true) : Keeps (Sound (.within s)) (accept e) := by
  refine Keeps.of_eq (y := eventIn s e) (fun b hb => accept_within hb.1 e) ?_
  cases s with
  | ofClass => exact Keeps.classEvent he
  | ofField => exact Keeps.fieldEvent (by simpa [Scope.has] using he)
  | ofMethod => exact Keeps.methodEvent he

theorem At.open (hb : At (.within s) b) : b.Open (orderClass b.model) := by
  have hstage : b.stage ≠ .awaitingClass ∧ b.stage ≠ .closed := by
    cases s with
    | ofClass => simp [hb.1]
    | ofField => simp [show b.stage = .inClass true from hb]
    | ofMethod => simp [hb.1]
  exact ⟨hstage.1, hstage.2, rfl⟩

/-- **A builder takes an event that can come now, or does not take it for a reason other than the order.** -/
theorem accept_next (hb : Sound p b) (h : p.next e = some q) :
    (∀ u t, accept e b = .ok u t → Sound q t) ∧ ∀ f t, accept e b = .error f t → Sound q t ∧ f.cause.isOrder = false := by
  have htaken : ∀ {r}, accept e b = .ok () r → Sound q r →
      (∀ u t, accept e b = .ok u t → Sound q t) ∧ ∀ f t, accept e b = .error f t → Sound q t ∧ f.cause.isOrder = false := by
    intro r hr hq
    rw [hr]
    refine ⟨?_, ?_⟩
    · rintro _ _ ⟨⟩
      exact hq
    · rintro _ _ ⟨⟩
  have hd := hb.2
  cases p with
  | start =>
    cases e with
    | header header =>
      obtain ⟨stage, model, labels⟩ := b
      cases hb.1.1
      cases h
      exact htaken rfl ⟨⟨rfl, hb.1.2⟩, hd.annotated, hd.components, hd.fields, hd.methods⟩
    | _ => cases h
  | within s =>
    have ho := hb.1.open
    rcases Phase.next_within h with ⟨he, rfl⟩ | ⟨m, rfl, rfl⟩ | ⟨rfl, rfl⟩
    · have hk := keeps_accept he b hb
      exact ⟨fun u t ht => (hk.1 u t ht).1, hk.2⟩
    · cases m with
      | field header =>
        exact htaken (ho.accept_eq.1 header)
          ⟨rfl, hd.annotated, hd.components, forall_mem_cons.2 ⟨rfl, hd.fields⟩, hd.methods⟩
      | method header =>
        exact htaken (ho.accept_eq.2.1 header)
          ⟨⟨rfl, cons_ne_nil _ _⟩, hd.annotated, hd.components, hd.fields, forall_mem_cons.2 ⟨rfl, hd.methods⟩⟩
    · exact htaken ho.accept_eq.2.2 ⟨rfl, hd⟩
  | ended => cases h

/-- **A builder refuses an event that cannot come now.** -/
theorem accept_stuck (hb : At p b) (h : p.next e = none) :
    accept e b = .error (.violation (.unexpectedEvent e b.stage)) b := by
  obtain ⟨stage, model, labels⟩ := b
  cases p with
  | start =>
    cases hb.1
    cases e with
    | header => cases h
    | _ => rfl
  | within s =>
    rw [accept_within hb]
    have hs : s.has e = false := by
      by_contra hc
      rw [Phase.next_of_has (by simpa using hc)] at h
      cases h
    cases e with
    | field | method | done => cases h
    | _ => cases s <;> first | rfl | cases hs
  | ended =>
    cases hb
    cases e <;> rfl

theorem exists_next (hb : Sound p b) (h : accept e b = .ok () t) : ∃ q, p.next e = some q ∧ Sound q t := by
  cases hq : p.next e with
  | none =>
    rw [accept_stuck hb.1 hq] at h
    cases h
  | some q => exact ⟨q, rfl, (accept_next hb hq).1 () t h⟩

theorem isOrder_of_run {f : Fault} (hb : Sound p b) (hp : p.run events = some q)
    (h : events.forM accept b = .error f t) : f.cause.isOrder = false := by
  induction events generalizing p b with
  | nil => cases h
  | cons e events ih =>
    rw [Phase.run_cons, Option.bind_eq_some_iff] at hp
    obtain ⟨r, hr, hp⟩ := hp
    have hs : (e :: events).forM accept = (accept e >>= fun _ => events.forM accept) := rfl
    rw [hs] at h
    rcases run_bind_eq_error.1 h with h1 | ⟨u, b', h1, h2⟩
    · exact ((accept_next hb hr).2 f t h1).2
    · exact ih ((accept_next hb hr).1 u b' h1) hp h2

theorem sound_start : Sound .start {} := by
  refine ⟨⟨rfl, rfl, rfl⟩, rfl, ?_, ?_, ?_⟩ <;> rintro _ ⟨⟩

theorem sound_of_buildModel {c : ClassModel} (h : buildModel events = .ok c) : Grammatical events ∧ c.Distinct := by
  rw [buildModel] at h
  split at h
  next b hb =>
    obtain ⟨q, hq, hat⟩ := Phase.run_of_next Sound exists_next sound_start hb
    rw [finish] at h
    split at h
    next hclosed =>
      cases h
      refine ⟨Phase.run_start.1 (hq.trans (congrArg some ?_)), hat.2.ordered⟩
      rcases q with _ | ⟨_ | _ | _⟩ | _
      · exact absurd (hat.1.1.symm.trans hclosed) (by simp)
      · exact absurd (hat.1.1.symm.trans hclosed) (by simp)
      · exact absurd (Eq.trans (Eq.symm hat.1) hclosed) (by simp)
      · exact absurd (hat.1.1.symm.trans hclosed) (by simp)
      · rfl
    next => cases h
  next => cases h

theorem isOrder_of_grammatical (hg : Grammatical events) {f : Fault}
    (h : buildModel events = .error f) : f.cause.isOrder = false := by
  have hrun := Phase.run_start.2 hg
  rw [buildModel] at h
  split at h
  next b hb =>
    obtain ⟨q, hq, hat⟩ := Phase.run_of_next Sound exists_next sound_start hb
    cases hq.symm.trans hrun
    have hclosed : b.stage = .closed := hat.1
    rw [finish, if_pos hclosed] at h
    cases h
  next f' t hb =>
    cases h
    exact isOrder_of_run sound_start hrun hb

end ModelBuilder

/-! ## All together -/

theorem Elements.Proper.grammatical {s : Elements} (h : s.Proper) : Grammatical s.flatten :=
  ⟨s.header, s.events, s.members, s.flatten_eq, h.events, Elements.holds_members h⟩

/-- **Reading, building and writing have one order of events.** What is written, built or read are the events of a class, and
no class is refused by a builder because of the order of its events. -/
theorem grammatical_events (events : List ClassEvent) :
    (∀ bytes, writeEvents events = .ok bytes → Grammatical events) ∧
    (∀ c, buildModel events = .ok c → Grammatical events) ∧
    (Grammatical events → ∀ f, buildModel events = .error f → f.cause.isOrder = false) ∧
    ∀ bytes, readEvents bytes = .ok events → Grammatical events := by
  refine ⟨fun bytes h => ClassWriter.grammatical_of_writeEvents h, fun c h => (ModelBuilder.sound_of_buildModel h).1,
    fun hg f h => ModelBuilder.isOrder_of_grammatical hg h, fun bytes h => ?_⟩
  obtain ⟨s, rfl, hp, -⟩ := exists_elements h
  exact hp.grammatical

def bareClass : List ClassEvent := [.header ⟨⟨52, 0⟩, 33, "A", none, []⟩, .done]

/-- A class with a method before a field. The annotation of the method is on one of its parameters. -/
def mixedClass (parameter : UInt8) : List ClassEvent :=
  [.header ⟨⟨52, 0⟩, 33, "A", none, []⟩, .source (some "A.java") none, .method ⟨0x400, "m", "(I)V", []⟩, .deprecated,
    .annotateParameter parameter true ⟨"LM;", []⟩, .field ⟨1, "f", "I", none⟩, .synthetic, .done]

/-- An annotation of a parameter that there is not is refused, but not because of its place. -/
theorem grammatical_events_mixed :
    (∃ bytes, writeEvents bareClass = .ok bytes ∧ Grammatical bareClass) ∧
    (∃ c, buildModel (mixedClass 0) = .ok c ∧ Grammatical (mixedClass 0)) ∧
    (∃ f, buildModel (mixedClass 1) = .error f ∧ Grammatical (mixedClass 1) ∧ f.cause.isOrder = false) ∧
    ∃ bytes events, readEvents bytes = .ok events ∧ Grammatical events := by
  refine ⟨?_, ?_, ?_, ?_⟩
  · obtain ⟨bytes, h⟩ : ∃ bytes, writeEvents bareClass = .ok bytes := exists_eq_ok.2 (by cbv)
    exact ⟨bytes, h, (grammatical_events bareClass).1 bytes h⟩
  · obtain ⟨c, h⟩ : ∃ c, buildModel (mixedClass 0) = .ok c := exists_eq_ok.2 (by decide +kernel)
    exact ⟨c, h, (grammatical_events (mixedClass 0)).2.1 c h⟩
  · have hb : (buildModel (mixedClass 1)).isOk = false := by decide +kernel
    have hg : Grammatical (mixedClass 1) := by decide +kernel
    cases h : buildModel (mixedClass 1) with
    | error f => exact ⟨f, rfl, hg, (grammatical_events (mixedClass 1)).2.2.1 hg f h⟩
    | ok c => cases h ▸ hb
  · let bytes : Bytes :=
      [202, 254, 186, 190, 0, 0, 0, 52, 0, 3, 1, 0, 1, 65, 7, 0, 1, 0, 33, 0, 2, 0, 0, 0, 0, 0, 0, 0, 0, 0, 0]
    obtain ⟨events, h⟩ : ∃ events, readEvents bytes = .ok events := exists_eq_ok.2 (by decide +kernel)
    exact ⟨bytes, events, h, (grammatical_events events).2.2.2 bytes h⟩

end ClassDoc
