/-
  Classes in the form in which they are read.
-/
import ClassDoc.Proofs.ClassFile.File
import ClassDoc.Proofs.Code.Canonical
namespace ClassDoc

open List

/-! ## Elements -/

/-- What the events say of any element. -/
structure CommonForm where
  signature : Option String
  deprecated : Bool
  synthetic : Bool
  annotations : List (Bool × Annotation)
  types : List (Bool × TypeAnnotation Label)

namespace CommonForm

variable (c : CommonForm)

def signatureEvents : List ClassEvent := c.signature.toList.map .signature

def markerEvents : List ClassEvent :=
  (if c.deprecated then [.deprecated] else []) ++ (if c.synthetic then [.synthetic] else [])

def annotationEvents : List ClassEvent :=
  c.annotations.map (fun a => .annotate a.1 a.2) ++ c.types.map fun a => .annotateType a.1 a.2

/-- Visible annotations come first. -/
structure Canonical (c : CommonForm) : Prop where
  annotations : VisibleFirst c.annotations
  types : VisibleFirst c.types

end CommonForm

/-- What the events say of a field. -/
structure FieldForm where
  header : FieldHeader
  common : CommonForm

def FieldForm.events (f : FieldForm) : List ClassEvent :=
  f.common.signatureEvents ++ f.common.markerEvents ++ f.common.annotationEvents

/-- What the events say of the annotations of parameters, of one visibility. -/
structure ParameterForm where
  count : Option UInt8
  annotations : List (UInt8 × Annotation)

namespace ParameterForm

variable (p : ParameterForm)

def events (visible : Bool) : List ClassEvent :=
  p.count.toList.map (fun count => .annotableParameterCount count visible)
    ++ p.annotations.map fun a => .annotateParameter a.1 visible a.2

/-- The number is only given if it is not the one of the arguments, and the parameters ascend. -/
structure Canonical (p : ParameterForm) (arguments : Nat) : Prop where
  count : ∀ count ∈ p.count, count.toNat ≠ arguments
  annotations : p.annotations.Pairwise fun a b => a.1 ≤ b.1

end ParameterForm

/-- What the events say of a method. -/
structure MethodForm where
  header : MethodHeader
  common : CommonForm
  parameters : List (Option String × UInt16)
  visible : ParameterForm
  invisible : ParameterForm
  default : Option ElementValue
  code : Option CodeForm

namespace MethodForm

variable (m : MethodForm)

def frontEvents : List ClassEvent :=
  m.common.signatureEvents ++ m.common.markerEvents ++ m.parameters.map (fun p => .parameter p.1 p.2)
    ++ m.common.annotationEvents ++ m.visible.events true ++ m.invisible.events false
    ++ m.default.toList.map .annotationDefault

def codeEvents : List CodeEvent := m.code.toList.flatMap CodeForm.events

def events : List ClassEvent := m.frontEvents ++ m.codeEvents.map .code

/-- The parts of the method are in canonical form, and the constants in its code can be read. -/
structure Canonical (m : MethodForm) : Prop where
  common : m.common.Canonical
  parameters : ∀ arguments result, Descriptor.splitMethod m.header.descriptor = .ok (arguments, result) →
    m.visible.Canonical arguments.length ∧ m.invisible.Canonical arguments.length
  code : ∀ c ∈ m.code, c.Canonical ∧ ∀ s ∈ c.steps, s.insn.loads = true

/-- With the entries of a pool, no conditional jump is made wide. -/
def StaysShort (P : Pool) : Prop :=
  ∀ c ∈ m.code, ∀ layout, Layout.of (Body.ofEvents c.events).items P = .ok layout P → layout.StaysShort

end MethodForm

/-- What the events say of a class: its canonical events are read off it in a fixed order. -/
structure ClassForm where
  header : ClassHeader
  source : Option (Option String × Option String)
  common : CommonForm
  enclosing : Option (String × Option String × Option String)
  nestHost : Option String
  nestMembers : List String
  permitted : List String
  inner : List InnerClass
  record : Option (List RecordComponent)
  module : Option ModuleInfo
  fields : List FieldForm
  methods : List MethodForm

namespace ClassForm

variable (f : ClassForm)

def ownEvents : List ClassEvent :=
  f.source.toList.map (fun s => .source s.1 s.2) ++ f.common.signatureEvents
    ++ f.enclosing.toList.map (fun e => .enclosingMethod e.1 e.2.1 e.2.2)
    ++ f.nestHost.toList.map .nestHost ++ f.nestMembers.map .nestMember
    ++ f.permitted.map .permittedSubclass ++ f.inner.map .innerClass ++ f.common.markerEvents
    ++ f.common.annotationEvents ++ f.record.toList.map .record ++ f.module.toList.map .module

def elements : Elements where
  header := f.header
  events := f.ownEvents
  fields := f.fields.map fun field => (field.header, field.events)
  methods := f.methods.map fun method => (method.header, method.events)

def events : List ClassEvent := f.elements.flatten

/-- The class can be read, and nothing is said that is not read. -/
structure Canonical (f : ClassForm) : Prop where
  version : f.header.version.major ≤ maxMajor
  source : ∀ s ∈ f.source, s.1.isSome || s.2.isSome
  common : f.common.Canonical
  record : ∀ components ∈ f.record, ∀ c ∈ components, VisibleFirst c.annotations ∧ VisibleFirst c.typeAnnotations
  fields : ∀ field ∈ f.fields, field.common.Canonical
  methods : ∀ method ∈ f.methods, method.Canonical

/-- When the class is written, no conditional jump is made wide. -/
def StaysShort (f : ClassForm) : Prop := ∀ b P, f.elements.putAll {} = .ok b P → ∀ m ∈ f.methods, m.StaysShort P

end ClassForm

/-! ## What is read of an element -/

variable {f : FieldForm} {e : ClassEvent} {α : Type}

theorem filterMap_filter_of {β : Type} {p : α → Bool} {g : α → Option β} (hg : ∀ a, p a = false → g a = none) (xs : List α) :
    (xs.filter p).filterMap g = xs.filterMap g := by
  rw [filterMap_filter]
  refine congrArg (fun g => xs.filterMap g) (funext fun a => ?_)
  cases ha : p a with
  | true => rfl
  | false => exact (hg a ha).symm

theorem any_filter_of {p g : α → Bool} (hg : ∀ a, p a = false → g a = false) (xs : List α) :
    (xs.filter p).any g = xs.any g := by
  rw [any_filter]
  refine congrArg xs.any (funext fun a => ?_)
  cases ha : p a with
  | true => rfl
  | false => exact (hg a ha).symm

def ClassEvent.isCommon : ClassEvent → Bool
  | signature _ | deprecated | synthetic | annotate _ _ | annotateType _ _ => true
  | _ => false

theorem ClassEvent.level_of_isCommon (h : e.isCommon = true) : e.level = .element := by
  cases e <;> first | rfl | cases h

theorem ClassEvent.isCode_of_isCommon (h : e.isCommon = true) : e.isCode = false := by
  cases e <;> first | rfl | cases h

namespace CommonForm

variable {c : CommonForm} {events : List ClassEvent}

theorem isCommon_signatureEvents : ∀ e ∈ c.signatureEvents, e.isCommon = true := by
  simp [signatureEvents, ClassEvent.isCommon]

theorem isCommon_markerEvents : ∀ e ∈ c.markerEvents, e.isCommon = true := by
  intro e he
  simp only [markerEvents, mem_append, mem_ite_nil_right, mem_singleton] at he
  rcases he with ⟨-, rfl⟩ | ⟨-, rfl⟩ <;> rfl

theorem isCommon_annotationEvents : ∀ e ∈ c.annotationEvents, e.isCommon = true := by
  simp [annotationEvents, ClassEvent.isCommon, or_imp, forall_and]

def Within (c : CommonForm) (events : List ClassEvent) : Prop :=
  events.filter ClassEvent.isCommon = c.signatureEvents ++ c.markerEvents ++ c.annotationEvents

def stored (c : CommonForm) : CommonForm :=
  { c with annotations := byVisibility c.annotations, types := byVisibility c.types }

@[simp] theorem stored_signatureEvents : c.stored.signatureEvents = c.signatureEvents := rfl

@[simp] theorem stored_markerEvents : c.stored.markerEvents = c.markerEvents := rfl

theorem stored_of_canonical (hc : c.Canonical) : c.stored = c := by
  rw [stored, byVisibility_of_visibleFirst hc.annotations, byVisibility_of_visibleFirst hc.types]

/-- What the events of an element say about it. -/
def ofEvents (events : List ClassEvent) : CommonForm where
  signature := Element.signature events
  deprecated := Element.deprecated events
  synthetic := Element.synthetic events
  annotations := Element.annotations events
  types := Element.typeAnnotations events

theorem ofEvents_of_within (h : c.Within events) : ofEvents events = c := by
  have hmap : ∀ {α : Type} {g : ClassEvent → Option α}, (∀ e, e.isCommon = false → g e = none) →
      events.filterMap g = (c.signatureEvents ++ c.markerEvents ++ c.annotationEvents).filterMap g :=
    fun hg => by rw [← filterMap_filter_of hg, h]
  have hany : ∀ {g : ClassEvent → Bool}, (∀ e, e.isCommon = false → g e = false) →
      events.any g = (c.signatureEvents ++ c.markerEvents ++ c.annotationEvents).any g :=
    fun hg => by rw [← any_filter_of hg, h]
  have hfalse : ∀ {α : Type} (l : List α), (l.any fun _ => false) = false := fun l => any_eq_false.2 (by simp)
  rw [ofEvents, Element.signature, Element.deprecated, Element.synthetic, Element.annotations, Element.typeAnnotations,
    hmap, hmap, hmap, hany, hany]
  · simp [signatureEvents, markerEvents, annotationEvents, filterMap_ite, any_ite, Function.comp_def,
      getLast?_toList, hfalse]
  all_goals
    intro e
    cases e <;> simp [ClassEvent.isCommon]

theorem readBack_stored (h : c.Within events) : Element.signature events = c.signature ∧
    Element.headEvents events = c.signatureEvents ++ c.markerEvents ∧
    Element.annotationEvents events = c.stored.annotationEvents := by
  rw [← ofEvents_of_within h]
  exact ⟨rfl, append_assoc .., rfl⟩

variable (c) in
theorem within_append (xs ys zs ws : List ClassEvent) (hx : ∀ e ∈ xs ++ ys ++ zs ++ ws, e.isCommon = false) :
    c.Within (xs ++ c.signatureEvents ++ ys ++ c.markerEvents ++ zs ++ c.annotationEvents ++ ws) := by
  simp only [forall_mem_append] at hx
  obtain ⟨⟨⟨hx, hy⟩, hz⟩, hw⟩ := hx
  have hnil : ∀ {l : List ClassEvent}, (∀ e ∈ l, e.isCommon = false) → l.filter ClassEvent.isCommon = [] :=
    fun h => filter_eq_nil_iff.2 fun e he => by simp [h e he]
  simp only [Within, filter_append, hnil hx, hnil hy, hnil hz, hnil hw, filter_eq_self.2 isCommon_signatureEvents,
    filter_eq_self.2 isCommon_markerEvents, filter_eq_self.2 isCommon_annotationEvents, nil_append,
    append_nil]

theorem filterMap_eq_nil {g : ClassEvent → Option α} (hg : ∀ e, e.isCommon = true → g e = none) :
    c.signatureEvents.filterMap g = [] ∧ c.markerEvents.filterMap g = [] ∧ c.annotationEvents.filterMap g = [] :=
  ⟨filterMap_eq_nil_iff.2 fun e he => hg e (isCommon_signatureEvents e he),
    filterMap_eq_nil_iff.2 fun e he => hg e (isCommon_markerEvents e he),
    filterMap_eq_nil_iff.2 fun e he => hg e (isCommon_annotationEvents e he)⟩

end CommonForm

/-! ## Fields -/

def FieldForm.stored (f : FieldForm) : FieldForm := { f with common := f.common.stored }

theorem FieldForm.within_events : f.common.Within f.events := by
  simpa [FieldForm.events] using f.common.within_append [] [] [] [] (by simp)

theorem FieldForm.isCommon_events : ∀ e ∈ f.events, e.isCommon = true := by
  simp only [events, forall_mem_append]
  exact ⟨⟨CommonForm.isCommon_signatureEvents, CommonForm.isCommon_markerEvents⟩, CommonForm.isCommon_annotationEvents⟩

theorem FieldForm.readBack_stored (f : FieldForm) :
    Element.headEvents f.events ++ Element.annotationEvents f.events = f.stored.events := by
  obtain ⟨-, hhead, hannotations⟩ := CommonForm.readBack_stored (within_events (f := f))
  rw [hhead, hannotations]
  rfl

theorem FieldForm.readBack (hf : f.common.Canonical) :
    Element.headEvents f.events ++ Element.annotationEvents f.events = f.events := by
  rw [readBack_stored, stored, CommonForm.stored_of_canonical hf]

/-! ## Methods -/

theorem flatMap_range_filter (key : α → Nat) {xs : List α} {n : Nat} (hx : xs.Pairwise fun a b => key a ≤ key b)
    (hn : ∀ a ∈ xs, key a < n) : (List.range n).flatMap (fun i => xs.filter fun a => key a = i) = xs := by
  induction n generalizing xs with
  | zero =>
    cases xs with
    | nil => rfl
    | cons a xs => exact absurd (hn a (by simp)) (by omega)
  | succ n ih =>
    have hsplit : xs.filter (fun a => key a < n) ++ xs.filter (fun a => key a = n) = xs := by
      clear ih
      induction xs with
      | nil => rfl
      | cons a xs ihx =>
        rw [pairwise_cons] at hx
        rw [forall_mem_cons] at hn
        have ihx := ihx hx.2 hn.2
        by_cases ha : key a < n
        · rw [filter_cons_of_pos (by simpa using ha), filter_cons_of_neg (by simp; omega), cons_append, ihx]
        · -- all others have the same key
          have hall : ∀ b ∈ a :: xs, key b = n := by
            rw [forall_mem_cons]
            refine ⟨by omega, fun b hb => ?_⟩
            have := hx.1 b hb
            have := hn.2 b hb
            omega
          rw [filter_eq_nil_iff.2 fun b hb => by simp [hall b hb], filter_eq_self.2 fun b hb => by simp [hall b hb],
            nil_append]
    have hlow := ih (hx.filter fun a => key a < n) (by simp)
    rw [range_succ, flatMap_append, flatMap_singleton]
    conv_rhs => rw [← hsplit, ← hlow]
    congr 1
    refine flatMap_congr fun i hi => ?_
    rw [filter_filter]
    refine filter_congr fun a _ => ?_
    have := mem_range.1 hi
    by_cases ha : key a = i <;> simp [ha, this]

namespace ParameterForm

variable {p : ParameterForm} {visible : Bool} {arguments : Nat} {events : List ClassEvent}

def stored (p : ParameterForm) (arguments : Nat) : ParameterForm :=
  { p with count := p.count.filter fun count => count.toNat ≠ arguments }

theorem stored_of_canonical (hp : p.Canonical arguments) : p.stored arguments = p := by
  obtain ⟨count, annotations⟩ := p
  cases count with
  | none => rfl
  | some count =>
    have hn : count.toNat ≠ arguments := hp.count count rfl
    simp [stored, Option.filter, hn]

theorem readBack_stored (hp : p.annotations.Pairwise fun a b => a.1 ≤ b.1) (hr : ParametersInRange visible arguments events)
    (hcount : Element.annotableParameters visible events = p.count)
    (hannotations : Element.parameterAnnotations visible events = p.annotations) :
    (if hasParameterAnnotations visible events then parameterEvents visible arguments events else []) =
      (p.stored arguments).events visible := by
  have hann : ∀ count, (∀ a ∈ p.annotations, a.1.toNat < count) → annotatedParameters visible count p.annotations =
      p.annotations.map fun a => .annotateParameter a.1 visible a.2 := by
    intro count hc
    have hsorted := flatMap_range_filter (fun a : UInt8 × Annotation => a.1.toNat)
      (hp.imp fun h => UInt8.le_iff_toNat_le.1 h) hc
    conv_rhs => rw [← hsorted]
    rw [annotatedParameters, map_flatMap]
    refine flatMap_congr fun i _ => ?_
    rw [map_filterMap, ← filterMap_eq_map, filterMap_filter]
    refine filterMap_congr fun a _ => ?_
    by_cases ha : a.1.toNat = i
    · obtain rfl := ha
      simp
    · simp [ha]
  rw [ParametersInRange, hannotations] at hr
  rw [hasParameterAnnotations, parameterEvents, annotableCount, hcount, hannotations]
  rw [annotableCount, hcount] at hr
  rw [countedParameters, hann _ hr, ParameterForm.events, stored]
  cases hc : p.count with
  | none =>
    cases p.annotations <;> simp
  | some count =>
    by_cases hn : count.toNat = arguments <;> simp [Option.filter, hn]

end ParameterForm

namespace MethodForm

variable {m : MethodForm}

theorem forall_mem_frontEvents {P : ClassEvent → Prop} (hc : ∀ e, e.isCommon = true → P e)
    (hp : ∀ name access, P (.parameter name access)) (hcount : ∀ count visible, P (.annotableParameterCount count visible))
    (ha : ∀ parameter visible a, P (.annotateParameter parameter visible a)) (hd : ∀ value, P (.annotationDefault value)) :
    ∀ e ∈ m.frontEvents, P e := by
  simp only [frontEvents, ParameterForm.events, forall_mem_append, forall_mem_map]
  exact ⟨⟨⟨⟨⟨⟨fun e he => hc e (CommonForm.isCommon_signatureEvents e he),
    fun e he => hc e (CommonForm.isCommon_markerEvents e he)⟩,
    fun _ _ => hp _ _⟩, fun e he => hc e (CommonForm.isCommon_annotationEvents e he)⟩, fun _ _ => hcount _ _,
    fun _ _ => ha _ _ _⟩, fun _ _ => hcount _ _, fun _ _ => ha _ _ _⟩, fun _ _ => hd _⟩

theorem isInMethod_events : ∀ e ∈ m.events, e.isInMethod = true := by
  rw [events, forall_mem_append, forall_mem_map]
  refine ⟨forall_mem_frontEvents (fun e he => ?_) (fun _ _ => rfl) (fun _ _ => rfl) (fun _ _ _ => rfl) fun _ => rfl,
    fun _ _ => rfl⟩
  rw [ClassEvent.isInMethod, ClassEvent.level_of_isCommon he]
  rfl

theorem isCode_frontEvents : ∀ e ∈ m.frontEvents, e.isCode = false :=
  forall_mem_frontEvents (fun _ => ClassEvent.isCode_of_isCommon) (fun _ _ => rfl) (fun _ _ => rfl)
    (fun _ _ _ => rfl) fun _ => rfl

theorem code_events : Element.code m.events = m.codeEvents := code_append isCode_frontEvents _

section

variable (code : List CodeEvent)

theorem within_frontEvents : m.common.Within (m.frontEvents ++ code.map .code) := by
  have hw := m.common.within_append [] [] (m.parameters.map fun p => .parameter p.1 p.2)
    (m.visible.events true ++ m.invisible.events false ++ m.default.toList.map .annotationDefault
      ++ code.map .code)
  simp only [ParameterForm.events, forall_mem_append, forall_mem_map] at hw
  simpa [frontEvents, ParameterForm.events] using
    hw ⟨⟨⟨by simp, by simp⟩, fun _ _ => rfl⟩,
      ⟨⟨⟨fun _ _ => rfl, fun _ _ => rfl⟩, fun _ _ => rfl, fun _ _ => rfl⟩, fun _ _ => rfl⟩, fun _ _ => rfl⟩

theorem filterMap_frontEvents {g : ClassEvent → Option α} (hg : ∀ e, e.isCommon = true → g e = none) :
    (m.frontEvents ++ code.map ClassEvent.code).filterMap g =
      (m.parameters.map fun p => .parameter p.1 p.2).filterMap g
      ++ (m.visible.events true).filterMap g ++ (m.invisible.events false).filterMap g
      ++ (m.default.toList.map ClassEvent.annotationDefault).filterMap g ++ (code.map ClassEvent.code).filterMap g := by
  obtain ⟨hs, hm, ha⟩ := CommonForm.filterMap_eq_nil (c := m.common) hg
  simp only [frontEvents, filterMap_append, hs, hm, ha, nil_append, append_nil]

def annotated (m : MethodForm) (visible : Bool) : ParameterForm := if visible then m.visible else m.invisible

/-- What the events of a method say about it, its code aside. -/
def ofEvents (header : MethodHeader) (events : List ClassEvent) : MethodForm where
  header := header
  common := .ofEvents events
  parameters := Element.parameters events
  visible := ⟨Element.annotableParameters true events, Element.parameterAnnotations true events⟩
  invisible := ⟨Element.annotableParameters false events, Element.parameterAnnotations false events⟩
  default := Element.annotationDefault events
  code := none

theorem ofEvents_frontEvents : ofEvents m.header (m.frontEvents ++ code.map ClassEvent.code) = { m with code := none } := by
  rw [ofEvents, CommonForm.ofEvents_of_within (within_frontEvents code)]
  simp only [Element.parameters, Element.annotableParameters, Element.parameterAnnotations, Element.annotationDefault]
  rw [filterMap_frontEvents code, filterMap_frontEvents code, filterMap_frontEvents code, filterMap_frontEvents code,
    filterMap_frontEvents code, filterMap_frontEvents code]
  · simp [ParameterForm.events, getLast?_toList]
  all_goals
    intro e
    cases e <;> simp [ClassEvent.isCommon]

def stored (m : MethodForm) (arguments : Nat) : MethodForm :=
  { m with common := m.common.stored, visible := m.visible.stored arguments, invisible := m.invisible.stored arguments }

theorem readBack_stored {arguments : Nat}
    (hp : ∀ visible, (m.annotated visible).annotations.Pairwise fun a b => a.1 ≤ b.1)
    (hr : ∀ visible, ParametersInRange visible arguments (m.frontEvents ++ code.map .code)) :
    methodReadBack m.header arguments (m.frontEvents ++ code.map .code) =
      .method m.header :: (m.stored arguments).frontEvents := by
  obtain ⟨-, hhead, hannotations⟩ := CommonForm.readBack_stored (within_frontEvents (m := m) code)
  obtain ⟨-, -, hparameters, hvisible, hinvisible, hdefault, -⟩ := mk.inj (ofEvents_frontEvents (m := m) code)
  rw [methodReadBack, hhead, hannotations, hparameters, hdefault,
    ParameterForm.readBack_stored (hp true) (hr true) (congrArg ParameterForm.count hvisible)
      (congrArg ParameterForm.annotations hvisible),
    ParameterForm.readBack_stored (hp false) (hr false) (congrArg ParameterForm.count hinvisible)
      (congrArg ParameterForm.annotations hinvisible)]
  rfl

end

theorem readBack (hm : m.Canonical) {arguments : List String} {result : String}
    (hs : Descriptor.splitMethod m.header.descriptor = .ok (arguments, result))
    (hr : ∀ visible, ParametersInRange visible arguments.length m.events) :
    methodReadBack m.header arguments.length m.events = .method m.header :: m.frontEvents := by
  obtain ⟨hvisible, hinvisible⟩ := hm.parameters arguments result hs
  have hp : ∀ visible, (m.annotated visible).Canonical arguments.length := by
    intro visible
    cases visible with
    | true => exact hvisible
    | false => exact hinvisible
  have hstored : m.stored arguments.length = m := by
    rw [stored, CommonForm.stored_of_canonical hm.common, ParameterForm.stored_of_canonical hvisible,
      ParameterForm.stored_of_canonical hinvisible]
  rw [events, readBack_stored m.codeEvents (fun visible => (hp visible).annotations) hr, hstored]

theorem code_eq_iff (hm : m.Canonical) {code : List CodeEvent} (h : CodeReadAs P m.header m.events code) :
    code = m.codeEvents ↔ m.StaysShort P := by
  rw [CodeReadAs, code_events] at h
  rw [StaysShort, codeEvents] at *
  cases hcode : m.code with
  | none =>
    rw [hcode] at h
    refine iff_of_true h fun c hc => ?_
    cases hc
  | some c =>
    rw [hcode, Option.toList_some, flatMap_singleton, if_neg (by simp [CodeForm.events])] at h
    obtain ⟨layout, maxs, h⟩ := h
    rw [Option.toList_some, flatMap_singleton, CodeForm.readBack_eq_iff (hm.code c hcode).1 h]
    constructor
    · rintro hs _ ⟨⟩ layout' hl
      rw [h.layout_eq] at hl
      cases hl
      exact hs
    · exact fun hs => hs c rfl layout h.layout_eq

def ReadAs (P : Pool) (m : MethodForm) (n : MethodHeader × List ClassEvent) : Prop :=
  ∃ code, n = (m.header, m.frontEvents ++ code.map .code) ∧ CodeReadAs P m.header m.events code

theorem readAs_of_methodReadAs (hm : m.Canonical)
    (h : MethodReadAs P m.header m.events (.method n.1 :: n.2)) : m.ReadAs P n := by
  obtain ⟨arguments, result, code, hs, hrange, hcode, hn⟩ := h
  cases hd : Descriptor.splitMethod m.header.descriptor with
  | error => rw [hd] at hs; exact nomatch hs
  | ok x =>
    rw [hd] at hs
    obtain rfl := Except.ok.inj hs
    rw [readBack hm hd hrange] at hn
    obtain ⟨header, events⟩ := n
    cases hn
    exact ⟨code, rfl, hcode⟩

variable {P : Pool} {n : MethodHeader × List ClassEvent}

theorem ReadAs.eq_iff (hm : m.Canonical) (h : m.ReadAs P n) : n = (m.header, m.events) ↔ m.StaysShort P := by
  obtain ⟨code, rfl, hcode⟩ := h
  have hinj : Function.Injective (List.map ClassEvent.code) := map_injective_iff.2 fun _ _ h => ClassEvent.code.inj h
  rw [← code_eq_iff hm hcode, events, Prod.mk.injEq, append_cancel_left_eq, hinj.eq_iff, and_iff_right rfl]

end MethodForm

/-! ## Classes -/

theorem RecordComponent.readBack_of_visibleFirst {c : RecordComponent}
    (hc : VisibleFirst c.annotations ∧ VisibleFirst c.typeAnnotations) : c.readBack = c := by
  rw [RecordComponent.readBack, byVisibility_of_visibleFirst hc.1, byVisibility_of_visibleFirst hc.2]

namespace ClassForm

variable {f : ClassForm}

theorem forall_mem_ownEvents {P : ClassEvent → Prop} (h : ∀ e, e.isInClass = true → P e) : ∀ e ∈ f.ownEvents, P e := by
  have hc : ∀ e : ClassEvent, e.isCommon = true → P e := fun e he => h e (by
    rw [ClassEvent.isInClass, ClassEvent.level_of_isCommon he]
    rfl)
  simp only [ownEvents, forall_mem_append, forall_mem_map]
  exact ⟨⟨⟨⟨⟨⟨⟨⟨⟨⟨fun _ _ => h _ rfl, fun e he => hc e (CommonForm.isCommon_signatureEvents e he)⟩, fun _ _ => h _ rfl⟩,
    fun _ _ => h _ rfl⟩, fun _ _ => h _ rfl⟩, fun _ _ => h _ rfl⟩, fun _ _ => h _ rfl⟩,
    fun e he => hc e (CommonForm.isCommon_markerEvents e he)⟩, fun e he => hc e (CommonForm.isCommon_annotationEvents e he)⟩,
    fun _ _ => h _ rfl⟩, fun _ _ => h _ rfl⟩

theorem proper : f.elements.Proper := by
  refine ⟨forall_mem_ownEvents fun _ he => he, ?_, ?_⟩
  · simp only [elements, forall_mem_map]
    exact fun field _ e he => ClassEvent.level_of_isCommon (FieldForm.isCommon_events e he)
  · simp only [elements, forall_mem_map]
    exact fun method _ => MethodForm.isInMethod_events

theorem within_ownEvents : f.common.Within f.ownEvents := by
  have hw := f.common.within_append (f.source.toList.map fun s => .source s.1 s.2)
    (f.enclosing.toList.map (fun e => .enclosingMethod e.1 e.2.1 e.2.2)
      ++ f.nestHost.toList.map .nestHost ++ f.nestMembers.map .nestMember
      ++ f.permitted.map .permittedSubclass ++ f.inner.map .innerClass) []
    (f.record.toList.map .record ++ f.module.toList.map .module)
  simp only [forall_mem_append, forall_mem_map] at hw
  simpa [ownEvents] using hw ⟨⟨⟨fun _ _ => rfl, ⟨⟨⟨fun _ _ => rfl, fun _ _ => rfl⟩, fun _ _ => rfl⟩, fun _ _ => rfl⟩,
    fun _ _ => rfl⟩, by simp⟩, fun _ _ => rfl, fun _ _ => rfl⟩

theorem filterMap_ownEvents {g : ClassEvent → Option α} (hg : ∀ e, e.isCommon = true → g e = none) :
    f.ownEvents.filterMap g = (f.source.toList.map fun s => .source s.1 s.2).filterMap g
      ++ (f.enclosing.toList.map fun e => .enclosingMethod e.1 e.2.1 e.2.2).filterMap g
      ++ (f.nestHost.toList.map .nestHost).filterMap g ++ (f.nestMembers.map .nestMember).filterMap g
      ++ (f.permitted.map .permittedSubclass).filterMap g ++ (f.inner.map .innerClass).filterMap g
      ++ (f.record.toList.map .record).filterMap g ++ (f.module.toList.map .module).filterMap g := by
  obtain ⟨hs, hm, ha⟩ := CommonForm.filterMap_eq_nil (c := f.common) hg
  simp only [ownEvents, filterMap_append, hs, hm, ha, append_nil]

/-- What the events of a class say about it, its members aside. -/
def ofEvents (header : ClassHeader) (events : List ClassEvent) : ClassForm where
  header := header
  source := some (Element.source events) |>.filter fun s => s.1.isSome || s.2.isSome
  common := .ofEvents events
  enclosing := Element.enclosingMethod events
  nestHost := Element.nestHost events
  nestMembers := Element.nestMembers events
  permitted := Element.permittedSubclasses events
  inner := Element.innerClasses events
  record := Element.record events
  module := Element.module events
  fields := []
  methods := []

theorem ofEvents_ownEvents (hf : ∀ s ∈ f.source, s.1.isSome || s.2.isSome) :
    ofEvents f.header f.ownEvents = { f with fields := [], methods := [] } := by
  have hsource : (some (f.source.getD (none, none)) |>.filter fun s => s.1.isSome || s.2.isSome) = f.source := by
    cases hs : f.source with
    | none => rfl
    | some s => rw [Option.getD_some, Option.filter_some, if_pos (hf s hs)]
  rw [ofEvents, CommonForm.ofEvents_of_within within_ownEvents]
  simp only [Element.source, Element.enclosingMethod, Element.nestHost, Element.nestMembers,
    Element.permittedSubclasses, Element.innerClasses, Element.record, Element.module]
  rw [filterMap_ownEvents, filterMap_ownEvents, filterMap_ownEvents, filterMap_ownEvents, filterMap_ownEvents,
    filterMap_ownEvents, filterMap_ownEvents, filterMap_ownEvents]
  · simp [getLast?_toList, hsource]
  all_goals
    intro e
    cases e <;> simp [ClassEvent.isCommon]

theorem source_ofEvents (header : ClassHeader) (events : List ClassEvent) :
    (ofEvents header events).source.getD (none, none) = Element.source events := by
  rw [ofEvents, Option.filter_some]
  rcases Element.source events with ⟨_ | _, _ | _⟩ <;> rfl

def stored (f : ClassForm) : ClassForm :=
  { f with common := f.common.stored, record := f.record.map fun cs => cs.map RecordComponent.readBack }

theorem classReadBack_eq (header : ClassHeader) (events : List ClassEvent) :
    classReadBack events = (ofEvents header events).stored.ownEvents := by
  have hsource : sourceReadBack (Element.source events) =
      (ofEvents header events).source.toList.map fun s => ClassEvent.source s.1 s.2 := by
    rw [sourceReadBack, ofEvents, Option.filter_some]
    dsimp only
    split <;> rfl
  have hrecord : (Element.record events).toList.map (fun cs => ClassEvent.record (cs.map RecordComponent.readBack)) =
      (ofEvents header events).stored.record.toList.map ClassEvent.record := by
    rw [stored, ofEvents]
    cases Element.record events <;> rfl
  rw [classReadBack, hsource, hrecord]
  rfl

theorem readBack_stored (hf : ∀ s ∈ f.source, s.1.isSome || s.2.isSome) :
    classReadBack f.ownEvents = f.stored.ownEvents := by
  rw [classReadBack_eq f.header, ofEvents_ownEvents hf]
  rfl

theorem readBack (hf : f.Canonical) : classReadBack f.ownEvents = f.ownEvents := by
  have hrecord : (f.record.map fun cs => cs.map RecordComponent.readBack) = f.record := by
    cases hr : f.record with
    | none => rfl
    | some cs =>
      have := map_congr_left fun c hc => RecordComponent.readBack_of_visibleFirst (hf.record cs hr c hc)
      simpa using this
  rw [readBack_stored hf.source, stored, CommonForm.stored_of_canonical hf.common, hrecord]

theorem loads (hf : f.Canonical) : f.elements.Loads := by
  simp only [Elements.Loads, elements, forall_mem_map]
  intro m hm i hi
  rw [MethodForm.code_events] at hi
  obtain ⟨c, hc, hi⟩ := mem_flatMap.1 hi
  have hi : i ∈ c.steps.map CodeStep.insn := by
    rw [← CodeForm.filterMap_insn?]
    exact mem_filterMap.2 ⟨_, hi, rfl⟩
  obtain ⟨s, hs, rfl⟩ := mem_map.1 hi
  exact ((hf.methods m hm).code c (Option.mem_toList.1 hc)).2 s hs

/-- **What is read of the class file of a class in canonical form.** -/
theorem exists_readEvents (hf : f.Canonical) {bytes : Bytes} (h : writeEvents f.events = .ok bytes) :
    ∃ out, readEvents bytes = .ok out ∧ (out = f.events ↔ f.StaysShort) := by
  obtain ⟨b, P, t, hput, ht, hread⟩ := exists_readBack proper (loads hf) hf.version h
  refine ⟨t.flatten, hread, ?_⟩
  have hm : Forall₂ (fun m n => m.Canonical ∧ m.ReadAs P n) f.methods t.methods := by
    have := (forall₂_and_left f.methods t.methods).2 ⟨hf.methods, forall₂_map_left_iff.1 ht.methods⟩
    exact this.imp fun m n h => ⟨h.1, MethodForm.readAs_of_methodReadAs h.1 h.2⟩
  have hevents : t.events = f.ownEvents := ht.events.trans (readBack hf)
  have hfields : t.fields = f.elements.fields := by
    rw [ht.fields, elements, map_map]
    exact map_congr_left fun field hfield => Prod.ext rfl (FieldForm.readBack (hf.fields field hfield))
  constructor
  · intro he b' P' hput'
    rw [hput] at hput'
    cases hput'
    obtain rfl := Elements.flatten_inj ht.proper proper he
    rw [elements, forall₂_map_right_iff, forall₂_same] at hm
    exact fun m hmem => ((hm m hmem).2.eq_iff (hm m hmem).1).1 rfl
  · intro hs
    have hmethods : Forall₂ Eq f.elements.methods t.methods := by
      rw [elements, forall₂_map_left_iff]
      refine ((forall₂_and_left f.methods t.methods).2 ⟨hs b P hput, hm⟩).imp fun m n h => ?_
      exact ((h.2.2.eq_iff h.2.1).2 h.1).symm
    have ht : t = f.elements := by
      obtain ⟨header, events, fields, methods⟩ := t
      obtain rfl := forall₂_eq_eq_eq ▸ hmethods
      obtain rfl : header = f.header := ht.header
      obtain rfl : events = f.ownEvents := hevents
      obtain rfl : fields = f.elements.fields := hfields
      rfl
    rw [ht, ClassForm.events]

end ClassForm

end ClassDoc
