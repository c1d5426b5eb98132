/-
  The events of a class, element by element.
-/
import ClassDoc.ClassFile.Writer
import ClassDoc.Proofs.Code.Operands
import ClassDoc.Proofs.Code.Relabel
namespace ClassDoc

open List

/-! ## Labels of events -/

theorem TypeTarget.labels_eq_nil {L : Type} {target : TypeTarget L} {t : UInt8} (hf : target.fits t = true)
    (hc : TargetType.isCode t = false) : target.labels = [] := by
  have hall : ∀ t : UInt8, TargetType.isCode t = false → TargetType.form? t ≠ some .localVariable ∧
      TargetType.form? t ≠ some .offset ∧ TargetType.form? t ≠ some .typeArgument := Opcode.forall_of_lt (by decide +kernel)
  obtain ⟨h1, h2, h3⟩ := hall t hc
  rw [fits, beq_iff_eq] at hf
  cases target with
  | localVariable => exact absurd hf h1
  | offset => exact absurd hf h2
  | typeArgument => exact absurd hf h3
  | _ => rfl

namespace CodeEvent

def labels : CodeEvent → List Label
  | tryCatch t => [t.start, t.stop, t.handler]
  | label l => [l]
  | lineNumber _ l => [l]
  | frame f => f.labels
  | insn i => i.targets
  | localVariable v => [v.start, v.stop]
  | annotateType _ a => a.target.labels
  | maxs _ _ => []

def map (f : Label → Label) : CodeEvent → CodeEvent
  | tryCatch t => tryCatch ⟨f t.start, f t.stop, f t.handler, t.catchType⟩
  | label l => label (f l)
  | lineNumber line l => lineNumber line (f l)
  | frame frame' => frame (frame'.map f)
  | insn i => insn (i.map f)
  | localVariable v => localVariable { v with start := f v.start, stop := f v.stop }
  | annotateType visible a => annotateType visible (a.map f)
  | maxs maxStack maxLocals => maxs maxStack maxLocals

theorem map_congr {f g : Label → Label} {e : CodeEvent} (h : ∀ l ∈ e.labels, f l = g l) : e.map f = e.map g := by
  cases e with
  | frame => exact congrArg frame (Frame.map_congr h)
  | insn => exact congrArg insn (Insn.map_congr h)
  | annotateType visible => exact congrArg (annotateType visible) <| TypeAnnotation.map_congr h
  | _ => simp_all [map, labels]

end CodeEvent

namespace ClassEvent

def labels : ClassEvent → List Label
  | code e => e.labels
  | annotateType _ a => a.target.labels
  | record components => components.flatMap fun c => c.typeAnnotations.flatMap fun a => a.2.target.labels
  | _ => []

/-- The annotations on types outside of code. -/
def typeAnnotations (e : ClassEvent) : List <| TypeAnnotation Label :=
  match e with
  | annotateType _ a => [a]
  | record components => components.flatMap fun c => c.typeAnnotations.map Prod.snd
  | _ => []

def isCode : ClassEvent → Bool
  | code _ => true
  | _ => false

/-! ## Elements -/

def isInClass (e : ClassEvent) : Bool := e.level == .element || e.level == .preamble

def isInMethod (e : ClassEvent) : Bool := e.level == .element || e.level == .method

def isBoundary (e : ClassEvent) : Bool := e.level == .member || e.level == .done

end ClassEvent

def methodCodes : List ClassEvent → List (List CodeEvent)
  | [] => []
  | .method _ :: rest => Element.code (rest.takeWhile fun e => !e.isBoundary) :: methodCodes rest
  | _ :: rest => methodCodes rest

theorem takeWhile_append_of_head? {α : Type} {p : α → Bool} {ys : List α} (h : ∀ y ∈ ys.head?, p y = false) (xs : List α) :
    (xs ++ ys).takeWhile p = xs.takeWhile p := by
  induction xs with
  | nil =>
    cases ys with
    | nil => rfl
    | cons y ys => simp [h y rfl]
  | cons x xs ih => simp only [cons_append, takeWhile_cons, ih]

theorem methodCodes_append {ys : List ClassEvent} (h : ∀ e ∈ ys.head?, e.isBoundary = true) (xs : List ClassEvent) :
    methodCodes (xs ++ ys) = methodCodes xs ++ methodCodes ys := by
  induction xs with
  | nil => rfl
  | cons x xs ih =>
    have ht : (xs ++ ys).takeWhile (fun e => !e.isBoundary) = xs.takeWhile fun e => !e.isBoundary :=
      takeWhile_append_of_head? (fun y hy => by simp [h y hy]) xs
    cases x with
    | method header => simp only [cons_append, methodCodes, ht, ih]
    | _ => exact ih

theorem methodCodes_eq_nil {es : List ClassEvent} (h : ∀ e ∈ es, ∀ header, e ≠ .method header) : methodCodes es = [] := by
  induction es with
  | nil => rfl
  | cons e es ih =>
    have ih := ih fun e he => h e (by simp [he])
    cases e with
    | method header => exact absurd rfl (h _ (by simp) header)
    | _ => exact ih

theorem methodCodes_method {es : List ClassEvent} (h : ∀ e ∈ es, e.isBoundary = false) (header : MethodHeader) :
    methodCodes (.method header :: es) = [Element.code es] := by
  rw [methodCodes, methodCodes_eq_nil, takeWhile_eq_self_iff.2 fun e he => by simp [h e he]]
  rintro _ he header rfl
  cases h _ he

theorem code_append {head : List ClassEvent} (h : ∀ e ∈ head, e.isCode = false) (code : List CodeEvent) :
    Element.code (head ++ code.map .code) = code := by
  have hh : Element.code head = [] := filterMap_eq_nil_iff.2 fun e he => by
    have := h e he
    cases e <;> first | rfl | cases this
  rw [Element.code] at hh ⊢
  rw [filterMap_append, hh, filterMap_map]
  exact filterMap_some

/-- The events of a class by element. -/
structure Elements where
  header : ClassHeader
  events : List ClassEvent
  fields : List (FieldHeader × List ClassEvent)
  methods : List (MethodHeader × List ClassEvent)

namespace Elements

def flatten (s : Elements) : List ClassEvent :=
  .header s.header :: (s.events ++ s.fields.flatMap (fun f => .field f.1 :: f.2)
    ++ s.methods.flatMap (fun m => .method m.1 :: m.2) ++ [.done])

/-- Each event stands in an element that can have it. -/
structure Proper (s : Elements) : Prop where
  events : ∀ e ∈ s.events, e.isInClass = true
  fields : ∀ f ∈ s.fields, ∀ e ∈ f.2, e.level = .element
  methods : ∀ m ∈ s.methods, ∀ e ∈ m.2, e.isInMethod = true

/-- Only code mentions labels. -/
structure LabelsInCode (s : Elements) : Prop where
  events : ∀ e ∈ s.events, e.labels = []
  fields : ∀ f ∈ s.fields, ∀ e ∈ f.2, e.labels = []
  methods : ∀ m ∈ s.methods, ∀ e ∈ m.2, e.isCode = false → e.labels = []

theorem methodCodes_flatten {s : Elements} (h : s.Proper) :
    methodCodes s.flatten = s.methods.map fun m => Element.code m.2 := by
  have hhead : ∀ e ∈ .header s.header :: (s.events ++ s.fields.flatMap fun f => .field f.1 :: f.2),
      ∀ header, e ≠ .method header := by
    simp only [forall_mem_cons, forall_mem_append, forall_mem_flatMap]
    refine ⟨by simp, fun e he header hm => ?_, fun f hf => ⟨by simp, fun e he header hm => ?_⟩⟩
    · have := h.events e he
      rw [hm] at this
      cases this
    · have := h.fields f hf e he
      rw [hm] at this
      cases this
  have hmethods : ∀ ms : List (MethodHeader × List ClassEvent), (∀ m ∈ ms, ∀ e ∈ m.2, e.isInMethod = true) →
      methodCodes (ms.flatMap (fun m => .method m.1 :: m.2) ++ [.done]) = ms.map fun m => Element.code m.2 := by
    intro ms
    induction ms with
    | nil => exact fun _ => rfl
    | cons m ms ih =>
      intro hms
      rw [forall_mem_cons] at hms
      have hb : ∀ e ∈ m.2, e.isBoundary = false := by
        intro e he
        have hi := hms.1 e he
        cases e <;> first | rfl | cases hi
      rw [flatMap_cons, append_assoc, methodCodes_append, methodCodes_method hb, ih hms.2]
      · rfl
      · cases ms <;> simp [ClassEvent.isBoundary, ClassEvent.level]
  rw [flatten, append_assoc, ← cons_append, methodCodes_append, methodCodes_eq_nil hhead, hmethods _ h.methods,
    nil_append]
  cases s.methods <;> simp [ClassEvent.isBoundary, ClassEvent.level]

/-! ## Elements are determined by their events -/

theorem append_inj_of_boundary {xs xs' ys ys' : List ClassEvent} (hx : ∀ e ∈ xs, e.isBoundary = false)
    (hx' : ∀ e ∈ xs', e.isBoundary = false) (hy : ∀ e ∈ ys.head?, e.isBoundary = true)
    (hy' : ∀ e ∈ ys'.head?, e.isBoundary = true) (h : xs ++ ys = xs' ++ ys') : xs = xs' ∧ ys = ys' := by
  have hcut : ∀ {xs ys : List ClassEvent}, (∀ e ∈ xs, e.isBoundary = false) → (∀ e ∈ ys.head?, e.isBoundary = true) →
      (xs ++ ys).takeWhile (fun e => !e.isBoundary) = xs := fun hx hy => by
    rw [takeWhile_append_of_head? fun e he => by simp [hy e he], takeWhile_eq_self_iff.2 fun e he => by simp [hx e he]]
  have hxs := congrArg (List.takeWhile fun e => !e.isBoundary) h
  rw [hcut hx hy, hcut hx' hy'] at hxs
  obtain rfl := hxs
  exact ⟨rfl, append_cancel_left h⟩

def memberEvents {α : Type} (member : α → ClassEvent) (ms : List (α × List ClassEvent)) : List ClassEvent :=
  ms.flatMap fun m => member m.1 :: m.2

theorem memberEvents_inj {α : Type} {member : α → ClassEvent} (hi : Function.Injective member)
    (hb : ∀ a, (member a).isBoundary = true) {ms ms' : List (α × List ClassEvent)} {ys ys' : List ClassEvent}
    (hm : ∀ m ∈ ms, ∀ e ∈ m.2, e.isBoundary = false) (hm' : ∀ m ∈ ms', ∀ e ∈ m.2, e.isBoundary = false)
    (hy : ∀ e ∈ ys.head?, e.isBoundary = true ∧ ∀ a, e ≠ member a)
    (hy' : ∀ e ∈ ys'.head?, e.isBoundary = true ∧ ∀ a, e ≠ member a)
    (h : memberEvents member ms ++ ys = memberEvents member ms' ++ ys') :
    ms = ms' ∧ ys = ys' := by
  have hhead : ∀ {ms : List (α × List ClassEvent)} {ys : List ClassEvent},
      (∀ e ∈ ys.head?, e.isBoundary = true ∧ ∀ a, e ≠ member a) →
      ∀ e ∈ (memberEvents member ms ++ ys).head?, e.isBoundary = true := by
    intro ms ys hy
    cases ms with
    | nil => exact fun e he => (hy e he).1
    | cons m ms =>
      rintro _ ⟨⟩
      exact hb m.1
  induction ms generalizing ms' with
  | nil =>
    cases ms' with
    | nil => exact ⟨rfl, h⟩
    | cons m ms' =>
      obtain rfl : ys = _ := h
      exact absurd rfl ((hy _ rfl).2 m.1)
  | cons m ms ih =>
    cases ms' with
    | nil =>
      obtain rfl : _ = ys' := h
      exact absurd rfl ((hy' _ rfl).2 m.1)
    | cons m' ms' =>
      rw [forall_mem_cons] at hm hm'
      simp only [memberEvents, flatMap_cons, cons_append, append_assoc, List.cons.injEq] at h
      obtain ⟨hevents, hrest⟩ := append_inj_of_boundary hm.1 hm'.1 (hhead hy) (hhead hy') h.2
      obtain ⟨rfl, rfl⟩ := ih hm.2 hm'.2 hrest
      exact ⟨congrArg (· :: ms) (Prod.ext (hi h.1) hevents), rfl⟩

/-- **Elements are determined by their events.** -/
theorem flatten_inj {s t : Elements} (hs : s.Proper) (ht : t.Proper) (h : s.flatten = t.flatten) : s = t := by
  have hfields : ∀ {s : Elements}, s.Proper → ∀ f ∈ s.fields, ∀ e ∈ f.2, e.isBoundary = false := by
    intro s hs f hf e he
    rw [ClassEvent.isBoundary, hs.fields f hf e he]
    rfl
  have hmethods : ∀ {s : Elements}, s.Proper → ∀ m ∈ s.methods, ∀ e ∈ m.2, e.isBoundary = false := by
    intro s hs m hm e he
    have hi := hs.methods m hm e he
    cases e <;> first | rfl | cases hi
  have hevents : ∀ {s : Elements}, s.Proper → ∀ e ∈ s.events, e.isBoundary = false := by
    intro s hs e he
    have hi := hs.events e he
    cases e <;> first | rfl | cases hi
  have hdone : ∀ ms : List (MethodHeader × List ClassEvent),
      ∀ e ∈ (memberEvents ClassEvent.method ms ++ [ClassEvent.done]).head?,
      e.isBoundary = true ∧ ∀ a, e ≠ .field a := by
    intro ms e he
    cases ms <;> cases he <;> exact ⟨rfl, fun _ h => nomatch h⟩
  have hmembers : ∀ s : Elements, ∀ e ∈ (memberEvents ClassEvent.field s.fields
      ++ (memberEvents ClassEvent.method s.methods ++ [ClassEvent.done])).head?, e.isBoundary = true := by
    intro s e he
    cases hf : s.fields with
    | nil =>
      rw [hf] at he
      exact (hdone s.methods e he).1
    | cons f fs =>
      rw [hf] at he
      cases he
      rfl
  obtain ⟨header, events, fields, methods⟩ := s
  obtain ⟨header', events', fields', methods'⟩ := t
  simp only [flatten, append_assoc, List.cons.injEq, ClassEvent.header.injEq] at h
  obtain ⟨rfl, h⟩ := h
  obtain ⟨rfl, hm⟩ := append_inj_of_boundary (hevents hs) (hevents ht) (hmembers ⟨header, events, fields, methods⟩)
    (hmembers ⟨header, events', fields', methods'⟩) h
  obtain ⟨rfl, hm'⟩ := memberEvents_inj (fun _ _ h => ClassEvent.field.inj h) (fun _ => rfl) (hfields hs) (hfields ht)
    (hdone methods) (hdone methods') hm
  have hlast : ∀ e ∈ [ClassEvent.done].head?, e.isBoundary = true ∧ ∀ a, e ≠ .method a := by
    rintro _ ⟨⟩
    exact ⟨rfl, fun _ h => nomatch h⟩
  obtain ⟨rfl, -⟩ := memberEvents_inj (fun _ _ h => ClassEvent.method.inj h) (fun _ => rfl) (hmethods hs) (hmethods ht)
    hlast hlast hm'
  rfl

end Elements

end ClassDoc
