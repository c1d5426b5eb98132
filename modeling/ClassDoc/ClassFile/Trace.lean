/-
  What reading a class file brings about, in order: events, and warnings about what is skipped.

  Whoever takes the events can fail at one of them; then nothing behind that event matters, not even a fault of the
  reading itself. Such a fault gets the places the event was read at.
-/
import ClassDoc.Fault.State
namespace ClassDoc

/-- What is left out of the result. -/
inductive Warning where
  | classAttribute (attr name : String)
  | fieldAttribute (attr name : String)
  | methodAttribute (attr name descriptor : String)
  | componentAttribute (attr name : String)
  | codeAttribute (attr : String)
  /-- The packages and the main class of a module that is not described. -/
  | moduleParts (name : String)
  deriving DecidableEq

def Warning.message : Warning → String
  | classAttribute attr name => s!"skipping unsupported attribute {literal attr} of class {literal name}"
  | fieldAttribute attr name => s!"skipping unsupported attribute {literal attr} of field {literal name}"
  | methodAttribute attr name descriptor =>
    s!"skipping unsupported attribute {literal attr} of method {literal name}{literal descriptor}"
  | componentAttribute attr name =>
    s!"skipping unsupported attribute {literal attr} of record component {literal name}"
  | codeAttribute attr => s!"skipping unsupported code attribute {literal attr}"
  | moduleParts name =>
    s!"skipping the module packages and main class of {literal name}, as it has no module attribute"

/-! ## Results with warnings -/

/-- A result with its warnings. -/
structure Report (α : Type) where
  value : Except Fault α
  warnings : List Warning := []

namespace Report

def of {α : Type} (value : Except Fault α) : Report α := { value }

def andThen {α β : Type} (r : Report α) (f : α → Report β) : Report β :=
  match r.value with
  | .ok a =>
    let next := f a
    { next with warnings := r.warnings ++ next.warnings }
  | .error e => ⟨.error e, r.warnings⟩

instance : Monad Report where
  pure a := ⟨.ok a, []⟩
  bind := andThen

instance : MonadLift (Except Fault) Report := ⟨of⟩

end Report

/-! ## Traces -/

/-- An event with the places it is in, or a warning. -/
inductive TraceItem where
  | event (places : List Place) (e : ClassEvent)
  | warning (w : Warning)

def TraceItem.inside (p : Place) : TraceItem → TraceItem
  | event places e => event (p :: places) e
  | warning w => warning w

def TraceItem.event? : TraceItem → Option ClassEvent
  | event _ e => some e
  | warning _ => none

def TraceItem.warning? : TraceItem → Option Warning
  | warning w => some w
  | event _ _ => none

/-- The items in order, and how it ended. -/
structure Trace where
  items : List TraceItem
  outcome : Except Fault Unit

namespace Trace

def events (trace : Trace) : Except Fault (List ClassEvent) := do
  trace.outcome
  return trace.items.filterMap TraceItem.event?

def warnings (trace : Trace) : List Warning := trace.items.filterMap TraceItem.warning?

def report (trace : Trace) : Report (List ClassEvent) := ⟨trace.events, trace.warnings⟩

/-- Gives events to somebody with a state, up to the first fault; `warned` holds the warnings so far in reverse. -/
def feedItems {σ : Type} (accept : ClassEvent → EStateM Fault σ Unit) (outcome : Except Fault Unit) :
    (state : σ) → (warned : List Warning) → List TraceItem → Report σ
  | state, warned, [] => ⟨outcome.map fun _ => state, warned.reverse⟩
  | state, warned, .warning w :: rest => feedItems accept outcome state (w :: warned) rest
  | state, warned, .event places e :: rest =>
    match accept e state with
    | .ok () state => feedItems accept outcome state warned rest
    | .error f _ => ⟨.error { f with places := places ++ f.places }, warned.reverse⟩

/-- Gives the events to somebody with a state: the state after the last event, if nothing fails. -/
def feed {σ : Type} (trace : Trace) (accept : ClassEvent → EStateM Fault σ Unit) (state : σ) : Report σ :=
  feedItems accept trace.outcome state [] trace.items

end Trace

/-! ## Making traces -/

/-- A computation that brings about items, the last one first. -/
abbrev TraceM (σ : Type) := EStateM Fault (σ × List TraceItem)

def emit {σ : Type} (e : ClassEvent) : TraceM σ Unit := modify fun (s, items) => (s, .event [] e :: items)

def warn {σ : Type} (w : Warning) : TraceM σ Unit := modify fun (s, items) => (s, .warning w :: items)

/-- Adds a place to the events and to the fault of a computation. -/
def tracedInside {σ α : Type} (p : Place) (x : TraceM σ α) : TraceM σ α := fun (s, items) =>
  match x (s, []) with
  | .ok a (s, inner) => .ok a (s, inner.map (TraceItem.inside p) ++ items)
  | .error f (s, inner) => .error (f.inside p) (s, inner.map (TraceItem.inside p) ++ items)

def traceOf {σ α : Type} (x : TraceM σ α) (s : σ) : Trace :=
  match x (s, []) with
  | .ok _ (_, items) => ⟨items.reverse, .ok ()⟩
  | .error f (_, items) => ⟨items.reverse, .error f⟩

end ClassDoc
