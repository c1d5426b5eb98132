/-
  The code of a method in parts.

  The items are what has a position: labels, frames and instructions in order. Everything else refers to positions by
  labels.
-/
import ClassDoc.Event
namespace ClassDoc

/-- What stands in line in a code. -/
inductive Item where
  | label (l : Label)
  | frame (f : Frame Label)
  | insn (i : Insn Label)
  deriving Inhabited

def Item.label? : Item → Option Label
  | label l => some l
  | _ => none

def Item.insn? : Item → Option (Insn Label)
  | insn i => some i
  | _ => none

def Item.isFrame : Item → Bool
  | frame _ => true
  | _ => false

/-- The code of a method, as the events give it. -/
structure Body where
  items : List Item := []
  tryCatches : List TryCatch := []
  lineNumbers : List (UInt16 × Label) := []
  localVariables : List LocalVariable := []
  typeAnnotations : List (Bool × TypeAnnotation Label) := []
  maxs : Option (UInt16 × UInt16) := none
  deriving Inhabited

namespace Body

def item? : CodeEvent → Option Item
  | .label l => some (.label l)
  | .frame f => some (.frame f)
  | .insn i => some (.insn i)
  | _ => none

def tryCatch? : CodeEvent → Option TryCatch
  | .tryCatch t => some t
  | _ => none

def lineNumber? : CodeEvent → Option (UInt16 × Label)
  | .lineNumber line start => some (line, start)
  | _ => none

def localVariable? : CodeEvent → Option LocalVariable
  | .localVariable v => some v
  | _ => none

def annotatedType? : CodeEvent → Option (Bool × TypeAnnotation Label)
  | .annotateType visible a => some (visible, a)
  | _ => none

def maxs? : CodeEvent → Option (UInt16 × UInt16)
  | .maxs maxStack maxLocals => some (maxStack, maxLocals)
  | _ => none

/-- The parts of the events of a method. Of several maxima the last ones count. -/
def ofEvents (events : List CodeEvent) : Body where
  items := events.filterMap item?
  tryCatches := events.filterMap tryCatch?
  lineNumbers := events.filterMap lineNumber?
  localVariables := events.filterMap localVariable?
  typeAnnotations := events.filterMap annotatedType?
  maxs := (events.filterMap maxs?).getLast?

def handlers (body : Body) : List Label := body.tryCatches.map TryCatch.handler

end Body

end ClassDoc
