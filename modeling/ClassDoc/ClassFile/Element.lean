/-
  The events of one element: a class, a field or a method.

  Each function here picks one thing out of the events of an element, in order. Where an element has only one of
  something, the last event counts.
-/
import ClassDoc.Event
namespace ClassDoc.Element

/-! ## Any element -/

def signature (events : List ClassEvent) : Option String :=
  (events.filterMap fun | .signature s => some s | _ => none).getLast?

def deprecated (events : List ClassEvent) : Bool := events.any fun | .deprecated => true | _ => false

def synthetic (events : List ClassEvent) : Bool := events.any fun | .synthetic => true | _ => false

def annotations (events : List ClassEvent) : List (Bool × Annotation) :=
  events.filterMap fun | .annotate visible a => some (visible, a) | _ => none

def typeAnnotations (events : List ClassEvent) : List (Bool × TypeAnnotation Label) :=
  events.filterMap fun | .annotateType visible a => some (visible, a) | _ => none

/-! ## Classes -/

def source (events : List ClassEvent) : Option String × Option String :=
  (events.filterMap fun | .source file debug => some (file, debug) | _ => none).getLast?.getD (none, none)

def enclosingMethod (events : List ClassEvent) : Option (String × Option String × Option String) :=
  (events.filterMap fun | .enclosingMethod owner name d => some (owner, name, d) | _ => none).getLast?

def nestHost (events : List ClassEvent) : Option String :=
  (events.filterMap fun | .nestHost name => some name | _ => none).getLast?

def nestMembers (events : List ClassEvent) : List String :=
  events.filterMap fun | .nestMember name => some name | _ => none

def permittedSubclasses (events : List ClassEvent) : List String :=
  events.filterMap fun | .permittedSubclass name => some name | _ => none

def innerClasses (events : List ClassEvent) : List InnerClass :=
  events.filterMap fun | .innerClass inner => some inner | _ => none

def record (events : List ClassEvent) : Option (List RecordComponent) :=
  (events.filterMap fun | .record components => some components | _ => none).getLast?

def module (events : List ClassEvent) : Option ModuleInfo :=
  (events.filterMap fun | .module m => some m | _ => none).getLast?

/-! ## Methods -/

def parameters (events : List ClassEvent) : List (Option String × UInt16) :=
  events.filterMap fun | .parameter name access => some (name, access) | _ => none

/-- The number of parameters that can have annotations with a visibility, if it is given. -/
def annotableParameters (visible : Bool) (events : List ClassEvent) : Option UInt8 :=
  (events.filterMap fun
    | .annotableParameterCount count v => if v == visible then some count else none
    | _ => none).getLast?

def parameterAnnotations (visible : Bool) (events : List ClassEvent) : List (UInt8 × Annotation) :=
  events.filterMap fun
    | .annotateParameter parameter v a => if v == visible then some (parameter, a) else none
    | _ => none

def annotationDefault (events : List ClassEvent) : Option ElementValue :=
  (events.filterMap fun | .annotationDefault value => some value | _ => none).getLast?

def code (events : List ClassEvent) : List CodeEvent :=
  events.filterMap fun | .code e => some e | _ => none

end ClassDoc.Element
