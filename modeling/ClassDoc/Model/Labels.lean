/-
  The labels of a method.

  Entries define labels; jumps, switches, try-catches, frames, line numbers, local variables and type annotations refer
  to them.
-/
import ClassDoc.Model.Instruction
import Std.Data.HashSet
namespace ClassDoc

/-- Checks elements in order, and that no key comes up twice; `seen` has the keys so far. -/
def eachOnce {α κ : Type} [BEq κ] [Hashable κ] (key : α → κ) (check : α → Except Fault Unit) (twice : α → Fault) :
    (seen : Std.HashSet κ) → List α → Except Fault Unit
  | _, [] => .ok ()
  | seen, a :: rest =>
    match check a with
    | .error f => .error f
    | .ok () => if seen.contains (key a) then .error (twice a) else eachOnce key check twice (seen.insert (key a)) rest

namespace MethodEntry

def defined? : MethodEntry → Option Label
  | label l => some l
  | _ => none

def references : MethodEntry → Except Fault (List (Label × Usage))
  | instruction i => do return (← i.targets).map fun l => (l, .instruction i.mnemonic)
  | label _ => .ok []
  | tryCatch t => .ok [(t.start, .tryStart), (t.stop, .tryEnd), (t.handler, .handler)]
  | frame f => .ok (f.labels.map fun l => (l, .frame))
  | line number l => .ok [(l, .line number)]

end MethodEntry

namespace Model

def variableReferences (v : LocalVariable) : List (Label × Usage) :=
  [(v.start, .localVariable v.name), (v.stop, .localVariable v.name)]

def TypeAnnotation.references (a : TypeAnnotation) : List (Label × Usage) :=
  a.target.labels.map fun l => (l, .annotatedType a.base.descriptor)

namespace Method

def definedTwice (l : Label) : Fault := { cause := .malformedControlFlow (.definedTwice l) }

def definitions (m : Method) : Except Fault (List Label) := do
  let labels := m.entries.filterMap MethodEntry.defined?
  eachOnce id (fun _ => .ok ()) definedTwice {} labels
  return labels

/-- The labels that a method refers to: its entries in order, then its local variables, then its type annotations. -/
def references (m : Method) : Except Fault (List (Label × Usage)) := do
  let code ← m.entries.mapM MethodEntry.references
  return code.flatten ++ m.localVariables.flatMap variableReferences ++ m.typeAnnotations.flatMap (·.references)

def undefined? (m : Method) : Except Fault (Option (Label × Usage)) := do
  let defined := Std.HashSet.ofList (← m.definitions)
  return (← m.references).find? fun (l, _) => !defined.contains l

def checkLabels (m : Method) : Except Fault Unit := do
  match ← m.undefined? with
  | some (l, usage) => fail (.malformedControlFlow (.undefined usage l))
  | none => .ok ()

end Method

end Model

end ClassDoc
