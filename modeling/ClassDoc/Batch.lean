/-
  Making many files at once.

  Every input is a task of its own. The tasks are told apart by their handles and can be finished in any order; a table
  says which input is waiting for which task. The outcomes are in the order of the inputs.
-/
import ClassDoc.Assembly
import Std.Data.HashMap
namespace ClassDoc.Batch

/-- What a failure means for the others. -/
inductive Policy where
  /-- Nothing: every input has an outcome. -/
  | collectAll
  /-- The tasks that are not finished yet are given up. -/
  | failFast
  deriving DecidableEq

/-- One input of a batch. -/
structure Task where
  /-- What it is known by once it is finished. -/
  handle : Nat
  /-- What the input is called, like its file name. -/
  id : String
  content : Bytes

/-- What became of the task at an index. -/
structure Outcome where
  index : Nat
  id : String
  result : Report Artifact

def Outcome.failed (o : Outcome) : Bool :=
  match o.result.value with
  | .ok _ => false
  | .error _ => true

/-- What a task brings about; a fault tells which input it was. -/
def Task.result (direction : Direction) (t : Task) : Report Artifact :=
  let r := direction.convert t.content
  { r with value := within (.input t.id) r.value }

/-- The number and the id of the input that waits for a task, by the handle of the task. -/
abbrev Waiting := Std.HashMap Nat (Nat × String)

/-- The tasks of inputs, which are given by an id and their content. The task of the input with the number `n` gets the
handle `handle n`. -/
def spawn (handle : Nat → Nat) (inputs : List (String × Bytes)) : List Task :=
  inputs.zipIdx.map fun ((id, content), index) => ⟨handle index, id, content⟩

def waiting (handle : Nat → Nat) (inputs : List (String × Bytes)) : Waiting :=
  .ofList (inputs.zipIdx.map fun ((id, _), index) => (handle index, index, id))

/-- The outcomes of tasks that are finished in this order, up to the first failure if that ends all; `found` has those
so far, the last one first. A task that no input waits for is left out. -/
def collect (direction : Direction) (policy : Policy) : Waiting → (found : List Outcome) → List Task → List Outcome
  | _, found, [] => found.reverse
  | waiting, found, t :: rest =>
    match waiting[t.handle]? with
    | none => collect direction policy waiting found rest
    | some (index, id) =>
      let o := ⟨index, id, t.result direction⟩
      if o.failed && policy = .failFast then (o :: found).reverse
      else collect direction policy (waiting.erase t.handle) (o :: found) rest

def finish (direction : Direction) (policy : Policy) (waiting : Waiting) (finished : List Task) : List Outcome :=
  (collect direction policy waiting [] finished).mergeSort fun a b => a.index ≤ b.index

def run (direction : Direction) (policy : Policy) (inputs : List (String × Bytes)) : List Outcome :=
  finish direction policy (waiting id inputs) (spawn id inputs)

def warnings (outcomes : List Outcome) : List Warning := outcomes.flatMap fun o => o.result.warnings

end ClassDoc.Batch
