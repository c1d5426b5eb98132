/-
  Computations with a state that can fail, and keep the state when they do.
-/
import ClassDoc.Fault.Basic
namespace ClassDoc

/-- A computation without a state as one with a state, which it does not change. -/
instance {σ : Type} : MonadLift (Except Fault) (EStateM Fault σ) where
  monadLift
    | .ok a => fun s => .ok a s
    | .error f => fun s => .error f s

def inPlace {σ α : Type} (p : Place) (x : EStateM Fault σ α) : EStateM Fault σ α := fun s =>
  match x s with
  | .ok a s => .ok a s
  | .error f s => .error (f.inside p) s

/-- The result of a computation and the state after it. -/
def outcome {σ α : Type} (x : EStateM Fault σ α) (s : σ) : Except Fault α × σ :=
  match x s with
  | .ok a s => (.ok a, s)
  | .error f s => (.error f, s)

def result {σ α : Type} (x : EStateM Fault σ α) (s : σ) : Except Fault α := (outcome x s).1

end ClassDoc
