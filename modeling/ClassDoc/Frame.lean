/-
  Stack map frames.

  A frame gives the types of the local variables and of the stack at one instruction, or how they differ from the
  frame before.
-/
import ClassDoc.Literal
namespace ClassDoc

/-- The type of a local variable or stack item, with labels of the type `L`. -/
inductive VerificationType (L : Type) where
  | top
  | integer
  | float
  | double
  | long
  | null
  | uninitializedThis
  | object (name : String)
  /-- Created by the `new` instruction at the label. -/
  | uninitialized (label : L)
  deriving DecidableEq, Inhabited

/-- How a frame differs from the one before. -/
inductive FrameKind where
  | same
  | sameLocals1StackItem
  /-- The last locals are dropped, from one to three. -/
  | chop (count : UInt8)
  | append
  | full
  deriving DecidableEq, Inhabited

/-- The types of the variables and of the stack at a position. -/
structure Frame (L : Type) where
  kind : FrameKind
  locals : List (VerificationType L)
  stack : List (VerificationType L)
  deriving DecidableEq, Inhabited

variable {L M : Type}

def VerificationType.mapLabels {m : Type → Type} [Monad m] (f : L → m M) :
    VerificationType L → m (VerificationType M)
  | top => pure top
  | integer => pure integer
  | float => pure float
  | double => pure double
  | long => pure long
  | null => pure null
  | uninitializedThis => pure uninitializedThis
  | object name => pure (object name)
  | uninitialized label => do return uninitialized (← f label)

def Frame.mapLabels {m : Type → Type} [Monad m] (f : L → m M) (frame : Frame L) : m (Frame M) := do
  let locals ← frame.locals.mapM (VerificationType.mapLabels f)
  let stack ← frame.stack.mapM (VerificationType.mapLabels f)
  return ⟨frame.kind, locals, stack⟩

def VerificationType.labels : VerificationType L → List L
  | uninitialized label => [label]
  | _ => []

def Frame.labels (frame : Frame L) : List L :=
  frame.locals.flatMap VerificationType.labels ++ frame.stack.flatMap VerificationType.labels

/-- The lists of a frame are those its kind uses. -/
def Frame.wellFormed (frame : Frame L) : Bool :=
  match frame.kind with
  | .same => frame.locals.isEmpty && frame.stack.isEmpty
  | .sameLocals1StackItem => frame.locals.isEmpty && frame.stack.length == 1
  | .chop n => 1 ≤ n && n ≤ 3 && frame.locals.isEmpty && frame.stack.isEmpty
  | .append => 1 ≤ frame.locals.length && frame.locals.length ≤ 3 && frame.stack.isEmpty
  | .full => true

instance : Literal FrameKind where
  literal
    | .same => "Same"
    | .sameLocals1StackItem => "SameLocals1StackItem"
    | .chop n => Literal.tagged "Chop" [literal n]
    | .append => "Append"
    | .full => "Full"

instance [Literal L] : Literal (VerificationType L) where
  literal
    | .top => "Top"
    | .integer => "Integer"
    | .float => "Float"
    | .double => "Double"
    | .long => "Long"
    | .null => "Null"
    | .uninitializedThis => "UninitializedThis"
    | .object name => Literal.tagged "Object" [literal name]
    | .uninitialized label => Literal.tagged "Uninitialized" [literal label]

instance [Literal L] : Literal (Frame L) where
  literal f := Literal.record "Frame" [("kind", literal f.kind), ("locals", literal f.locals),
    ("stack", literal f.stack)]

end ClassDoc
