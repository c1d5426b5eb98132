/-
  Method bodies in documents: one node for each entry.
-/
import ClassDoc.Document.Attr
import ClassDoc.Model.Validate
namespace ClassDoc

/-! ## Frames -/

namespace VerificationType

def toNode : VerificationType Label → Node
  | top => .leaf "top" []
  | integer => .leaf "integer" []
  | float => .leaf "float" []
  | double => .leaf "double" []
  | long => .leaf "long" []
  | null => .leaf "null" []
  | uninitializedThis => .leaf "uninitialized-this" []
  | object name => .leaf "object" [Attr.ofClass "type" name]
  | uninitialized label => .leaf "uninitialized" [Attr.ofLabel "label" label]

def ofNode (parent node : Node) : Except Fault (VerificationType Label) :=
  match node.kind with
  | "top" => .ok top
  | "integer" => .ok integer
  | "float" => .ok float
  | "long" => .ok long
  | "double" => .ok double
  | "null" => .ok null
  | "uninitialized-this" => .ok uninitializedThis
  | "object" => do return object (← Attr.className node "type")
  | "uninitialized" => do return uninitialized (← Attr.label node "label")
  | _ => .error (node.unrecognized parent)

end VerificationType

namespace FrameKind

def text : FrameKind → String
  | same => "same"
  | sameLocals1StackItem => "same-locals-1-stack-item"
  | chop _ => "chop"
  | append => "append"
  | full => "full"

def attributes (kind : FrameKind) : List (String × String) :=
  ("kind", kind.text) :: (match kind with
    | chop count => [Attr.ofNumber "count" count.toNat]
    | _ => [])

def ofNode (node : Node) : Except Fault FrameKind := do
  match ← node.required "kind" with
  | "same" => return same
  | "same-locals-1-stack-item" => return sameLocals1StackItem
  | "chop" => return chop (← Attr.number8 node "count")
  | "append" => return append
  | "full" => return full
  | other => Value.malformed "frame kind" other .unknownFrameKind

end FrameKind

namespace Frame

def toNode (f : Frame Label) : Node where
  kind := "frame"
  attributes := f.kind.attributes
  children := [
    { kind := "locals", children := f.locals.map VerificationType.toNode },
    { kind := "stack", children := f.stack.map VerificationType.toNode } ]

/-- A child of a frame. -/
inductive Part where
  | locals (types : List (VerificationType Label))
  | stack (types : List (VerificationType Label))

def Part.locals? : Part → Option (List (VerificationType Label))
  | locals types => some types
  | stack _ => none

def Part.stack? : Part → Option (List (VerificationType Label))
  | stack types => some types
  | locals _ => none

def readPart (node : Node) (found : List Part) (child : Node) : Except Fault Part :=
  match child.kind with
  | "locals" => do
    ensure (!found.any fun p => p.locals?.isSome) (.repeatedList child.kind)
    return .locals (← child.elements.mapM (VerificationType.ofNode child))
  | "stack" => do
    ensure (!found.any fun p => p.stack?.isSome) (.repeatedList child.kind)
    return .stack (← child.elements.mapM (VerificationType.ofNode child))
  | _ => .error (child.unrecognized node)

def ofNode (node : Node) : Except Fault (Frame Label) := do
  let kind ← FrameKind.ofNode node
  let parts ← node.parts (readPart node)
  return ⟨kind, (parts.filterMap Part.locals?).flatten, (parts.filterMap Part.stack?).flatten⟩

end Frame

/-! ## Entries -/

namespace Instruction

def toNode (comments : Bool) (i : Instruction) : Node where
  kind := "instruction"
  attributes := [("opcode", i.mnemonic)]
  children := (if comments then [{ kind := "comment", text := some i.listing }] else []) ++ i.operands.map Value.toNode

def ofNode (node : Node) : Except Fault Instruction := do
  let mnemonic ← node.required "opcode"
  match Opcode.ofName? mnemonic with
  | some op => return ⟨op, ← Value.fromChildren node⟩
  | none => .error (.violation (.unknownMnemonic mnemonic))

end Instruction

namespace MethodEntry

def toNode (comments : Bool) : MethodEntry → Node
  | instruction i => i.toNode comments
  | label l => .leaf "label" [Attr.ofLabel "id" l]
  | tryCatch t => .leaf "try-catch" ([Attr.ofLabel "start" t.start, Attr.ofLabel "end" t.stop,
      Attr.ofLabel "handler" t.handler] ++ Attr.ofClass? "type" t.catchType)
  | frame f => f.toNode
  | line number l => .leaf "line" [Attr.ofNumber "number" number.toNat, Attr.ofLabel "label" l]

def ofNode (body node : Node) : Except Fault MethodEntry :=
  match node.kind with
  | "label" => do return label (← Attr.label node "id")
  | "instruction" => do return instruction (← Instruction.ofNode node)
  | "try-catch" => do
    let start ← Attr.label node "start"
    let stop ← Attr.label node "end"
    let handler ← Attr.label node "handler"
    let catchType ← Attr.className? node "type"
    return tryCatch ⟨start, stop, handler, catchType⟩
  | "frame" => do return frame (← Frame.ofNode node)
  | "line" => do
    let number ← Attr.number16 node "number"
    let l ← Attr.label node "label"
    return line number l
  | _ => .error (node.unrecognized body)

def ofBody (body : Node) : Except Fault (List MethodEntry) :=
  body.elements.zipIdx.mapM fun (node, index) => within (.inEntry index (literal node.kind)) (ofNode body node)

end MethodEntry

end ClassDoc
