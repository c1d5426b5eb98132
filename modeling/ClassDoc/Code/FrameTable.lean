/-
  Stack map frames as bytes.

  A frame is given with its distance from the frame before. For frames that change little, small distances are part of
  the first byte.
-/
import ClassDoc.Attribute.Basic
import ClassDoc.Code.Layout
namespace ClassDoc

def maxShortDelta : UInt16 := 63

def VerificationType.encode (layout : Layout) : VerificationType Label → PoolM Bytes
  | top => pure [0]
  | integer => pure [1]
  | float => pure [2]
  | double => pure [3]
  | long => pure [4]
  | null => pure [5]
  | uninitializedThis => pure [6]
  | object name => do return 7 :: (Bytes.u2 (← Pool.classRef name))
  | uninitialized label => do return 8 :: (Bytes.u2 (← layout.offset label))

def encodeTypes (layout : Layout) (types : List (VerificationType Label)) : PoolM Bytes := do
  return (← types.mapM (VerificationType.encode layout)).flatten

/-- The first bytes of a frame: with a small distance `short` plus the distance, else `extended` and the distance. -/
def frameStart (short extended : UInt8) (delta : UInt16) : Bytes :=
  if delta ≤ maxShortDelta then [short + delta.toUInt8] else extended :: Bytes.u2 delta

def Frame.encode (layout : Layout) (delta : UInt16) (frame : Frame Label) : PoolM Bytes :=
  match frame.kind with
  | .same => pure (frameStart 0 251 delta)
  | .sameLocals1StackItem =>
    match frame.stack with
    | [item] => do return frameStart 64 247 delta ++ (← item.encode layout)
    | stack => throw (.write (.stackItemFrame stack.length))
  | .chop count =>
    if 1 ≤ count && count ≤ 3 then pure ((251 - count) :: Bytes.u2 delta) else throw (.write (.chopFrame count))
  | .append =>
    let count := frame.locals.length
    if 1 ≤ count && count ≤ 3 then do
      return (251 + UInt8.ofNat count) :: (Bytes.u2 delta ++ (← encodeTypes layout frame.locals))
    else throw (.write (.appendFrame count))
  | .full => do
    let localCount ← Bytes.count2 frame.locals.length
    let locals ← encodeTypes layout frame.locals
    let stackCount ← Bytes.count2 frame.stack.length
    let stack ← encodeTypes layout frame.stack
    return 255 :: (Bytes.u2 delta ++ localCount ++ locals ++ stackCount ++ stack)

def Layout.frames (layout : Layout) : List (Nat × Frame Label) :=
  layout.items.filterMap fun x => match x.item with
    | .frame f => some (x.offset, f)
    | _ => none

/-- The distance of a frame from the one before. The first one counts from the start, the others from behind the one
before. -/
def frameDelta (previous : Option Nat) (offset : Nat) : Except Fault Nat :=
  match previous with
  | none => .ok offset
  | some previous => if previous < offset then .ok (offset - previous - 1) else .error (.write (.secondFrame offset))

/-- The bytes of frames after one at `previous`, if there is one; `done` holds those so far in reverse. -/
def encodeFrames (layout : Layout) (previous : Option Nat) (done : List Bytes) : List (Nat × Frame Label) →
    PoolM (List Bytes)
  | [] => pure done.reverse
  | (offset, frame) :: rest => do
    if offset ≥ layout.length then throw (.write .frameAtEnd)
    else
      let delta ← frameDelta previous offset
      let bytes ← frame.encode layout (UInt16.ofNat delta)
      encodeFrames layout (some offset) (bytes :: done) rest

def encodeFrameTable (layout : Layout) : PoolM Bytes := do
  let count ← Bytes.count2 layout.frames.length
  let frames ← encodeFrames layout none [] layout.frames
  return count ++ frames.flatten

end ClassDoc
