/-
  Reading the code attribute of a method.
-/
import ClassDoc.ClassFile.Trace
import ClassDoc.Code.Decode
import ClassDoc.Code.Raw
namespace ClassDoc

/-- Reads bytes and gives events. -/
abbrev ReadM := TraceM Input

def take {α : Type} (x : Decode α) : ReadM α := fun (input, items) =>
  match x input with
  | .ok (a, input) => .ok a (input, items)
  | .error f => .error f (input, items)

/-! ## Attributes -/

/-- Reads attributes, given by their name and length; `found` holds those so far in reverse. -/
def readAttributesFrom {α : Type} (pool : PoolView) (part : String → Nat → ReadM (Option α)) :
    (count : Nat) → (found : List α) → ReadM (List α)
  | 0, found => pure found.reverse
  | count + 1, found => do
    let name ← take (decodeIndex pool.utf8)
    let length ← take Decode.u4
    match ← part name length.toNat with
    | some a => readAttributesFrom pool part count (a :: found)
    | none => readAttributesFrom pool part count found

/-- Reads attributes, their number first. Those for which there is no part are left out. -/
def readAttributes {α : Type} (pool : PoolView) (part : String → Nat → ReadM (Option α)) : ReadM (List α) := do
  readAttributesFrom pool part (← take Decode.u2).toNat []

def skipAttribute {α : Type} (w : Warning) (length : Nat) : ReadM (Option α) := do
  warn w
  take (Decode.skip length)
  return none

/-! ## Frames -/

def VerificationType.decode (pool : PoolView) (length : UInt16) : Decode (VerificationType UInt16) := do
  let tag ← Decode.u1
  match tag.toNat with
  | 0 => return .top
  | 1 => return .integer
  | 2 => return .float
  | 3 => return .double
  | 4 => return .long
  | 5 => return .null
  | 6 => return .uninitializedThis
  | 7 => return .object (← decodeIndex pool.classRef)
  | 8 =>
    let offset ← Decode.u2
    checkOffset length offset
    return .uninitialized offset
  | _ => Decode.problem (.verificationType tag)

def Frame.decode (pool : PoolView) (length : UInt16) : Decode (UInt16 × Frame UInt16) := do
  let tag ← Decode.u1
  let type := VerificationType.decode pool length
  if tag < 64 then return (tag.toUInt16, ⟨.same, [], []⟩)
  else if tag < 128 then
    let item ← type
    return ((tag - 64).toUInt16, ⟨.sameLocals1StackItem, [], [item]⟩)
  else if tag < 247 then Decode.problem (.frameType tag)
  else
    let delta ← Decode.u2
    if tag = 247 then
      let item ← type
      return (delta, ⟨.sameLocals1StackItem, [], [item]⟩)
    else if tag < 251 then return (delta, ⟨.chop (251 - tag), [], []⟩)
    else if tag = 251 then return (delta, ⟨.same, [], []⟩)
    else if tag < 255 then
      let locals ← Decode.times (tag - 251).toNat type
      return (delta, ⟨.append, locals, []⟩)
    else
      let locals ← Decode.list type
      let stack ← Decode.list type
      return (delta, ⟨.full, locals, stack⟩)

/-- The offset of a frame with some distance from the one before. -/
def frameOffset (previous : Option UInt16) (delta : UInt16) : Except Fault UInt16 :=
  match previous with
  | none => .ok delta
  | some previous =>
    if previous.toNat + delta.toNat + 1 < 0x10000 then .ok (previous + delta + 1) else .error (.read .frameOffset)

/-- Reads frames with their offsets, the first one after a frame at `previous`; `found` holds those so far in reverse. -/
def decodeFramesFrom (pool : PoolView) (length : UInt16) : (count : Nat) → (previous : Option UInt16) →
    (found : List (UInt16 × Frame UInt16)) → Decode (List (UInt16 × Frame UInt16))
  | 0, _, found => pure found.reverse
  | count + 1, previous, found => do
    let (delta, frame) ← Frame.decode pool length
    let offset ← frameOffset previous delta
    decodeFramesFrom pool length count (some offset) ((offset, frame) :: found)

def decodeFrames (pool : PoolView) (length : UInt16) : Decode (List (UInt16 × Frame UInt16)) := do
  decodeFramesFrom pool length (← Decode.u2).toNat none []

/-! ## Other tables -/

def decodeLines (length : UInt16) : Decode (List (UInt16 × UInt16)) := do
  let lines ← Decode.list (decodePair Prod.mk)
  lines.forM fun line => checkOffset length line.1
  return lines

def decodeVariable (pool : PoolView) : Decode RawVariable := do
  let start ← Decode.u2
  let size ← Decode.u2
  let stop ← rangeEnd start size
  let name ← decodeIndex pool.utf8
  let descriptor ← decodeIndex pool.utf8
  let index ← Decode.u2
  return ⟨start, stop, name, descriptor, index⟩

def decodeVariables (pool : PoolView) (length : UInt16) : Decode (List RawVariable) := do
  let locals ← Decode.list (decodeVariable pool)
  locals.forM fun v => do
    checkOffset length v.start
    checkOffset length v.stop
  return locals

def decodeVariableSignature (pool : PoolView) : Decode (VariableKey × String) := do
  let start ← Decode.u2
  let size ← Decode.u2
  let name ← decodeIndex pool.utf8
  let signature ← decodeIndex pool.utf8
  let index ← Decode.u2
  return ((start, size, index, name), signature)

def decodeTryCatch (pool : PoolView) (length : UInt16) : Decode RawTryCatch := do
  let start ← Decode.u2
  let stop ← Decode.u2
  let handler ← Decode.u2
  let catchType ← decodeIndex (PoolView.optional pool.classRef)
  checkOffset length start
  checkOffset length stop
  checkOffset length handler
  return ⟨start, stop, handler, catchType⟩

/-! ## Code -/

/-- What an attribute of a code says. -/
inductive CodePart where
  | frames (l : List (UInt16 × Frame UInt16))
  | lines (l : List (UInt16 × UInt16))
  | locals (l : List RawVariable)
  | signatures (l : List (VariableKey × String))
  | types (visible : Bool) (l : List <| TypeAnnotation UInt16)

def readCodePart (pool : PoolView) (codeLength : UInt16) (name : String) (length : Nat) : ReadM (Option CodePart) := do
  if name = Attribute.stackMapTableName then return some (.frames (← take (decodeFrames pool codeLength)))
  else if name = Attribute.lineNumberTableName then return some (.lines (← take (decodeLines codeLength)))
  else if name = Attribute.localVariableTableName then
    return some (.locals (← take (decodeVariables pool codeLength)))
  else if name = Attribute.localVariableTypeTableName then
    return some (.signatures (← take (Decode.list (decodeVariableSignature pool))))
  else if name = Attribute.typeAnnotationsName true then
    return some (.types true (← take (decodeTypes pool (some codeLength))))
  else if name = Attribute.typeAnnotationsName false then
    return some (.types false (← take (decodeTypes pool (some codeLength))))
  else skipAttribute (.codeAttribute name) length

def RawCode.ofParts (maxStack maxLocals length : UInt16) (insns : List (UInt16 × Insn UInt16))
    (tryCatches : List RawTryCatch) (parts : List CodePart) : RawCode where
  maxStack
  maxLocals
  length
  insns
  tryCatches
  frames := parts.flatMap fun | .frames l => l | _ => []
  lines := parts.flatMap fun | .lines l => l | _ => []
  locals := parts.flatMap fun | .locals l => l | _ => []
  signatures := parts.flatMap fun | .signatures l => l | _ => []
  typeAnnotations := parts.flatMap fun | .types visible l => l.map fun a => (visible, a) | _ => []

/-- Reads the code of a method, with positions in place of labels. -/
def readRawCode (pool : PoolView) : ReadM RawCode := do
  let maxStack ← take Decode.u2
  let maxLocals ← take Decode.u2
  let length ← take Decode.u4
  if length = 0 ∨ length ≥ 0x10000 then throw (.read (.codeLength length))
  else
    let bytes ← take (Decode.bytes length.toNat)
    let length := length.toUInt16
    let insns ← decodeInsns pool bytes
    let tryCatches ← take (Decode.list (decodeTryCatch pool length))
    let parts ← readAttributes pool (readCodePart pool length)
    return RawCode.ofParts maxStack maxLocals length insns tryCatches parts

/-- Gives the events of the code of a method. -/
def readCode (pool : PoolView) : ReadM Unit := do
  let raw ← readRawCode pool
  let events ← raw.events
  events.forM fun e => emit (.code e)

end ClassDoc
