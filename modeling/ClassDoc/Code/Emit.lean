/-
  Instructions as bytes.
-/
import ClassDoc.Bytes
import ClassDoc.Code.Depth
import ClassDoc.Code.Layout
namespace ClassDoc

def rejected {α : Type} (problem : WriteProblem) : Except Fault α := .error (.write problem)

def emitInt (op : Opcode) (v : Int32) : Except Fault Bytes :=
  if op == Opcode.bipush then
    if -128 ≤ v && v ≤ 127 then .ok [op, v.toInt8.toUInt8] else rejected (.pushRange "bipush" v)
  else if op == Opcode.sipush then
    if -32768 ≤ v && v ≤ 32767 then .ok (op :: Bytes.u2 v.toInt16.toUInt16) else rejected (.pushRange "sipush" v)
  else if op == Opcode.newarray then
    if 4 ≤ v && v ≤ 11 then .ok [op, v.toInt8.toUInt8] else rejected (.elementType v)
  else rejected (.notInt op)

def compactOpcode (op : Opcode) (index : UInt16) : Opcode :=
  if op ≤ Opcode.aload then Opcode.iload0 + (op - Opcode.iload) * 4 + index.toUInt8
  else Opcode.istore0 + (op - Opcode.istore) * 4 + index.toUInt8

def emitVar (op : Opcode) (index : UInt16) : Except Fault Bytes :=
  if !Opcode.isVariable op then rejected (.notVariable op)
  else if hasCompactForm op index then .ok [compactOpcode op index]
  else if index < 256 then .ok [op, index.toUInt8]
  else .ok (Opcode.wide :: op :: Bytes.u2 index)

def emitIinc (index : UInt16) (increment : Int16) : Bytes :=
  if fitsIinc index increment then [Opcode.iinc, index.toUInt8, increment.toInt8.toUInt8]
  else Opcode.wide :: Opcode.iinc :: (Bytes.u2 index ++ Bytes.u2 increment.toUInt16)

def emitLdc (constant : Constant) : PoolM Bytes := do
  let index ← Pool.constant constant
  return if constant.isWide then Opcode.ldc2W :: Bytes.u2 index
    else if index < 256 then [Opcode.ldc, index.toUInt8]
    else Opcode.ldcW :: Bytes.u2 index

def emitMethod (op : Opcode) (owner name descriptor : String) (interface : Bool) : PoolM Bytes := do
  if !Opcode.isMethod op then rejected (.notMethod op)
  else
    let isInterface := op == Opcode.invokeinterface
    let index ← Pool.methodRef owner name descriptor (interface || isInterface)
    let count : Bytes ←
      if isInterface then do
        let slots ← ofDescriptor (Descriptor.argumentSlots descriptor)
        let count ← Bytes.count1 (slots + 1)
        pure (count ++ [0])
      else pure []
    return op :: (Bytes.u2 index ++ count)

def emitDistance (layout : Layout) (pc : Nat) (l : Label) : Except Fault Bytes := do
  return Bytes.u4 (Int32.ofInt (← layout.distance pc l)).toUInt32

/-- The bytes of a jump. A conditional jump that has to be wide becomes the opposite one over a wide `goto`. -/
def emitJump (layout : Layout) (pc : Nat) (wide : Bool) (op : Opcode) (target : Label) : Except Fault Bytes := do
  if !Opcode.isJump op then rejected (.notJump op)
  else if !wide then
    return op :: Bytes.u2 (Int16.ofInt (← layout.distance pc target)).toUInt16
  else if op == Opcode.goto || op == Opcode.jsr then
    return (if op == Opcode.goto then Opcode.gotoW else Opcode.jsrW) :: (← emitDistance layout pc target)
  else
    match Opcode.inverse? op with
    | none => rejected (.noInverse op)
    | some inverse =>
      let distance ← emitDistance layout (pc + 3) target
      return inverse :: (Bytes.u2 8 ++ Opcode.gotoW :: distance)

def emitTable (layout : Layout) (pc : Nat) (low high : Int32) (default : Label) (targets : List Label) :
    Except Fault Bytes := do
  if high < low || high.toInt - low.toInt + 1 ≠ targets.length then rejected (.tableSize low high targets.length)
  else
    let default ← emitDistance layout pc default
    let targets ← targets.mapM (emitDistance layout pc)
    return Opcode.tableswitch :: (List.replicate (switchPadding pc) 0 ++ default ++ Bytes.u4 low.toUInt32
      ++ Bytes.u4 high.toUInt32 ++ targets.flatten)

/-- The first key that is in a sorted list twice. -/
def duplicateKey? : List (Int32 × Label) → Option Int32
  | (key, _) :: (next, target) :: rest => if key = next then some key else duplicateKey? ((next, target) :: rest)
  | _ => none

def emitPair (layout : Layout) (pc : Nat) (pair : Int32 × Label) : Except Fault Bytes := do
  return Bytes.u4 pair.1.toUInt32 ++ (← emitDistance layout pc pair.2)

def emitLookup (layout : Layout) (pc : Nat) (default : Label) (pairs : List (Int32 × Label)) : Except Fault Bytes := do
  let pairs := pairs.mergeSort fun a b => a.1 ≤ b.1
  match duplicateKey? pairs with
  | some key => rejected (.duplicateKey key)
  | none =>
    let default ← emitDistance layout pc default
    let count ← Bytes.count4 pairs.length
    let pairs ← pairs.mapM (emitPair layout pc)
    return Opcode.lookupswitch :: (List.replicate (switchPadding pc) 0 ++ default ++ count ++ pairs.flatten)

def Insn.emit (layout : Layout) (pc : Nat) (wide : Bool) : Insn Label → PoolM Bytes
  | simple op => if (simpleEffect op).isSome then pure [op] else rejected (.notSimple op)
  | int op v => emitInt op v
  | var op index => emitVar op index
  | type op name =>
    if Opcode.isType op then do return op :: (Bytes.u2 (← Pool.classRef name)) else rejected (.notType op)
  | field op owner name descriptor =>
    if Opcode.isField op then do return op :: (Bytes.u2 (← Pool.fieldRef owner name descriptor))
    else rejected (.notField op)
  | method op owner name descriptor interface => emitMethod op owner name descriptor interface
  | invokeDynamic name descriptor bootstrap arguments => do
    let index ← Pool.invokeDynamic name descriptor bootstrap arguments
    return Opcode.invokedynamic :: (Bytes.u2 index ++ Bytes.u2 0)
  | jump op target => emitJump layout pc wide op target
  | ldc constant => emitLdc constant
  | iinc index increment => pure (emitIinc index increment)
  | tableSwitch low high default targets => emitTable layout pc low high default targets
  | lookupSwitch default pairs => emitLookup layout pc default pairs
  | multiANewArray descriptor dimensions =>
    if dimensions = 0 then rejected (.noDimension descriptor)
    else do return Opcode.multianewarray :: (Bytes.u2 (← Pool.classRef descriptor) ++ [dimensions])

/-- The bytes of an item. Only instructions have some. -/
def Placed.emit (layout : Layout) (x : Placed) : PoolM Bytes :=
  match x.item with
  | .insn i => inPlace (.writingInsn i x.offset) (i.emit layout x.offset x.wide)
  | _ => pure []

def Layout.emit (layout : Layout) : PoolM Bytes := do
  return (← layout.items.mapM (Placed.emit layout)).flatten

end ClassDoc
