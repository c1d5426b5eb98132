/-
  Reading instructions.

  Targets are kept as offsets into the code. Every encoding of an instruction is read into its normal form.
-/
import ClassDoc.Attribute.Decode
import ClassDoc.Code.Depth
import ClassDoc.Code.Layout
namespace ClassDoc

/-! ## Targets -/

/-- Reads the target of a jump, which stands at `pc`, with an offset of 16 bits. -/
def decodeShortTarget (pc : UInt16) : Decode UInt16 := do
  let branch ← Decode.inside (.branch "i16" pc) Decode.i2
  let target := (pc.toNat : Int) + branch.toInt
  if 0 ≤ target && target < 0x10000 then return UInt16.ofNat target.toNat
  else Decode.problem (.shortBranch branch pc)

def decodeLongTarget (pc : UInt16) : Decode UInt16 := do
  let branch ← Decode.inside (.branch "i32" pc) Decode.i4
  let target := (pc.toNat : Int) + branch.toInt
  if target < 0 || target ≥ 0x100000000 then Decode.problem (.longBranch branch pc)
  else if target < 0x10000 then return UInt16.ofNat target.toNat
  else Decode.problem .farTarget

/-! ## Instructions -/

def decodeTable (pc : UInt16) : Decode (Insn UInt16) := do
  Decode.skip (switchPadding pc.toNat)
  let default ← decodeLongTarget pc
  let low ← Decode.i4
  let high ← Decode.i4
  if high < low then Decode.problem (.tableBounds low high)
  else
    let targets ← Decode.times (high.toInt - low.toInt + 1).toNat (decodeLongTarget pc)
    return .tableSwitch low high default targets

def decodeLookup (pc : UInt16) : Decode (Insn UInt16) := do
  Decode.skip (switchPadding pc.toNat)
  let default ← decodeLongTarget pc
  let count ← Decode.i4
  if count < 0 then Decode.problem (.pairCount count)
  else
    let pairs ← Decode.times count.toInt.toNat (do
      let key ← Decode.i4
      let target ← decodeLongTarget pc
      return (key, target))
    return .lookupSwitch default pairs

/-- Reads an instruction with a wide operand after the first opcode. -/
def decodeWide : Decode (Insn UInt16) := do
  let op ← Decode.u1
  if Opcode.isVariable op then return .var op (← Decode.u2)
  else if op == Opcode.iinc then
    let index ← Decode.u2
    let increment ← Decode.i2
    return .iinc index increment
  else Decode.problem (.wideOpcode op)

def decodeMethod (pool : PoolView) (op : Opcode) : Decode (Insn UInt16) := do
  let member ← decodeIndex pool.memberRef
  if op == Opcode.invokeinterface then
    let _ ← Decode.u1
    let _ ← Decode.u1
  return .method op member.owner member.name member.descriptor member.interface

def decodeCallSite (pool : PoolView) : Decode (Insn UInt16) := do
  let (name, descriptor, handle, arguments) ← decodeIndex pool.invokeDynamic
  let _ ← Decode.u2
  return .invokeDynamic name descriptor handle arguments

def compactVar (op first normal : Opcode) : Insn UInt16 :=
  .var (normal + (op - first) / 4) ((op - first) % 4).toUInt16

/-- Reads an instruction that stands at `pc` after its opcode. -/
def Insn.decodeOperands (pool : PoolView) (pc : UInt16) (op : Opcode) : Decode (Insn UInt16) := do
  if (simpleEffect op).isSome then return .simple op
  else if op == Opcode.bipush then return .int op (← Decode.i1).toInt32
  else if op == Opcode.sipush then return .int op (← Decode.i2).toInt32
  else if op == Opcode.newarray then return .int op (← Decode.u1).toUInt32.toInt32
  else if op == Opcode.ldc then return .ldc (← pool.constant (← Decode.u1).toUInt16)
  else if op == Opcode.ldcW || op == Opcode.ldc2W then return .ldc (← decodeIndex pool.constant)
  else if Opcode.isVariable op then return .var op (← Decode.u1).toUInt16
  else if Opcode.within op Opcode.iload0 Opcode.aload3 then return compactVar op Opcode.iload0 Opcode.iload
  else if Opcode.within op Opcode.istore0 Opcode.astore3 then return compactVar op Opcode.istore0 Opcode.istore
  else if op == Opcode.iinc then
    let index ← Decode.u1
    let increment ← Decode.i1
    return .iinc index.toUInt16 increment.toInt16
  else if Opcode.isJump op then return .jump op (← decodeShortTarget pc)
  else if op == Opcode.gotoW then return .jump Opcode.goto (← decodeLongTarget pc)
  else if op == Opcode.jsrW then return .jump Opcode.jsr (← decodeLongTarget pc)
  else if op == Opcode.tableswitch then decodeTable pc
  else if op == Opcode.lookupswitch then decodeLookup pc
  else if Opcode.isField op then
    let member ← decodeIndex pool.memberRef
    return .field op member.owner member.name member.descriptor
  else if Opcode.isMethod op then decodeMethod pool op
  else if op == Opcode.invokedynamic then decodeCallSite pool
  else if Opcode.isType op then return .type op (← decodeIndex pool.classRef)
  else if op == Opcode.wide then decodeWide
  else if op == Opcode.multianewarray then
    let descriptor ← decodeIndex pool.classRef
    let dimensions ← Decode.u1
    return .multiANewArray descriptor dimensions
  else Decode.problem (.opcode op)

def Insn.decode (pool : PoolView) (pc : UInt16) : Decode (Insn UInt16) := do
  Insn.decodeOperands pool pc (← Decode.u1)

/-- Reads instructions up to the end of code of some length, each with its offset; `found` holds those so far in
reverse. An instruction is at least one byte long, so the length of the code is enough `fuel`. -/
def decodeInsnsFrom (pool : PoolView) (length : UInt16) : (fuel : Nat) → (found : List (UInt16 × Insn UInt16)) →
    Input → Except Fault (List (UInt16 × Insn UInt16))
  | 0, found, _ => .ok found.reverse
  | fuel + 1, found, input =>
    if input.rest.isEmpty then .ok found.reverse
    else
      let pc := UInt16.ofNat input.position
      match within (.offset pc) (Insn.decode pool pc input) with
      | .error f => .error f
      | .ok (insn, input) =>
        match insn.targets.forM (checkOffset length) with
        | .error f => .error f
        | .ok () => decodeInsnsFrom pool length fuel ((pc, insn) :: found) input

def decodeInsns (pool : PoolView) (code : Bytes) : Except Fault (List (UInt16 × Insn UInt16)) :=
  decodeInsnsFrom pool (UInt16.ofNat code.length) code.length [] { rest := code }

end ClassDoc
