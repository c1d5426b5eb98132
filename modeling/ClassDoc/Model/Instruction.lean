/-
  Instructions of models.

  An instruction of a model has operands, whose number and types depend on the opcode; an instruction of a class file
  has fields. Both say the same.
-/
import ClassDoc.Fault.Basic
namespace ClassDoc

/-! ## Constants -/

namespace Operand

def checkHandle (h : Handle) : Except Fault Handle :=
  if Handle.isKind h.kind then .ok h else .error (.violation (.handleKind h.kind))

mutual

def toConstant : Operand → Except Fault Constant
  | int v => .ok (.integer v)
  | float v => .ok (.float v)
  | long v => .ok (.long v)
  | double v => .ok (.double v)
  | string v => .ok (.string v)
  | classRef name => .ok (.classRef name)
  | methodType descriptor => .ok (.methodType descriptor)
  | handle h => do return .methodHandle (← checkHandle h)
  | dynamic name descriptor bootstrap arguments => do
    let bootstrap ← checkHandle bootstrap
    let arguments ← toConstants arguments
    return .dynamic name descriptor bootstrap arguments
  | none => fail (.unsupportedOperandType "none")
  | bool _ => fail (.unsupportedOperandType "bool")
  | byte _ => fail (.unsupportedOperandType "byte")
  | short _ => fail (.unsupportedOperandType "short")
  | char _ => fail (.unsupportedOperandType "char")
  | label _ => fail (.unsupportedOperandType "label")
  | array _ => fail (.unsupportedOperandType "array")

def toConstants : List Operand → Except Fault (List Constant)
  | [] => .ok []
  | v :: rest => do
    let c ← v.toConstant
    let cs ← toConstants rest
    return c :: cs

end

mutual

def ofConstant : Constant → Operand
  | .integer v => int v
  | .float v => float v
  | .long v => long v
  | .double v => double v
  | .string v => string v
  | .classRef name => classRef name
  | .methodType descriptor => methodType descriptor
  | .methodHandle h => handle h
  | .dynamic name descriptor bootstrap arguments => dynamic name descriptor bootstrap (ofConstants arguments)

def ofConstants : List Constant → List Operand
  | [] => []
  | c :: rest => ofConstant c :: ofConstants rest

end

end Operand

namespace Instruction

/-! ## To class files -/

def shapeFault {α : Type} (i : Instruction) (expected : String) : Except Fault α :=
  .error (.violation (.operandShape i.mnemonic expected (i.operands.map Operand.tag)))

def inRange (i : Instruction) (what : String) (low high : Int) (v : Int32) : Except Fault Int :=
  if low ≤ v.toInt ∧ v.toInt ≤ high then .ok v.toInt
  else .error (.violation (.operandRange i.mnemonic what v))

def variableOf (i : Instruction) (v : Int32) : Except Fault UInt16 := do
  return UInt16.ofNat (← inRange i "local variable" 0 65535 v).toNat

def nameOf (t : JavaText) : Except Fault String :=
  match t.toString? with
  | some s => .ok s
  | none => .error (.violation (.loneSurrogate t))

def labelOf (i : Instruction) : Operand → Except Fault Label
  | .label l => .ok l
  | other => fail (.malformedControlFlow (.notLabel i.mnemonic other.tag))

def labelsOf (i : Instruction) : Operand → Except Fault (List Label)
  | .array values => values.mapM (labelOf i)
  | other => fail (.malformedControlFlow (.notLabels i.mnemonic other.tag))

def keyOf : Operand → Except Fault Int32
  | .int key => .ok key
  | other => .error (.violation (.lookupKey other.tag))

def tableLength (low high : Int32) : Int := high.toInt - low.toInt + 1

def toInsn (i : Instruction) : Except Fault (Insn Label) :=
  let op := i.opcode
  if (Opcode.name? op).isNone then .error (.violation (.unknownOpcode op)) else
  match Opcode.shape op, i.operands with
  | .byte, [.int v] => do return .int op (Int32.ofInt (← inRange i "operand" (-128) 127 v))
  | .short, [.int v] => do return .int op (Int32.ofInt (← inRange i "operand" (-32768) 32767 v))
  | .elementType, [.int v] => do return .int op (Int32.ofInt (← inRange i "type" 4 11 v))
  | .byte, _ | .short, _ | .elementType, _ => shapeFault i "[int]"
  | .variable, [.int v] => do return .var op (← variableOf i v)
  | .variable, _ => shapeFault i "[int]"
  | .increment, [.int index, .int increment] => do
    let index ← variableOf i index
    let increment ← inRange i "increment" (-32768) 32767 increment
    return .iinc index (Int16.ofInt increment)
  | .increment, _ => shapeFault i "[int, int]"
  | .constant, [constant] => do return .ldc (← constant.toConstant)
  | .constant, _ => shapeFault i "one constant"
  | .type, [.classRef name] => .ok (.type op name)
  | .type, _ => shapeFault i "[class]"
  | .field, [.classRef owner, .string name, .string descriptor] => do
    let name ← nameOf name
    let descriptor ← nameOf descriptor
    return .field op owner name descriptor
  | .field, _ => shapeFault i "[class, string, string]"
  | .method, [.classRef owner, .string name, .string descriptor, .bool interface] => do
    let name ← nameOf name
    let descriptor ← nameOf descriptor
    return .method op owner name descriptor interface
  | .method, _ => shapeFault i "[class, string, string, bool]"
  | .callSite, [.string name, .string descriptor, .handle bootstrap, .array arguments] => do
    let name ← nameOf name
    let descriptor ← nameOf descriptor
    let bootstrap ← Operand.checkHandle bootstrap
    let arguments ← Operand.toConstants arguments
    return .invokeDynamic name descriptor bootstrap arguments
  | .callSite, _ => shapeFault i "[string, string, handle, array]"
  | .jump, [target] => do return .jump op (← labelOf i target)
  | .jump, operands => fail (.malformedControlFlow (.targetCount i.mnemonic operands.length))
  | .table, [.int low, .int high, default, targets] => do
    let targets ← labelsOf i targets
    if low > high ∨ tableLength low high ≠ targets.length then
      .error (.violation (.tableSize low high targets.length))
    else
      let default ← labelOf i default
      return .tableSwitch low high default targets
  | .table, _ => shapeFault i "[int, int, label, array]"
  | .lookup, [default, .array keys, targets] => do
    let targets ← labelsOf i targets
    if keys.length ≠ targets.length then .error (.violation (.lookupSize keys.length targets.length))
    else
      let keys ← keys.mapM keyOf
      let default ← labelOf i default
      return .lookupSwitch default (keys.zip targets)
  | .lookup, _ => shapeFault i "[label, array, array]"
  | .dimensions, [.classRef descriptor, .int dimensions] => do
    let dimensions ← inRange i "dimensions" 0 255 dimensions
    if dimensions = 0 then .error (.violation .noDimension)
    else return .multiANewArray descriptor (UInt8.ofNat dimensions.toNat)
  | .dimensions, _ => shapeFault i "[class, int]"
  | .plain, [] => .ok (.simple op)
  | .plain, _ => shapeFault i "no operands"

/-! ## From class files -/

def textOperand (s : String) : Operand := .string (.ofString s)

def indexOperand (index : UInt16) : Operand := .int index.toUInt32.toInt32

def operandsOf : Insn Label → List Operand
  | .simple _ => []
  | .int _ v => [.int v]
  | .var _ index => [indexOperand index]
  | .type _ name => [.classRef name]
  | .field _ owner name descriptor => [.classRef owner, textOperand name, textOperand descriptor]
  | .method _ owner name descriptor interface =>
    [.classRef owner, textOperand name, textOperand descriptor, .bool interface]
  | .invokeDynamic name descriptor bootstrap arguments =>
    [textOperand name, textOperand descriptor, .handle bootstrap, .array (Operand.ofConstants arguments)]
  | .jump _ target => [.label target]
  | .ldc constant => [Operand.ofConstant constant]
  | .iinc index increment => [indexOperand index, .int increment.toInt32]
  | .tableSwitch low high default targets =>
    [.int low, .int high, .label default, .array (targets.map Operand.label)]
  | .lookupSwitch default pairs =>
    [.label default, .array (pairs.map fun p => .int p.1), .array (pairs.map fun p => .label p.2)]
  | .multiANewArray descriptor dimensions => [.classRef descriptor, .int dimensions.toUInt32.toInt32]

def ofInsn (insn : Insn Label) : Instruction := ⟨insn.opcode, operandsOf insn⟩

/-! ## Targets -/

def targetOf (i : Instruction) : Operand → Except Fault Label
  | .label l => .ok l
  | other => fail (.malformedControlFlow (.notLabel i.mnemonic (literal other)))

def targetsOf (i : Instruction) : Operand → Except Fault (List Label)
  | .array values => values.mapM (targetOf i)
  | other => fail (.malformedControlFlow (.notLabelTargets i.mnemonic (literal other)))

def switchTargets (i : Instruction) (default targets : Operand) : Except Fault (List Label) := do
  let default ← targetOf i default
  let targets ← targetsOf i targets
  return default :: targets

def targets (i : Instruction) : Except Fault (List Label) :=
  match Opcode.shape i.opcode, i.operands with
  | .jump, [target] => do return [← targetOf i target]
  | .jump, operands => fail (.malformedControlFlow (.targetCount i.mnemonic operands.length))
  | .table, [_, _, default, targets] => switchTargets i default targets
  | .table, operands => fail (.malformedControlFlow (.tableOperands operands.length))
  | .lookup, [default, _, targets] => switchTargets i default targets
  | .lookup, operands => fail (.malformedControlFlow (.lookupOperands operands.length))
  | _, _ => .ok []

def listing (i : Instruction) : String :=
  String.intercalate " " (i.mnemonic :: i.operands.map Operand.toListing)

end Instruction

end ClassDoc
