/-
  Instructions in normal form.

  The type of labels is a parameter: symbolic labels in events, offsets while bytecode is read.
-/
import ClassDoc.Constant
import ClassDoc.Label
import ClassDoc.Opcode
namespace ClassDoc

/-- An instruction with its targets in `L`. -/
inductive Insn (L : Type) where
  /-- no operands -/
  | simple (op : Opcode)
  /-- `bipush`, `sipush`, `newarray` -/
  | int (op : Opcode) (v : Int32)
  /-- loads, stores and `ret` -/
  | var (op : Opcode) (index : UInt16)
  /-- `new`, `anewarray`, `checkcast`, `instanceof` -/
  | type (op : Opcode) (name : String)
  | field (op : Opcode) (owner name descriptor : String)
  | method (op : Opcode) (owner name descriptor : String) (interface : Bool)
  | invokeDynamic (name descriptor : String) (bootstrap : Handle) (arguments : List Constant)
  | jump (op : Opcode) (target : L)
  | ldc (constant : Constant)
  | iinc (index : UInt16) (increment : Int16)
  | tableSwitch (low high : Int32) (default : L) (targets : List L)
  | lookupSwitch (default : L) (pairs : List (Int32 × L))
  | multiANewArray (descriptor : String) (dimensions : UInt8)
  deriving Inhabited

namespace Insn

variable {L M : Type}

def opcode : Insn L → Opcode
  | simple op | int op _ | var op _ | type op _ | field op _ _ _ | method op _ _ _ _ | jump op _ => op
  | invokeDynamic _ _ _ _ => Opcode.invokedynamic
  | ldc _ => Opcode.ldc
  | iinc _ _ => Opcode.iinc
  | tableSwitch _ _ _ _ => Opcode.tableswitch
  | lookupSwitch _ _ => Opcode.lookupswitch
  | multiANewArray _ _ => Opcode.multianewarray

/-- The labels control can go to, the default of a switch first. -/
def targets : Insn L → List L
  | jump _ target => [target]
  | tableSwitch _ _ default targets => default :: targets
  | lookupSwitch default pairs => default :: pairs.map Prod.snd
  | _ => []

def mapLabels {m : Type → Type} [Monad m] (f : L → m M) : Insn L → m (Insn M)
  | simple op => pure (simple op)
  | int op v => pure (int op v)
  | var op index => pure (var op index)
  | type op name => pure (type op name)
  | field op owner name descriptor => pure (field op owner name descriptor)
  | method op owner name descriptor interface => pure (method op owner name descriptor interface)
  | invokeDynamic name descriptor bootstrap arguments => pure (invokeDynamic name descriptor bootstrap arguments)
  | jump op target => do return jump op (← f target)
  | ldc constant => pure (ldc constant)
  | iinc index increment => pure (iinc index increment)
  | tableSwitch low high default targets => do
    let default ← f default
    let targets ← targets.mapM f
    return tableSwitch low high default targets
  | lookupSwitch default pairs => do
    let default ← f default
    let pairs ← pairs.mapM fun (key, target) => do return (key, ← f target)
    return lookupSwitch default pairs
  | multiANewArray descriptor dimensions => pure (multiANewArray descriptor dimensions)

def toLiteral [Literal L] : Insn L → String
  | simple op => Literal.tagged "Simple" [literal op]
  | int op v => Literal.tagged "Int" [literal op, literal v]
  | var op index => Literal.tagged "Var" [literal op, literal index]
  | type op name => Literal.tagged "Type" [literal op, literal name]
  | field op owner name descriptor => Literal.record "Field" [("opcode", literal op), ("owner", literal owner),
      ("name", literal name), ("descriptor", literal descriptor)]
  | method op owner name descriptor interface => Literal.record "Method" [("opcode", literal op),
      ("owner", literal owner), ("name", literal name), ("descriptor", literal descriptor),
      ("interface", literal interface)]
  | invokeDynamic name descriptor bootstrap arguments => Literal.record "InvokeDynamic" [("name", literal name),
      ("descriptor", literal descriptor), ("bootstrap", literal bootstrap), ("arguments", literal arguments)]
  | jump op target => Literal.tagged "Jump" [literal op, literal target]
  | ldc constant => Literal.tagged "Ldc" [literal constant]
  | iinc index increment => Literal.record "Iinc" [("var", literal index), ("increment", literal increment)]
  | tableSwitch low high default targets => Literal.record "TableSwitch" [("low", literal low),
      ("high", literal high), ("default", literal default), ("labels", literal targets)]
  | lookupSwitch default pairs => Literal.record "LookupSwitch" [("default", literal default),
      ("pairs", literal pairs)]
  | multiANewArray descriptor dimensions => Literal.record "MultiANewArray" [("descriptor", literal descriptor),
      ("dimensions", literal dimensions)]

instance [Literal L] : Literal (Insn L) := ⟨toLiteral⟩

end Insn

end ClassDoc
