/-
  Instruction opcodes.

  Only the normal form of an instruction has a name; the compact and the wide forms of one (`iload_0`, `ldc_w`,
  `goto_w`, …) are a matter of encoding.
-/
namespace ClassDoc

/-- The first byte of an instruction. -/
abbrev Opcode := UInt8

namespace Opcode

/-! ## Opcodes with a role of their own -/

def nop : Opcode := 0x00
def bipush : Opcode := 0x10
def sipush : Opcode := 0x11
def ldc : Opcode := 0x12
def ldcW : Opcode := 0x13
def ldc2W : Opcode := 0x14
def iload : Opcode := 0x15
def lload : Opcode := 0x16
def fload : Opcode := 0x17
def dload : Opcode := 0x18
def aload : Opcode := 0x19
def iload0 : Opcode := 0x1a
def aload3 : Opcode := 0x2d
def istore : Opcode := 0x36
def lstore : Opcode := 0x37
def fstore : Opcode := 0x38
def dstore : Opcode := 0x39
def astore : Opcode := 0x3a
def istore0 : Opcode := 0x3b
def astore3 : Opcode := 0x4e
def iinc : Opcode := 0x84
def ifeq : Opcode := 0x99
def ifle : Opcode := 0x9e
def ifAcmpne : Opcode := 0xa6
def goto : Opcode := 0xa7
def jsr : Opcode := 0xa8
def ret : Opcode := 0xa9
def tableswitch : Opcode := 0xaa
def lookupswitch : Opcode := 0xab
def ireturn : Opcode := 0xac
def vreturn : Opcode := 0xb1
def getstatic : Opcode := 0xb2
def putstatic : Opcode := 0xb3
def getfield : Opcode := 0xb4
def putfield : Opcode := 0xb5
def invokevirtual : Opcode := 0xb6
def invokespecial : Opcode := 0xb7
def invokestatic : Opcode := 0xb8
def invokeinterface : Opcode := 0xb9
def invokedynamic : Opcode := 0xba
def newObject : Opcode := 0xbb
def newarray : Opcode := 0xbc
def anewarray : Opcode := 0xbd
def athrow : Opcode := 0xbf
def checkcast : Opcode := 0xc0
def instanceof : Opcode := 0xc1
def wide : Opcode := 0xc4
def multianewarray : Opcode := 0xc5
def ifnull : Opcode := 0xc6
def ifnonnull : Opcode := 0xc7
def gotoW : Opcode := 0xc8
def jsrW : Opcode := 0xc9

/-! ## Mnemonics -/

/-- The mnemonics of all opcodes in order, those of compact and wide forms included. -/
def mnemonics : Array String := #[
  "nop", "aconst_null", "iconst_m1", "iconst_0", "iconst_1", "iconst_2", "iconst_3", "iconst_4",
  "iconst_5", "lconst_0", "lconst_1", "fconst_0", "fconst_1", "fconst_2", "dconst_0", "dconst_1",
  "bipush", "sipush", "ldc", "ldc_w", "ldc2_w", "iload", "lload", "fload",
  "dload", "aload", "iload_0", "iload_1", "iload_2", "iload_3", "lload_0", "lload_1",
  "lload_2", "lload_3", "fload_0", "fload_1", "fload_2", "fload_3", "dload_0", "dload_1",
  "dload_2", "dload_3", "aload_0", "aload_1", "aload_2", "aload_3", "iaload", "laload",
  "faload", "daload", "aaload", "baload", "caload", "saload", "istore", "lstore",
  "fstore", "dstore", "astore", "istore_0", "istore_1", "istore_2", "istore_3", "lstore_0",
  "lstore_1", "lstore_2", "lstore_3", "fstore_0", "fstore_1", "fstore_2", "fstore_3", "dstore_0",
  "dstore_1", "dstore_2", "dstore_3", "astore_0", "astore_1", "astore_2", "astore_3", "iastore",
  "lastore", "fastore", "dastore", "aastore", "bastore", "castore", "sastore", "pop",
  "pop2", "dup", "dup_x1", "dup_x2", "dup2", "dup2_x1", "dup2_x2", "swap",
  "iadd", "ladd", "fadd", "dadd", "isub", "lsub", "fsub", "dsub",
  "imul", "lmul", "fmul", "dmul", "idiv", "ldiv", "fdiv", "ddiv",
  "irem", "lrem", "frem", "drem", "ineg", "lneg", "fneg", "dneg",
  "ishl", "lshl", "ishr", "lshr", "iushr", "lushr", "iand", "land",
  "ior", "lor", "ixor", "lxor", "iinc", "i2l", "i2f", "i2d",
  "l2i", "l2f", "l2d", "f2i", "f2l", "f2d", "d2i", "d2l",
  "d2f", "i2b", "i2c", "i2s", "lcmp", "fcmpl", "fcmpg", "dcmpl",
  "dcmpg", "ifeq", "ifne", "iflt", "ifge", "ifgt", "ifle", "if_icmpeq",
  "if_icmpne", "if_icmplt", "if_icmpge", "if_icmpgt", "if_icmple", "if_acmpeq", "if_acmpne", "goto",
  "jsr", "ret", "tableswitch", "lookupswitch", "ireturn", "lreturn", "freturn", "dreturn",
  "areturn", "return", "getstatic", "putstatic", "getfield", "putfield", "invokevirtual", "invokespecial",
  "invokestatic", "invokeinterface", "invokedynamic", "new", "newarray", "anewarray", "arraylength", "athrow",
  "checkcast", "instanceof", "monitorenter", "monitorexit", "wide", "multianewarray", "ifnull", "ifnonnull",
  "goto_w", "jsr_w" ]

def within (op low high : Opcode) : Bool := low ≤ op && op ≤ high

/-- The opcodes that only exist as another encoding of an instruction. -/
def isCompact (op : Opcode) : Bool :=
  op == ldcW || op == ldc2W || within op iload0 aload3 || within op istore0 astore3 || op == wide || op == gotoW
    || op == jsrW

def name? (op : Opcode) : Option String :=
  if isCompact op then none else mnemonics[op.toNat]?

def ofName? (name : String) : Option Opcode :=
  match mnemonics.findIdx? (· == name) with
  | some i => if isCompact (UInt8.ofNat i) then none else some (UInt8.ofNat i)
  | none => none

def mnemonic (op : Opcode) : String := (name? op).getD "<unknown>"

/-! ## Control -/

def isJump (op : Opcode) : Bool := within op ifeq jsr || op == ifnull || op == ifnonnull

/-- The conditional jump with the opposite condition. -/
def inverse? (op : Opcode) : Option Opcode :=
  if op == ifnull then some ifnonnull
  else if op == ifnonnull then some ifnull
  else if within op ifeq ifAcmpne then some (if (op - ifeq) % 2 == 0 then op + 1 else op - 1)
  else none

def isReturn (op : Opcode) : Bool := within op ireturn vreturn

/-- The instructions after which the next one is not run. -/
def endsBlock (op : Opcode) : Bool :=
  isReturn op || op == goto || op == athrow || op == ret || op == tableswitch || op == lookupswitch

/-! ## Operands -/

/-- Which operands an instruction has. -/
inductive Shape where
  | plain
  | byte
  | short
  /-- the code of a primitive element type -/
  | elementType
  | variable
  | increment
  | constant
  | type
  | field
  | method
  | callSite
  | jump
  | table
  | lookup
  /-- an array class and a number of dimensions -/
  | dimensions
  deriving DecidableEq

def isVariable (op : Opcode) : Bool := within op iload aload || within op istore astore || op == ret

def isType (op : Opcode) : Bool := op == newObject || op == anewarray || op == checkcast || op == instanceof

def isField (op : Opcode) : Bool := within op getstatic putfield

def isMethod (op : Opcode) : Bool := within op invokevirtual invokeinterface

def shape (op : Opcode) : Shape :=
  if op == bipush then .byte
  else if op == sipush then .short
  else if op == newarray then .elementType
  else if isVariable op then .variable
  else if op == iinc then .increment
  else if op == ldc then .constant
  else if isType op then .type
  else if isField op then .field
  else if isMethod op then .method
  else if op == invokedynamic then .callSite
  else if isJump op then .jump
  else if op == tableswitch then .table
  else if op == lookupswitch then .lookup
  else if op == multianewarray then .dimensions
  else .plain

end Opcode

end ClassDoc
