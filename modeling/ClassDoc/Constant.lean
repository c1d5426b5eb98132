/-
  Loadable constants.

  A constant is a number, a text, a class, a method type, a method handle, or is computed by a bootstrap method
  from other constants.
-/
import ClassDoc.Literal
namespace ClassDoc

/-- A method handle: how a field or method is used, and which one. -/
structure Handle where
  /-- The reference kind, from 1 to 9. -/
  kind : UInt8
  owner : String
  name : String
  descriptor : String
  interface : Bool
  deriving DecidableEq, Inhabited

/-- The reference kinds that read or write a field. -/
def Handle.isFieldKind (kind : UInt8) : Bool := 1 ≤ kind && kind ≤ 4

def Handle.isKind (kind : UInt8) : Bool := 1 ≤ kind && kind ≤ 9

/-- A constant that can be loaded. -/
inductive Constant where
  | integer (v : Int32)
  | float (v : Single)
  | long (v : Int64)
  | double (v : Double)
  | string (v : JavaText)
  | classRef (name : String)
  | methodType (descriptor : String)
  | methodHandle (handle : Handle)
  /-- What a bootstrap method computes from the arguments. -/
  | dynamic (name descriptor : String) (bootstrap : Handle) (arguments : List Constant)
  deriving Inhabited

/-- The constant takes two slots on the stack. -/
def Constant.isWide : Constant → Bool
  | long _ | double _ => true
  | dynamic _ descriptor _ _ => descriptor == "J" || descriptor == "D"
  | _ => false

instance : Literal Handle where
  literal h := Literal.record "Handle" [("kind", literal h.kind), ("owner", literal h.owner), ("name", literal h.name),
    ("descriptor", literal h.descriptor), ("interface", literal h.interface)]

mutual

def Constant.toLiteral : Constant → String
  | integer v => Literal.tagged "Integer" [literal v]
  | float v => Literal.tagged "Float" [literal v]
  | long v => Literal.tagged "Long" [literal v]
  | double v => Literal.tagged "Double" [literal v]
  | string v => Literal.tagged "String" [literal v]
  | classRef name => Literal.tagged "Class" [literal name]
  | methodType descriptor => Literal.tagged "MethodType" [literal descriptor]
  | methodHandle handle => Literal.tagged "MethodHandle" [literal handle]
  | dynamic name descriptor bootstrap arguments =>
    Literal.tagged "Dynamic" [Literal.record "ConstantDynamic" [("name", literal name),
      ("descriptor", literal descriptor), ("bootstrap", literal bootstrap),
      ("arguments", Literal.list (Constant.toLiterals arguments))]]

def Constant.toLiterals : List Constant → List String
  | [] => []
  | c :: rest => c.toLiteral :: Constant.toLiterals rest

end

instance : Literal Constant := ⟨Constant.toLiteral⟩

end ClassDoc
