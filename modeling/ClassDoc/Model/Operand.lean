/-
  Typed values: operands of instructions, constants, and values of annotations.
-/
import ClassDoc.Constant
import ClassDoc.Label
namespace ClassDoc

/-- An operand with its tag. -/
inductive Operand where
  | none
  | bool (v : Bool)
  | byte (v : Int8)
  | short (v : Int16)
  | char (v : UInt16)
  | int (v : Int32)
  | long (v : Int64)
  | float (v : Single)
  | double (v : Double)
  | string (v : JavaText)
  /-- A class, by its internal name or an array descriptor. -/
  | classRef (name : String)
  | methodType (descriptor : String)
  | label (l : Label)
  | handle (h : Handle)
  | dynamic (name descriptor : String) (bootstrap : Handle) (arguments : List Operand)
  | array (values : List Operand)
  deriving Inhabited

namespace Operand

def tag : Operand → String
  | none => "none"
  | bool _ => "bool"
  | byte _ => "byte"
  | short _ => "short"
  | char _ => "char"
  | int _ => "int"
  | long _ => "long"
  | float _ => "float"
  | double _ => "double"
  | string _ => "string"
  | classRef _ => "class"
  | methodType _ => "method-type"
  | label _ => "label"
  | handle _ => "handle"
  | dynamic _ _ _ _ => "dynamic"
  | array _ => "array"

def labelLiteral (l : Label) : String := Literal.tagged "LabelId" [literal l.id]

mutual

def toLiteral : Operand → String
  | none => "None"
  | bool v => Literal.tagged "Bool" [literal v]
  | byte v => Literal.tagged "Byte" [literal v]
  | short v => Literal.tagged "Short" [literal v]
  | char v => Literal.tagged "Char" [literal v]
  | int v => Literal.tagged "Int" [literal v]
  | long v => Literal.tagged "Long" [literal v]
  | float v => Literal.tagged "Float" [literal v]
  | double v => Literal.tagged "Double" [literal v]
  | string v => Literal.tagged "String" [literal v]
  | classRef name => Literal.tagged "Class" [literal name]
  | methodType descriptor => Literal.tagged "MethodType" [literal descriptor]
  | label l => Literal.tagged "Label" [labelLiteral l]
  | handle h => Literal.tagged "Handle" [literal h]
  | dynamic name descriptor bootstrap arguments =>
    Literal.tagged "Dynamic" [Literal.record "Dynamic" [("name", literal name), ("descriptor", literal descriptor),
      ("bootstrap", literal bootstrap), ("arguments", Literal.list (toLiterals arguments))]]
  | array values => Literal.tagged "Array" [Literal.list (toLiterals values)]

def toLiterals : List Operand → List String
  | [] => []
  | v :: rest => v.toLiteral :: toLiterals rest

end

instance : Literal Operand := ⟨toLiteral⟩

def charListing (v : UInt16) : String :=
  if JavaText.isHigh v || JavaText.isLow v then "'\\u" ++ Hex.lower v.toNat ++ "'"
  else Quoted.char (Char.ofNat v.toNat)

mutual

def toListing : Operand → String
  | none => "none"
  | bool v => literal v
  | byte v => literal v
  | short v => literal v
  | char v => charListing v
  | int v => literal v
  | long v => literal v ++ "L"
  | float v => literal v ++ "f"
  | double v => literal v ++ "d"
  | string v => literal v
  | classRef name => name
  | methodType descriptor => descriptor
  | label l => l.text
  | handle h => literal h.kind ++ " " ++ h.owner ++ "." ++ h.name ++ h.descriptor
  | dynamic name descriptor bootstrap _ =>
    name ++ ":" ++ descriptor ++ " via " ++ bootstrap.owner ++ "." ++ bootstrap.name
  | array values => Literal.list (toListings values)

def toListings : List Operand → List String
  | [] => []
  | v :: rest => v.toListing :: toListings rest

end

end Operand

end ClassDoc
