/-
  Entries of the constant pool.

  An entry holds a value, or refers to other entries by their index.
-/
import ClassDoc.Literal
namespace ClassDoc

/-- An entry of a constant pool. -/
inductive PoolEntry where
  | classRef (name : UInt16)
  | fieldRef (owner nameAndType : UInt16)
  | methodRef (owner nameAndType : UInt16)
  | interfaceMethodRef (owner nameAndType : UInt16)
  | string (text : UInt16)
  | integer (v : Int32)
  | float (v : Single)
  | long (v : Int64)
  | double (v : Double)
  | nameAndType (name descriptor : UInt16)
  | utf8 (text : JavaText)
  | methodHandle (kind : UInt8) (reference : UInt16)
  | methodType (descriptor : UInt16)
  | dynamic (bootstrap nameAndType : UInt16)
  | invokeDynamic (bootstrap nameAndType : UInt16)
  | module (name : UInt16)
  | package (name : UInt16)
  deriving DecidableEq, Hashable, Inhabited

/-- A bootstrap method: a handle and arguments, all as indices of entries. -/
structure BootstrapMethod where
  handle : UInt16
  arguments : List UInt16
  deriving DecidableEq, Hashable, Inhabited

namespace PoolEntry

/-- The entry takes two indices, of which only the first one is used. -/
def isWide : PoolEntry → Bool
  | long _ | double _ => true
  | _ => false

def slots (e : PoolEntry) : Nat := if e.isWide then 2 else 1

instance : Literal PoolEntry where
  literal
    | .classRef name => Literal.record "Class" [("name_index", literal name)]
    | .fieldRef owner nt =>
      Literal.record "FieldRef" [("class_index", literal owner), ("name_and_type_index", literal nt)]
    | .methodRef owner nt =>
      Literal.record "MethodRef" [("class_index", literal owner), ("name_and_type_index", literal nt)]
    | .interfaceMethodRef owner nt =>
      Literal.record "InterfaceMethodRef" [("class_index", literal owner), ("name_and_type_index", literal nt)]
    | .string text => Literal.record "String" [("string_index", literal text)]
    | .integer v => Literal.record "Integer" [("bytes", literal v)]
    | .float v => Literal.record "Float" [("bytes", literal v.bits)]
    | .long v => Literal.record "Long" [("bytes", literal v)]
    | .double v => Literal.record "Double" [("bytes", literal v.bits)]
    | .nameAndType name descriptor =>
      Literal.record "NameAndType" [("name_index", literal name), ("descriptor_index", literal descriptor)]
    | .utf8 text => Literal.record "Utf8" [("string", literal text)]
    | .methodHandle kind reference =>
      Literal.record "MethodHandle" [("reference_kind", literal kind), ("reference_index", literal reference)]
    | .methodType descriptor => Literal.record "MethodType" [("descriptor_index", literal descriptor)]
    | .dynamic bootstrap nt => Literal.record "Dynamic"
        [("bootstrap_method_attribute_index", literal bootstrap), ("name_and_type_index", literal nt)]
    | .invokeDynamic bootstrap nt => Literal.record "InvokeDynamic"
        [("bootstrap_method_attribute_index", literal bootstrap), ("name_and_type_index", literal nt)]
    | .module name => Literal.record "Module" [("name_index", literal name)]
    | .package name => Literal.record "Package" [("name_index", literal name)]

end PoolEntry

instance : Literal BootstrapMethod where
  literal b := Literal.record "BootstrapMethodWrite" [("handle_index", literal b.handle),
    ("arguments", literal b.arguments)]

end ClassDoc
