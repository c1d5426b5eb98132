/-
  Attributes: named parts of a class, a member, the code of a method or a component of a record.

  An attribute is its name, its length and its body. The name is put into the pool before the body is made.
-/
import ClassDoc.Bytes
import ClassDoc.Pool.Basic
namespace ClassDoc

/-- An attribute to write, with the index of its name. -/
structure Attribute where
  name : UInt16
  body : Bytes
  deriving DecidableEq, Inhabited

namespace Attribute

/-! ## Names -/

def annotationDefaultName : String := "AnnotationDefault"
def bootstrapMethodsName : String := "BootstrapMethods"
def codeName : String := "Code"
def constantValueName : String := "ConstantValue"
def deprecatedName : String := "Deprecated"
def enclosingMethodName : String := "EnclosingMethod"
def exceptionsName : String := "Exceptions"
def innerClassesName : String := "InnerClasses"
def lineNumberTableName : String := "LineNumberTable"
def localVariableTableName : String := "LocalVariableTable"
def localVariableTypeTableName : String := "LocalVariableTypeTable"
def methodParametersName : String := "MethodParameters"
def moduleName : String := "Module"
def moduleMainClassName : String := "ModuleMainClass"
def modulePackagesName : String := "ModulePackages"
def nestHostName : String := "NestHost"
def nestMembersName : String := "NestMembers"
def permittedSubclassesName : String := "PermittedSubclasses"
def recordName : String := "Record"
def signatureName : String := "Signature"
def sourceDebugName : String := "SourceDebugExtension"
def sourceFileName : String := "SourceFile"
def stackMapTableName : String := "StackMapTable"
def syntheticName : String := "Synthetic"

def annotationsName (visible : Bool) : String :=
  if visible then "RuntimeVisibleAnnotations" else "RuntimeInvisibleAnnotations"

def parameterAnnotationsName (visible : Bool) : String :=
  if visible then "RuntimeVisibleParameterAnnotations" else "RuntimeInvisibleParameterAnnotations"

def typeAnnotationsName (visible : Bool) : String :=
  if visible then "RuntimeVisibleTypeAnnotations" else "RuntimeInvisibleTypeAnnotations"

/-! ## Writing -/

def make (name : String) (body : PoolM Bytes) : PoolM Attribute := do
  let index ← Pool.utf8 name
  let body ← inPlace (.writingAttribute name) body
  return ⟨index, body⟩

def makeIf (condition : Bool) (name : String) (body : PoolM Bytes) : PoolM (List Attribute) :=
  if condition then do return [← make name body] else pure []

def makeFor {α : Type} (value : Option α) (name : String) (body : α → PoolM Bytes) : PoolM (List Attribute) :=
  match value with
  | some a => do return [← make name (body a)]
  | none => pure []

def encode (a : Attribute) : Except Fault Bytes := do
  let length ← Bytes.count4 a.body.length
  return Bytes.u2 a.name ++ length ++ a.body

def encodeAll (attributes : List Attribute) : Except Fault Bytes := do
  let count ← Bytes.count2 attributes.length
  let attributes ← attributes.mapM encode
  return count ++ attributes.flatten

end Attribute

/-! ## Lists -/

/-- The bytes of a list, its length first. The length has to fit before anything else is done. -/
def encodeList {α : Type} (element : α → PoolM Bytes) (xs : List α) : PoolM Bytes := do
  let count ← Bytes.count2 xs.length
  let elements ← xs.mapM element
  return count ++ elements.flatten

def indexBytes (put : PoolM UInt16) : PoolM Bytes := do return Bytes.u2 (← put)

end ClassDoc
