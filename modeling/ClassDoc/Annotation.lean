/-
  Annotations and type annotations of class files.
-/
import ClassDoc.Label
namespace ClassDoc

/-- The value of an element of an annotation. -/
inductive ElementValue where
  | byte (v : Int8)
  | char (v : UInt16)
  | double (v : Double)
  | float (v : Single)
  | int (v : Int32)
  | long (v : Int64)
  | short (v : Int16)
  | boolean (v : Bool)
  | string (v : JavaText)
  | enum (descriptor name : String)
  | classRef (descriptor : String)
  | nested (descriptor : String) (elements : List (String × ElementValue))
  | array (values : List ElementValue)
  deriving Inhabited

/-- An annotation of a class file. -/
structure Annotation where
  descriptor : String
  elements : List (String × ElementValue)
  deriving Inhabited

/-- Part of the range of a local variable, with labels of the type `L`. -/
structure LocalRange (L : Type) where
  start : L
  stop : L
  index : UInt16
  deriving DecidableEq, Inhabited

/-- What a type annotation is on. -/
inductive TypeTarget (L : Type) where
  | typeParameter (index : UInt8)
  | supertype (index : UInt16)
  | typeParameterBound (parameter bound : UInt8)
  | empty
  | formalParameter (index : UInt8)
  | throws (index : UInt16)
  | localVariable (ranges : List (LocalRange L))
  /-- The exception of a try-catch, by its number. -/
  | catch (index : UInt16)
  | offset (label : L)
  | typeArgument (label : L) (argument : UInt8)
  deriving DecidableEq, Inhabited

/-- A step into a type, as the class file has it. -/
structure PathStep where
  kind : UInt8
  argument : UInt8
  deriving DecidableEq, Inhabited

/-- An annotation of a type, or of a part of it. -/
structure TypeAnnotation (L : Type) where
  targetType : UInt8
  target : TypeTarget L
  path : List PathStep
  base : Annotation
  deriving Inhabited

variable {L M : Type}

def TypeTarget.mapLabels {m : Type → Type} [Monad m] (f : L → m M) : TypeTarget L → m (TypeTarget M)
  | typeParameter index => pure (typeParameter index)
  | supertype index => pure (supertype index)
  | typeParameterBound parameter bound => pure (typeParameterBound parameter bound)
  | empty => pure empty
  | formalParameter index => pure (formalParameter index)
  | throws index => pure (throws index)
  | localVariable ranges => do
    return localVariable (← ranges.mapM fun r => do
      let start ← f r.start
      let stop ← f r.stop
      return ⟨start, stop, r.index⟩)
  | .catch index => pure (.catch index)
  | offset label => do return offset (← f label)
  | typeArgument label argument => do return typeArgument (← f label) argument

def TypeTarget.labels : TypeTarget L → List L
  | localVariable ranges => ranges.flatMap fun r => [r.start, r.stop]
  | offset label | typeArgument label _ => [label]
  | _ => []

def TypeAnnotation.mapLabels {m : Type → Type} [Monad m] (f : L → m M) (a : TypeAnnotation L) :
    m <| TypeAnnotation M := do
  return ⟨a.targetType, ← a.target.mapLabels f, a.path, a.base⟩

/-! ## Kinds of targets -/

namespace TargetType

def classTypeParameter : UInt8 := 0x00
def methodTypeParameter : UInt8 := 0x01
def classExtends : UInt8 := 0x10
def classTypeParameterBound : UInt8 := 0x11
def methodTypeParameterBound : UInt8 := 0x12
def field : UInt8 := 0x13
def methodReturn : UInt8 := 0x14
def methodReceiver : UInt8 := 0x15
def methodFormalParameter : UInt8 := 0x16
def throws : UInt8 := 0x17
def localVariable : UInt8 := 0x40
def resourceVariable : UInt8 := 0x41
def exceptionParameter : UInt8 := 0x42
def instanceof : UInt8 := 0x43
def methodReference : UInt8 := 0x46
def cast : UInt8 := 0x47
def methodReferenceTypeArgument : UInt8 := 0x4B

def names : List (UInt8 × String) := [
  (0x00, "class-type-parameter"), (0x01, "method-type-parameter"), (0x10, "class-extends"),
  (0x11, "class-type-parameter-bound"), (0x12, "method-type-parameter-bound"), (0x13, "field"),
  (0x14, "method-return"), (0x15, "method-receiver"), (0x16, "method-formal-parameter"), (0x17, "throws"),
  (0x40, "local-variable"), (0x41, "resource-variable"), (0x42, "exception-parameter"), (0x43, "instanceof"),
  (0x44, "new"), (0x45, "constructor-reference"), (0x46, "method-reference"), (0x47, "cast"),
  (0x48, "constructor-invocation-type-argument"), (0x49, "method-invocation-type-argument"),
  (0x4A, "constructor-reference-type-argument"), (0x4B, "method-reference-type-argument") ]

def name? (t : UInt8) : Option String := (names.find? fun p => p.1 == t).map Prod.snd

def ofName? (name : String) : Option UInt8 := (names.find? fun p => p.2 == name).map Prod.fst

def isCode (t : UInt8) : Bool := localVariable ≤ t && t ≤ methodReferenceTypeArgument

/-- The form of the target that goes with a kind. -/
inductive Form where
  | typeParameter | supertype | typeParameterBound | empty | formalParameter | throws | localVariable | catch | offset
  | typeArgument
  deriving DecidableEq

def form? (t : UInt8) : Option Form :=
  if t == classTypeParameter || t == methodTypeParameter then some .typeParameter
  else if t == classExtends then some .supertype
  else if t == classTypeParameterBound || t == methodTypeParameterBound then some .typeParameterBound
  else if field ≤ t && t ≤ methodReceiver then some .empty
  else if t == methodFormalParameter then some .formalParameter
  else if t == throws then some .throws
  else if t == localVariable || t == resourceVariable then some .localVariable
  else if t == exceptionParameter then some .catch
  else if instanceof ≤ t && t ≤ methodReference then some .offset
  else if cast ≤ t && t ≤ methodReferenceTypeArgument then some .typeArgument
  else none

end TargetType

def TypeTarget.form : TypeTarget L → TargetType.Form
  | typeParameter _ => .typeParameter
  | supertype _ => .supertype
  | typeParameterBound _ _ => .typeParameterBound
  | empty => .empty
  | formalParameter _ => .formalParameter
  | throws _ => .throws
  | localVariable _ => .localVariable
  | .catch _ => .catch
  | offset _ => .offset
  | typeArgument _ _ => .typeArgument

def TypeTarget.fits (target : TypeTarget L) (t : UInt8) : Bool := TargetType.form? t == some target.form

/-! ## Texts in messages -/

mutual

def ElementValue.toLiteral : ElementValue → String
  | byte v => Literal.tagged "Byte" [literal v]
  | char v => Literal.tagged "Char" [literal v]
  | double v => Literal.tagged "Double" [literal v]
  | float v => Literal.tagged "Float" [literal v]
  | int v => Literal.tagged "Int" [literal v]
  | long v => Literal.tagged "Long" [literal v]
  | short v => Literal.tagged "Short" [literal v]
  | boolean v => Literal.tagged "Boolean" [literal v]
  | string v => Literal.tagged "String" [literal v]
  | enum descriptor name => Literal.record "Enum" [("descriptor", literal descriptor), ("name", literal name)]
  | classRef descriptor => Literal.tagged "Class" [literal descriptor]
  | nested descriptor elements => Literal.tagged "Annotation" [Literal.record "Annotation"
      [("descriptor", literal descriptor), ("elements", Literal.list (ElementValue.elementLiterals elements))]]
  | array values => Literal.tagged "Array" [Literal.list (ElementValue.literals values)]

def ElementValue.elementLiterals : List (String × ElementValue) → List String
  | [] => []
  | (name, value) :: rest =>
    ("(" ++ literal name ++ ", " ++ value.toLiteral ++ ")") :: ElementValue.elementLiterals rest

def ElementValue.literals : List ElementValue → List String
  | [] => []
  | value :: rest => value.toLiteral :: ElementValue.literals rest

end

instance : Literal ElementValue := ⟨ElementValue.toLiteral⟩

instance : Literal Annotation where
  literal a := Literal.record "Annotation" [("descriptor", literal a.descriptor), ("elements", literal a.elements)]

def TypeTarget.toLiteral (label : L → String) : TypeTarget L → String
  | typeParameter index => Literal.tagged "TypeParameter" [literal index]
  | supertype index => Literal.tagged "Supertype" [literal index]
  | typeParameterBound parameter bound =>
    Literal.record "TypeParameterBound" [("parameter", literal parameter), ("bound", literal bound)]
  | empty => "Empty"
  | formalParameter index => Literal.tagged "FormalParameter" [literal index]
  | throws index => Literal.tagged "Throws" [literal index]
  | localVariable ranges => Literal.tagged "LocalVariable" [Literal.list (ranges.map fun r =>
      Literal.record "LocalVariableRange" [("start", label r.start), ("end", label r.stop), ("index", literal r.index)])]
  | .catch index => Literal.tagged "Catch" [literal index]
  | offset l => Literal.tagged "Offset" [label l]
  | typeArgument l argument => Literal.record "TypeArgument" [("offset", label l), ("argument", literal argument)]

instance [Literal L] : Literal (TypeTarget L) := ⟨TypeTarget.toLiteral literal⟩

instance : Literal PathStep where
  literal s := Literal.record "TypePathStep" [("kind", literal s.kind), ("argument", literal s.argument)]

instance [Literal L] : Literal <| TypeAnnotation L where
  literal a := Literal.record "TypeAnnotation" [("target_type", literal a.targetType), ("target", literal a.target),
    ("path", literal a.path), ("annotation", literal a.base)]

end ClassDoc
