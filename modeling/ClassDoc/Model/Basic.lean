/-
  The model of a class: what a document says, as one value.

  A `ClassModel` is built from the events of a class file or from a document. The entries of a method are its code in
  order; labels are defined by entries and referred to from everywhere else in the method.
-/
import ClassDoc.Event
import ClassDoc.Model.Operand
namespace ClassDoc

/-- Who can see an annotation. -/
inductive Visibility where
  /-- Also the running program. -/
  | runtime
  | classFile
  deriving DecidableEq, Inhabited

/-- The value of a property of an annotation. -/
inductive AnnotationValue where
  | value (operand : Operand)
  | enum (descriptor name : String)
  | classRef (descriptor : String)
  | nested (descriptor : String) (properties : List (String × AnnotationValue))
  | array (values : List AnnotationValue)
  deriving Inhabited

/-- A step from a type to a part of it. -/
inductive TypePathStep where
  | array
  | nested
  | wildcard
  | typeArgument (index : UInt8)
  deriving DecidableEq, Inhabited

/-- The method or initializer a class is enclosed by. -/
structure EnclosingMethod where
  owner : String
  /-- The name and descriptor of the method, if it is one. -/
  method : Option (String × String)
  deriving DecidableEq, Inhabited

/-- An instruction as a document has it. -/
structure Instruction where
  opcode : Opcode
  operands : List Operand
  deriving Inhabited

def Instruction.mnemonic (i : Instruction) : String := i.opcode.mnemonic

/-- What stands in line in the body of a method. -/
inductive MethodEntry where
  | instruction (i : Instruction)
  | label (l : Label)
  | tryCatch (t : TryCatch)
  | frame (f : Frame Label)
  /-- The source line of what follows the label. -/
  | line (number : UInt16) (label : Label)
  deriving Inhabited

namespace Model

/-- An annotation. No two properties have the same name. -/
structure Annotation where
  descriptor : String
  visibility : Visibility
  properties : List (String × AnnotationValue)
  deriving Inhabited

/-- An annotation of a type, or of a part of it. -/
structure TypeAnnotation where
  targetType : UInt8
  target : TypeTarget Label
  path : List TypePathStep
  base : Annotation
  deriving Inhabited

/-- A component of a record. -/
structure RecordComponent where
  name : String
  descriptor : String
  signature : Option String
  annotations : List Annotation
  typeAnnotations : List TypeAnnotation
  deriving Inhabited

/-- A field as a document has it. -/
structure Field where
  name : String
  descriptor : String
  access : UInt16
  signature : Option String := none
  value : Option Operand := none
  deprecated : Bool := false
  synthetic : Bool := false
  annotations : List Annotation := []
  typeAnnotations : List TypeAnnotation := []
  deriving Inhabited

/-- What is known of a parameter besides its type. -/
structure Parameter where
  name : Option String := none
  access : UInt16 := 0
  annotations : List Annotation := []
  deriving Inhabited

/-- A method as a document has it. -/
structure Method where
  name : String
  descriptor : String
  access : UInt16
  signature : Option String := none
  exceptions : List String := []
  /-- Either empty, or one for each argument of the descriptor. -/
  parameters : List Parameter := []
  /-- How many of the last parameters can carry annotations visible at run time, if not all. -/
  visibleAnnotable : Option UInt8 := none
  /-- The same for the annotations of the class file only. -/
  invisibleAnnotable : Option UInt8 := none
  deprecated : Bool := false
  synthetic : Bool := false
  annotations : List Annotation := []
  /-- Those on the signature, and those in the body. -/
  typeAnnotations : List TypeAnnotation := []
  annotationDefault : Option AnnotationValue := none
  /-- The body, empty for abstract and native methods. -/
  entries : List MethodEntry := []
  localVariables : List LocalVariable := []
  maxStack : Option UInt16 := none
  maxLocals : Option UInt16 := none
  deriving Inhabited

def Method.hasBody (m : Method) : Bool := !m.entries.isEmpty

end Model

/-- A class as a document has it. -/
structure ClassModel where
  name : String
  access : UInt16
  version : Version
  /-- Only the root class and module descriptions have none. -/
  superClass : Option String := none
  interfaces : List String := []
  signature : Option String := none
  sourceFile : Option String := none
  sourceDebug : Option String := none
  enclosingMethod : Option EnclosingMethod := none
  nestHost : Option String := none
  nestMembers : List String := []
  permittedSubclasses : List String := []
  innerClasses : List InnerClass := []
  deprecated : Bool := false
  synthetic : Bool := false
  annotations : List Model.Annotation := []
  typeAnnotations : List Model.TypeAnnotation := []
  record : Option (List Model.RecordComponent) := none
  module : Option ModuleInfo := none
  fields : List Model.Field := []
  methods : List Model.Method := []
  deriving Inhabited

end ClassDoc
