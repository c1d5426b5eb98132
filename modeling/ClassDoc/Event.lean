/-
  Class events: a class as a flat sequence.

  A sequence starts with the class header, then come events about the class itself, then the members, each followed
  by the events that belong to it, and last the end. A signature, an annotation or a marker belongs to the class
  before the first member, and to the last member after that.
-/
import ClassDoc.Annotation
import ClassDoc.Frame
import ClassDoc.Insn
import ClassDoc.ModuleInfo
namespace ClassDoc

/-- The version of a class file. -/
structure Version where
  major : UInt16
  minor : UInt16
  deriving DecidableEq, Inhabited

/-- What a class starts with. -/
structure ClassHeader where
  version : Version
  access : UInt16
  name : String
  superClass : Option String
  interfaces : List String
  deriving DecidableEq, Inhabited

/-- What a field starts with. -/
structure FieldHeader where
  access : UInt16
  name : String
  descriptor : String
  value : Option Constant
  deriving Inhabited

/-- What a method starts with. -/
structure MethodHeader where
  access : UInt16
  name : String
  descriptor : String
  exceptions : List String
  deriving DecidableEq, Inhabited

/-- An entry of the table of inner classes. -/
structure InnerClass where
  name : String
  outer : Option String
  simpleName : Option String
  access : UInt16
  deriving DecidableEq, Inhabited

/-- A component of a record. Annotations come with whether they are visible at run time. -/
structure RecordComponent where
  name : String
  descriptor : String
  signature : Option String
  annotations : List (Bool × Annotation)
  typeAnnotations : List (Bool × TypeAnnotation Label)
  deriving Inhabited

/-- A local variable and where it is in scope. -/
structure LocalVariable where
  name : String
  descriptor : String
  signature : Option String
  start : Label
  stop : Label
  index : UInt16
  deriving DecidableEq, Inhabited

/-- The range of an exception handler. -/
structure TryCatch where
  start : Label
  stop : Label
  handler : Label
  /-- The caught class, `none` for any. -/
  catchType : Option String
  deriving DecidableEq, Inhabited

/-- What a class file says of a code, a piece at a time. -/
inductive CodeEvent where
  | tryCatch (t : TryCatch)
  | label (l : Label)
  | lineNumber (line : UInt16) (start : Label)
  | frame (f : Frame Label)
  | insn (i : Insn Label)
  | localVariable (v : LocalVariable)
  | annotateType (visible : Bool) (a : TypeAnnotation Label)
  | maxs (maxStack maxLocals : UInt16)
  deriving Inhabited

/-- What a class file says of a class, a piece at a time. -/
inductive ClassEvent where
  | header (h : ClassHeader)
  | source (file debug : Option String)
  | signature (s : String)
  | enclosingMethod (owner : String) (name descriptor : Option String)
  | nestHost (name : String)
  | nestMember (name : String)
  | permittedSubclass (name : String)
  | innerClass (inner : InnerClass)
  | annotate (visible : Bool) (a : Annotation)
  | annotateType (visible : Bool) (a : TypeAnnotation Label)
  | deprecated
  | synthetic
  | record (components : List RecordComponent)
  | module (m : ModuleInfo)
  | field (h : FieldHeader)
  | method (h : MethodHeader)
  | parameter (name : Option String) (access : UInt16)
  | annotableParameterCount (count : UInt8) (visible : Bool)
  | annotateParameter (parameter : UInt8) (visible : Bool) (a : Annotation)
  | annotationDefault (value : ElementValue)
  | code (e : CodeEvent)
  | done
  deriving Inhabited

/-! ## Texts in messages -/

instance : Literal Version where
  literal v := Literal.record "Version" [("major", literal v.major), ("minor", literal v.minor)]

instance : Literal ClassHeader where
  literal h := Literal.record "ClassHeader" [("version", literal h.version), ("access", literal h.access),
    ("name", literal h.name), ("super_class", literal h.superClass), ("interfaces", literal h.interfaces)]

instance : Literal FieldHeader where
  literal h := Literal.record "FieldHeader" [("access", literal h.access), ("name", literal h.name),
    ("descriptor", literal h.descriptor), ("value", literal h.value)]

instance : Literal MethodHeader where
  literal h := Literal.record "MethodHeader" [("access", literal h.access), ("name", literal h.name),
    ("descriptor", literal h.descriptor), ("exceptions", literal h.exceptions)]

instance : Literal InnerClass where
  literal i := Literal.record "InnerClass" [("name", literal i.name), ("outer", literal i.outer),
    ("simple_name", literal i.simpleName), ("access", literal i.access)]

instance : Literal RecordComponent where
  literal c := Literal.record "RecordComponent" [("name", literal c.name), ("descriptor", literal c.descriptor),
    ("signature", literal c.signature), ("annotations", literal c.annotations),
    ("type_annotations", literal c.typeAnnotations)]

instance : Literal LocalVariable where
  literal v := Literal.record "LocalVariable" [("name", literal v.name), ("descriptor", literal v.descriptor),
    ("signature", literal v.signature), ("start", literal v.start), ("end", literal v.stop),
    ("index", literal v.index)]

instance : Literal CodeEvent where
  literal
    | .tryCatch t => Literal.record "TryCatch" [("start", literal t.start), ("end", literal t.stop),
        ("handler", literal t.handler), ("catch", literal t.catchType)]
    | .label l => Literal.tagged "Label" [literal l]
    | .lineNumber line start => Literal.record "LineNumber" [("line", literal line), ("start", literal start)]
    | .frame f => Literal.tagged "Frame" [literal f]
    | .insn i => Literal.tagged "Insn" [literal i]
    | .localVariable v => Literal.tagged "LocalVariable" [literal v]
    | .annotateType visible a =>
      Literal.record "TypeAnnotation" [("visible", literal visible), ("annotation", literal a)]
    | .maxs maxStack maxLocals =>
      Literal.record "Maxs" [("max_stack", literal maxStack), ("max_locals", literal maxLocals)]

instance : Literal ClassEvent where
  literal
    | .header h => Literal.tagged "Class" [literal h]
    | .source file debug => Literal.record "Source" [("file", literal file), ("debug", literal debug)]
    | .signature s => Literal.tagged "Signature" [literal s]
    | .enclosingMethod owner name descriptor => Literal.record "EnclosingMethod" [("class", literal owner),
        ("name", literal name), ("descriptor", literal descriptor)]
    | .nestHost name => Literal.tagged "NestHost" [literal name]
    | .nestMember name => Literal.tagged "NestMember" [literal name]
    | .permittedSubclass name => Literal.tagged "PermittedSubclass" [literal name]
    | .innerClass inner => Literal.tagged "InnerClass" [literal inner]
    | .annotate visible a => Literal.record "Annotation" [("visible", literal visible), ("annotation", literal a)]
    | .annotateType visible a =>
      Literal.record "TypeAnnotation" [("visible", literal visible), ("annotation", literal a)]
    | .deprecated => "Deprecated"
    | .synthetic => "Synthetic"
    | .record components => Literal.tagged "Record" [literal components]
    | .module m => Literal.tagged "Module" [literal m]
    | .field h => Literal.tagged "Field" [literal h]
    | .method h => Literal.tagged "Method" [literal h]
    | .parameter name access => Literal.record "Parameter" [("name", literal name), ("access", literal access)]
    | .annotableParameterCount count visible =>
      Literal.record "AnnotableParameterCount" [("count", literal count), ("visible", literal visible)]
    | .annotateParameter parameter visible a => Literal.record "ParameterAnnotation"
        [("parameter", literal parameter), ("visible", literal visible), ("annotation", literal a)]
    | .annotationDefault value => Literal.tagged "AnnotationDefault" [literal value]
    | .code e => Literal.tagged "Code" [literal e]
    | .done => "End"

end ClassDoc
