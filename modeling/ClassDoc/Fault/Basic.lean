/-
  Faults: why something failed, and where.

  A fault is a cause together with the places around it, the outermost first. Its message is all of them in a row.
-/
import ClassDoc.Fault.Binary
import ClassDoc.Fault.Document
namespace ClassDoc

/-- Why something failed. -/
inductive Cause where
  | unsupportedOperandType (tag : String)
  | malformedValue (tag data : String) (problem : ValueProblem)
  | malformedControlFlow (problem : FlowProblem)
  | invalidClassStructure (violation : Violation)
  | unrecognizedNodeKind (kind parent : String)
  | missingRequiredChild (node : String) (missing : Missing)
  | unsupportedSchemaVersion (schema : String)
  | nameEscapingFailure (name : String) (problem : NameProblem)
  | descriptor (problem : Descriptor.Problem)
  | read (problem : ReadProblem)
  | write (problem : WriteProblem)
  | notXml
  | notUtf8
  | secondRoot
  | tooManyParameters
  | noMethod
  | codeWithoutMethod
  | directoryWalk (directory : String)
  | inputFile (path : String)
  | outputDirectory (path : String)
  | outputFile (path : String)
  | reportFile (path : String)
  | failures (count : Nat)

def Cause.message : Cause → String
  | unsupportedOperandType tag => s!"unsupported operand type {literal tag}"
  | malformedValue tag data problem => s!"malformed {tag} value {literal data}: {problem.message}"
  | malformedControlFlow problem => s!"malformed control flow: {problem.message}"
  | invalidClassStructure violation => s!"invalid class structure: {violation.message}"
  | unrecognizedNodeKind kind parent => s!"unrecognized node kind {literal kind} in {literal parent}"
  | missingRequiredChild node missing => s!"node {literal node} is missing required {missing.text}"
  | unsupportedSchemaVersion schema => s!"unsupported schema version {literal schema}"
  | nameEscapingFailure name problem => s!"failed to escape or unescape name {literal name}: {problem.message}"
  | descriptor problem => problem.message
  | read problem => problem.message
  | write problem => problem.message
  | notXml => "failed to read xml"
  | notUtf8 => "document isn't valid utf8"
  | secondRoot => "xml contains more than one root node"
  | tooManyParameters => s!"more than 255 parameters: {outOfRange false}"
  | noMethod => "no method started"
  | codeWithoutMethod => "code without a method"
  | directoryWalk directory => s!"failed to walk directory {literal directory}"
  | inputFile path => s!"failed to read {literal path}"
  | outputDirectory path => s!"failed to create directory {literal path}"
  | outputFile path => s!"failed to write {literal path}"
  | reportFile path => s!"failed to create report file {literal path}"
  | failures count => s!"{count} files failed to translate"

def Cause.kind? : Cause → Option String
  | unsupportedOperandType _ => some "UnsupportedOperandType"
  | malformedValue _ _ _ => some "MalformedValue"
  | malformedControlFlow _ => some "MalformedControlFlow"
  | invalidClassStructure _ => some "InvalidClassStructure"
  | unrecognizedNodeKind _ _ => some "UnrecognizedNodeKind"
  | missingRequiredChild _ _ => some "MissingRequiredChild"
  | unsupportedSchemaVersion _ => some "UnsupportedSchemaVersion"
  | nameEscapingFailure _ _ => some "NameEscapingFailure"
  | _ => none

/-- Where something failed. -/
inductive Place where
  | inClass (name : String)
  | inField (name descriptor : String)
  | inMethod (name descriptor : String)
  | readingMethod (name descriptor : String)
  | inFieldNode (name : String)
  | inMethodNode (name : String)
  | inComponent (name : String)
  | inModule
  | inAnnotated (descriptor : String)
  | inAnnotatedType (descriptor : String)
  | inProperty (name : String)
  | inParameter (index : Nat)
  | inDefault
  | inElement (index : Nat)
  /-- An entry of a body, and what it is. -/
  | inEntry (index : Nat) (what : String)
  | poolIndex (index : UInt16)
  | callSite (name descriptor : String)
  | bootstrapArgument (index : UInt16)
  | branch (number : String) (position : UInt16)
  | offset (position : UInt16)
  | writingAttribute (name : String)
  | writingField (name : String)
  | writingMethod (name : String)
  | writingComponent (name : String)
  | writingClass (name : String)
  | writingInsn (insn : Insn Label) (start : Nat)
  | writingText
  | input (id : String)

def Place.message : Place → String
  | inClass name => s!"in class {literal name}"
  | inField name descriptor => s!"in field {literal name} {literal descriptor}"
  | inMethod name descriptor => s!"in method {literal name}{descriptor}"
  | readingMethod name descriptor => s!"in method {literal name}{literal descriptor}"
  | inFieldNode name => s!"in field {literal name}"
  | inMethodNode name => s!"in method {literal name}"
  | inComponent name => s!"in record component {literal name}"
  | inModule => "in module"
  | inAnnotated descriptor => s!"in annotation {literal descriptor}"
  | inAnnotatedType descriptor => s!"in type annotation {literal descriptor}"
  | inProperty name => s!"in property {literal name}"
  | inParameter index => s!"in parameter {index}"
  | inDefault => "in annotation default"
  | inElement index => s!"in array element {index}"
  | inEntry index what => s!"in entry {index}, {what}"
  | poolIndex index => s!"while getting pool index {literal index}"
  | callSite name descriptor => s!"while reading `InvokeDynamic` {literal name} {literal descriptor}"
  | bootstrapArgument index => s!"while reading argument of bootstrap method {literal index}"
  | branch number position => s!"couldn't read {number} for branch based on opcode {literal position}"
  | offset position => s!"at bytecode offset {literal position}"
  | writingAttribute name => s!"failed to write attribute {literal name}"
  | writingField name => s!"failed to write field {literal name}"
  | writingMethod name => s!"failed to write method {literal name}"
  | writingComponent name => s!"failed to write record component {literal name}"
  | writingClass name => s!"failed to write class {literal name}"
  | writingInsn insn start => s!"failed to write instruction {literal insn} at bytecode offset {start}"
  | writingText => "failed to write length of string"
  | input id => s!"failed to translate {literal id}"

/-- A cause and where it is, the outermost place first. -/
structure Fault where
  places : List Place := []
  cause : Cause

namespace Fault

def message (f : Fault) : String :=
  String.intercalate ": " (f.places.map Place.message ++ [f.cause.message])

def kind? (f : Fault) : Option String := f.cause.kind?

def inside (f : Fault) (p : Place) : Fault := { f with places := p :: f.places }

def violation (v : Violation) : Fault := { cause := .invalidClassStructure v }

def read (p : ReadProblem) : Fault := { cause := .read p }

def write (p : WriteProblem) : Fault := { cause := .write p }

end Fault

def within {α : Type} (p : Place) : Except Fault α → Except Fault α
  | .ok a => .ok a
  | .error f => .error (f.inside p)

def fail {α : Type} (c : Cause) : Except Fault α := .error { cause := c }

/-- A computation on descriptors as one that can fail with any fault. -/
def ofDescriptor {α : Type} : Except Descriptor.Problem α → Except Fault α
  | .ok a => .ok a
  | .error p => fail (.descriptor p)

end ClassDoc
