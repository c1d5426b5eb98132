/-
  Class files to documents and back.
-/
import ClassDoc.Document.Class
import ClassDoc.Document.Xml
import ClassDoc.Model.Events
import ClassDoc.Name.Location
namespace ClassDoc

def disassemble (options : DocumentOptions) (bytes : Bytes) : Report Node := do
  let c ← readModel bytes
  c.validate
  return c.toNode options

def assembleClass (root : Node) : Except Fault (ClassModel × Bytes) := do
  let c ← ClassModel.ofNode root
  return (c, ← within (.writingClass c.name) (writeModel c))

def assemble (root : Node) : Except Fault Bytes := do
  return (← assembleClass root).2

/-! ## Files -/

/-- What a file is turned into. -/
inductive Direction where
  | toDocument (options : DocumentOptions)
  | toBinary
  deriving DecidableEq

/-- A file that was made, with the class in it. -/
structure Artifact where
  className : String
  content : Bytes
  deriving Inhabited

def textContent (s : String) : Bytes := s.toUTF8.data.toList

def textOf? (content : Bytes) : Option String := String.fromUTF8? ⟨content.toArray⟩

namespace Direction

def document (options : DocumentOptions) (content : Bytes) : Report Artifact := do
  let root ← disassemble options content
  let className ← Attr.className root "name"
  return ⟨className, textContent root.toXml⟩

def binary (content : Bytes) : Except Fault Artifact :=
  match textOf? content with
  | none => fail .notUtf8
  | some xml => do
    let (c, bytes) ← assembleClass (← Node.ofXml xml)
    return ⟨c.name, bytes⟩

def convert : Direction → (content : Bytes) → Report Artifact
  | toDocument options, content => document options content
  | toBinary, content => .of (binary content)

def inputExtension : Direction → String
  | toDocument _ => Name.classExtension
  | toBinary => Name.documentExtension

def outputPath : Direction → (className : String) → String
  | toDocument _, className => Name.documentPath className
  | toBinary, className => Name.classPath className

end Direction

end ClassDoc
