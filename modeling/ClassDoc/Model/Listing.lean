/-
  Classes as text for people to read.
-/
import ClassDoc.Access
import ClassDoc.Model.Instruction
namespace ClassDoc

def VerificationType.listing : VerificationType Label → String
  | top => "top"
  | integer => "integer"
  | float => "float"
  | double => "double"
  | long => "long"
  | null => "null"
  | uninitializedThis => "uninitializedthis"
  | object name => name
  | uninitialized label => "uninitialized " ++ label.text

def VerificationType.listings (types : List (VerificationType Label)) : String :=
  String.intercalate ", " (types.map VerificationType.listing)

def MethodEntry.listing : MethodEntry → String
  | instruction i => s!"        {i.listing}\n"
  | label l => s!"      {l.text}:\n"
  | tryCatch t =>
    let caught := t.catchType.getD "any"
    s!"      try {t.start.text} {t.stop.text} catch {caught} -> {t.handler.text}\n"
  | frame f =>
    let locals := VerificationType.listings f.locals
    let stack := VerificationType.listings f.stack
    s!"      frame {literal f.kind} locals [{locals}] stack [{stack}]\n"
  | line number l => s!"      line {number.toNat} at {l.text}\n"

namespace Model

def modifierNames : List (UInt16 × String) := [
  (Access.public_, "public"), (Access.private_, "private"), (Access.protected_, "protected"), (Access.static, "static"),
  (Access.final, "final"), (Access.abstract, "abstract") ]

def methodModifierNames : List (UInt16 × String) := [
  (Access.public_, "public"), (Access.private_, "private"), (Access.protected_, "protected"), (Access.static, "static"),
  (Access.final, "final"), (Access.synchronized, "synchronized"), (Access.native, "native"),
  (Access.abstract, "abstract") ]

/-- The modifiers that are set, with a blank after each. -/
def modifiers (names : List (UInt16 × String)) (access : UInt16) : String :=
  String.join ((names.filter fun p => Access.has access p.1).map fun p => p.2 ++ " ")

def Field.listing (f : Field) : String := s!"  {modifiers modifierNames f.access}{f.descriptor} {f.name};\n"

def Method.listing (m : Method) : String :=
  s!"\n  {modifiers methodModifierNames m.access}{m.name}{m.descriptor};\n"
    ++ (if m.hasBody then "    Code:\n" ++ String.join (m.entries.map MethodEntry.listing) else "")

end Model

namespace ClassModel

def sort (c : ClassModel) : String :=
  if c.module.isSome then "module"
  else if c.record.isSome then "record"
  else if Access.has c.access Access.interface then "interface"
  else "class"

def headline (c : ClassModel) : String :=
  let modifiers := Model.modifiers Model.modifierNames (c.access &&& ~~~Access.abstract)
  let parent := match c.superClass with
    | some name => " extends " ++ name
    | none => ""
  let interfaces := if c.interfaces.isEmpty then "" else " implements " ++ String.intercalate ", " c.interfaces
  s!"{modifiers}{c.sort} {c.name}{parent}{interfaces} \x7b\n"

def listing (c : ClassModel) : String :=
  c.headline ++ String.join (c.fields.map Model.Field.listing) ++ String.join (c.methods.map Model.Method.listing)
    ++ "\x7d\n"

end ClassModel

end ClassDoc
