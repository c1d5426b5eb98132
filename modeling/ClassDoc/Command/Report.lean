/-
  Reports on runs, as JSON text.

  A report has an entry for each outcome: the input, and either the class in it or the fault.
-/
import ClassDoc.Batch
namespace ClassDoc.RunReport

/-- A text or null. -/
abbrev Value := Option String

def escapeChar (c : Char) : List Char :=
  if c = '"' then ['\\', '"']
  else if c = '\\' then ['\\', '\\']
  else if c = '\x08' then ['\\', 'b']
  else if c = '\x0c' then ['\\', 'f']
  else if c = '\n' then ['\\', 'n']
  else if c = '\r' then ['\\', 'r']
  else if c = '\t' then ['\\', 't']
  else if c.toNat < 0x20 then ['\\', 'u', '0', '0', if c.toNat < 0x10 then '0' else '1', Nat.digitChar (c.toNat % 0x10)]
  else [c]

def valueText : Value → String
  | some s => String.ofList ('"' :: s.toList.flatMap escapeChar ++ ['"'])
  | none => "null"

def fields (o : Batch.Outcome) : List (String × Value) :=
  match o.result.value with
  | .ok artifact => [("input", some o.id), ("class", some artifact.className), ("error", none), ("message", none)]
  | .error f => [("input", some o.id), ("class", none), ("error", some (f.kind?.getD "binary")),
      ("message", some f.message)]

def entryText (o : Batch.Outcome) : String :=
  let lines := (fields o).map fun (name, value) => "    \"" ++ name ++ "\": " ++ valueText value
  "  \x7b\n" ++ String.intercalate ",\n" lines ++ "\n  \x7d"

def text (outcomes : List Batch.Outcome) : String :=
  if outcomes.isEmpty then "[]" else "[\n" ++ String.intercalate ",\n" (outcomes.map entryText) ++ "\n]"

end ClassDoc.RunReport
