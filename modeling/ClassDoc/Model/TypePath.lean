/-
  Type paths.

  As a text, `[` steps into an array, `.` into a nested type, `*` to the bound of a wildcard and `3;` into the type
  argument number three. In class files a step is a kind and an argument.
-/
import ClassDoc.Fault.Basic
namespace ClassDoc.TypePath

def stepText : TypePathStep → String
  | .array => "["
  | .nested => "."
  | .wildcard => "*"
  | .typeArgument index => toString index.toNat ++ ";"

def format (path : List TypePathStep) : String := String.join (path.map stepText)

/-- The number of a type argument: decimal digits without leading zeros. -/
def indexOf (digits : List Char) : Except ValueProblem UInt8 :=
  if !digits.all Char.isDigit || (digits.length > 1 && digits.head? == some '0') then .error .pathIndex
  else if Label.number digits < 256 then .ok (UInt8.ofNat (Label.number digits))
  else .error .pathRange

def takeStep : List Char → Except ValueProblem (TypePathStep × List Char)
  | '[' :: rest => .ok (.array, rest)
  | '.' :: rest => .ok (.nested, rest)
  | '*' :: rest => .ok (.wildcard, rest)
  | text =>
    if !text.head?.any Char.isDigit then .error .pathStep
    else match text.dropWhile (· != ';') with
      | [] => .error .pathUnterminated
      | _ :: rest => do return (.typeArgument (← indexOf (text.takeWhile (· != ';'))), rest)

/-- The steps of a text; a step is at least one character, so the length of the text is enough `fuel`. -/
def takeSteps : (fuel : Nat) → (found : List TypePathStep) → List Char → Except ValueProblem (List TypePathStep)
  | _, found, [] => .ok found.reverse
  | 0, _, _ => .error .pathStep
  | fuel + 1, found, text =>
    match takeStep text with
    | .error problem => .error problem
    | .ok (step, rest) => takeSteps fuel (step :: found) rest

def parse (text : String) : Except Fault (List TypePathStep) :=
  match takeSteps text.toList.length [] text.toList with
  | .ok path => .ok path
  | .error problem => fail (.malformedValue "type path" text problem)

/-! ## Steps of class files -/

def toStep : TypePathStep → PathStep
  | .array => ⟨0, 0⟩
  | .nested => ⟨1, 0⟩
  | .wildcard => ⟨2, 0⟩
  | .typeArgument index => ⟨3, index⟩

def ofStep (step : PathStep) : Except Fault TypePathStep :=
  if step.kind = 3 then .ok (.typeArgument step.argument)
  else if step = ⟨0, 0⟩ then .ok .array
  else if step = ⟨1, 0⟩ then .ok .nested
  else if step = ⟨2, 0⟩ then .ok .wildcard
  else .error (.violation (.pathStep step.kind step.argument))

end ClassDoc.TypePath

namespace ClassDoc

instance : Literal TypePathStep where
  literal
    | .array => "Array"
    | .nested => "Nested"
    | .wildcard => "Wildcard"
    | .typeArgument index => Literal.tagged "TypeArgument" [literal index]

end ClassDoc
