/-
  Field and method descriptors.

  A field descriptor is any number of `[`, then a letter for a primitive type or a class name between `L` and `;`.
  A method descriptor is a list of field descriptors in parentheses, then `V` or a field descriptor.
-/
import ClassDoc.Literal
namespace ClassDoc.Descriptor

/-- Why a text is no descriptor. -/
inductive Problem where
  /-- There is no `;` after the class name. -/
  | unterminated (text : String)
  | emptyName (text : String)
  /-- The text does not start with a field descriptor. -/
  | notField (text : String)
  | trailing (text : String)
  /-- The text does not start with a parenthesis. -/
  | notMethod (text : String)
  deriving DecidableEq

def Problem.message : Problem → String
  | unterminated text => "unterminated class type in descriptor " ++ literal text
  | emptyName text => "empty class name in descriptor " ++ literal text
  | notField text => "invalid field descriptor " ++ literal text
  | trailing text => "trailing characters in field descriptor " ++ literal text
  | notMethod text => "method descriptor " ++ literal text ++ " doesn't start with `(`"

def isPrimitive (c : Char) : Bool :=
  c == 'B' || c == 'C' || c == 'D' || c == 'F' || c == 'I' || c == 'J' || c == 'S' || c == 'Z'

def isNameChar (c : Char) : Bool := c != ';'

def takeField (text : List Char) : Except Problem (List Char × List Char) :=
  let dims := text.takeWhile (· == '[')
  match text.dropWhile (· == '[') with
  | [] => .error (.notField (String.ofList text))
  | c :: rest =>
    if isPrimitive c then .ok (dims ++ [c], rest)
    else if c == 'L' then
      match rest.dropWhile isNameChar with
      | [] => .error (.unterminated (String.ofList text))
      | semicolon :: rest' =>
        let name := rest.takeWhile isNameChar
        if name.isEmpty then .error (.emptyName (String.ofList text))
        else .ok (dims ++ c :: name ++ [semicolon], rest')
    else .error (.notField (String.ofList text))

def checkField (text : String) : Except Problem Unit := do
  let (_, rest) ← takeField text.toList
  unless rest.isEmpty do .error (.trailing text)

/-- Splits the arguments off, up to the closing parenthesis. A descriptor has at least one character, so there are
at most as many arguments as characters, which is what callers give as `fuel`. -/
def takeArguments : (fuel : Nat) → (found : List String) → List Char → Except Problem (List String × List Char)
  | _, found, ')' :: rest => .ok (found.reverse, rest)
  | 0, _, text => .error (.notField (String.ofList text))
  | fuel + 1, found, text =>
    match takeField text with
    | .error problem => .error problem
    | .ok (field, rest) => takeArguments fuel (String.ofList field :: found) rest

def splitMethod (text : String) : Except Problem (List String × String) :=
  match text.toList with
  | '(' :: rest => do
    let (arguments, result) ← takeArguments rest.length [] rest
    let result := String.ofList result
    unless result == "V" do checkField result
    return (arguments, result)
  | _ => .error (.notMethod text)

def slots (text : String) : Nat :=
  if text == "V" then 0 else if text == "J" || text == "D" then 2 else 1

def argumentSlots (text : String) : Except Problem Nat := do
  let (arguments, _) ← splitMethod text
  return arguments.foldl (fun n argument => n + slots argument) 0

def returnSlots (text : String) : Except Problem Nat := do
  let (_, result) ← splitMethod text
  return slots result

end ClassDoc.Descriptor
