/-
  Names in documents.

  Names of documents consist of ASCII letters, digits and escapes. An escape is `_` and a letter for the characters of
  `Name.table`, `_x` and four hex digits for the other characters up to U+FFFF, `_y` and six hex digits for the rest.
-/
import ClassDoc.Fault.Basic
namespace ClassDoc.Name

def table : List (Char × Char) := [
  ('_', '_'), ('$', 'd'), ('/', 's'), ('<', 'l'), ('>', 'g'), ('(', 'p'), (')', 'q'), (';', 'e'), ('[', 'a'),
  ('.', 'o'), ('-', 'h'), (' ', 'w') ]

def letter? (c : Char) : Option Char := (table.find? fun p => p.1 == c).map Prod.snd

def ofLetter? (letter : Char) : Option Char := (table.find? fun p => p.2 == letter).map Prod.fst

def isPlain (c : Char) : Bool := c.isAlphanum

def escapeChar (c : Char) : List Char :=
  if isPlain c then [c]
  else match letter? c with
    | some letter => ['_', letter]
    | none => if c.toNat ≤ 0xFFFF then '_' :: 'x' :: Hex.fixed 4 c.toNat else '_' :: 'y' :: Hex.fixed 6 c.toNat

def escape (name : String) : String := String.ofList (name.toList.flatMap escapeChar)

def charOf? (code : Nat) : Option Char := if code.isValidChar then some (Char.ofNat code) else none

/-- Reads the escape of a character by its number, after the letter `letter`. -/
def unescapeNumber (count : Nat) (letter : Char) (rest : List Char) : Except NameProblem (Char × List Char) :=
  let digits := rest.take count
  if digits.length ≠ count || !digits.all Hex.isUpperDigit then .error (.expectedDigits count letter)
  else
    let code := (Hex.toNat? digits).getD 0
    match charOf? code with
    | none => .error (.invalidCharacter code)
    | some c =>
      if isPlain c || (letter? c).isSome || (count == 6) != (code > 0xFFFF) then
        .error (.notCanonical letter (String.ofList digits) c)
      else .ok (c, rest.drop count)

def unescapeChar : List Char → Except NameProblem (Char × List Char)
  | [] => .error .empty
  | c :: rest =>
    if isPlain c then .ok (c, rest)
    else if c ≠ '_' then .error (.mustBeEscaped c)
    else match rest with
      | [] => .error .truncated
      | letter :: rest =>
        if letter == 'x' then unescapeNumber 4 letter rest
        else if letter == 'y' then unescapeNumber 6 letter rest
        else match ofLetter? letter with
          | some c => .ok (c, rest)
          | none => .error (.unknownEscape letter)

/-- Reads an escaped name to its end; `found` holds the characters so far, the last one first. A character takes at
least one of the text, so as many steps as there are characters are enough. -/
def unescapeAll : (fuel : Nat) → (found : List Char) → List Char → Except NameProblem (List Char)
  | _, found, [] => .ok found.reverse
  | 0, found, _ => .ok found.reverse
  | fuel + 1, found, text =>
    match unescapeChar text with
    | .error problem => .error problem
    | .ok (c, rest) => unescapeAll fuel (c :: found) rest

def unescapeText (name : String) : Except NameProblem String :=
  if name.isEmpty then .error .empty
  else match unescapeAll name.toList.length [] name.toList with
    | .ok cs => .ok (String.ofList cs)
    | .error problem => .error problem

def blame {α : Type} (name : String) : Except NameProblem α → Except Fault α
  | .ok a => .ok a
  | .error problem => fail (.nameEscapingFailure name problem)

def unescape (name : String) : Except Fault String := blame name (unescapeText name)

/-! ## Classes -/

def pieces (separator : Char) (text : String) : List String :=
  (text.toList.splitOn separator).map String.ofList

/-- The document name of a class, like `java.lang.Object`. -/
def classToDocument (name : String) : String :=
  String.intercalate "." ((pieces '/' name).map escape)

def classFromDocument (name : String) : Except Fault String := do
  let segments ← blame name ((pieces '.' name).mapM unescapeText)
  return String.intercalate "/" segments

/-! ## Members -/

/-- The document names of members, given by name and descriptor. A name that occurs more than once is followed by the
descriptor. -/
def memberNames (members : List (String × String)) : List String :=
  let counts := members.foldl (fun (counts : Std.HashMap String Nat) m =>
    counts.insert m.1 (counts.getD m.1 0 + 1)) {}
  members.map fun (name, descriptor) =>
    if counts.getD name 0 > 1 then escape name ++ "-" ++ escape descriptor else escape name

/-- The name of a member, and its descriptor if there is one in the document name. -/
def memberFromDocument (name : String) : Except Fault (String × Option String) :=
  let member := name.toList.takeWhile (· ≠ '-')
  match name.toList.dropWhile (· ≠ '-') with
  | _ :: descriptor => do
    let member ← unescape (String.ofList member)
    let descriptor ← unescape (String.ofList descriptor)
    return (member, some descriptor)
  | [] => do return (← unescape name, none)

end ClassDoc.Name
