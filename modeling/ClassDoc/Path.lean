/-
  Paths of files, with `/` between their components.
-/
namespace ClassDoc.Path

/-- A part of a path. -/
inductive Component where
  | root
  | current
  | parent
  | normal (name : String)
  deriving DecidableEq

/-- The components of the pieces between slashes; `first` tells whether a `.` still counts. -/
def componentsOf : (first : Bool) → List (List Char) → List Component
  | _, [] => []
  | first, piece :: rest =>
    if piece = [] then componentsOf false rest
    else if piece = ['.'] then (if first then .current :: componentsOf false rest else componentsOf false rest)
    else if piece = ['.', '.'] then .parent :: componentsOf false rest
    else .normal (String.ofList piece) :: componentsOf false rest

def components (path : String) : List Component :=
  let pieces := path.toList.splitOn '/'
  match path.toList with
  | '/' :: _ => .root :: componentsOf false pieces
  | _ => componentsOf true pieces

/-- The reversed path without slashes and `.` components at its end. -/
def trimEnd : List Char → List Char
  | '/' :: rest => trimEnd rest
  | '.' :: '/' :: rest => trimEnd ('/' :: rest)
  | cs => cs

/-- The path up to its last component, and that component, if it has a name. -/
def splitName? (path : String) : Option (List Char × List Char) :=
  let kept := trimEnd path.toList.reverse
  let name := (kept.takeWhile (· ≠ '/')).reverse
  if name = [] ∨ name = ['.'] ∨ name = ['.', '.'] then none
  else some ((kept.dropWhile (· ≠ '/')).reverse, name)

def parent? (path : String) : Option String :=
  let kept := trimEnd path.toList.reverse
  if kept.takeWhile (· ≠ '/') = [] then none
  else
    let folder := kept.dropWhile (· ≠ '/')
    let parent := trimEnd folder
    some (if parent = [] ∧ folder ≠ [] then "/" else String.ofList parent.reverse)

/-- What stands before and after the last dot of a file name. There is no extension without a dot, or if the only
dot comes first. -/
def splitDot (name : List Char) : List Char × Option (List Char) :=
  let tail := (name.reverse.takeWhile (· ≠ '.')).reverse
  let stem := ((name.reverse.dropWhile (· ≠ '.')).drop 1).reverse
  if stem = [] then (name, none) else (stem, some tail)

def extension? (path : String) : Option String := do
  let (_, name) ← splitName? path
  let tail ← (splitDot name).2
  return String.ofList tail

/-- Replaces the extension; an empty one leaves no dot. Without a file name nothing changes. -/
def setExtension (path extension : String) : String :=
  match splitName? path with
  | none => path
  | some (folder, name) =>
    String.ofList (folder ++ (splitDot name).1) ++ (if extension = "" then "" else "." ++ extension)

def withExtension (path extension : String) : String :=
  match extension? path with
  | none => setExtension path extension
  | some old => setExtension (String.ofList (path.toList.take (path.length - old.length))) extension

def push (path segment : String) : String :=
  if segment.toList.head? = some '/' then segment
  else if path.toList.getLast? = none ∨ path.toList.getLast? = some '/' then path ++ segment
  else path ++ "/" ++ segment

end ClassDoc.Path
