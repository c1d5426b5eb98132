/-
  Trees of files.
-/
import ClassDoc.Files.System
import ClassDoc.Path
namespace ClassDoc

/-- A file or a directory. -/
inductive FileTree where
  | file (content : Bytes)
  | directory (entries : List (String × FileTree))
  deriving Inhabited

namespace FileTree

def entries? : FileTree → Option (List (String × FileTree))
  | file _ => none
  | directory entries => some entries

def content? : FileTree → Option Bytes
  | file content => some content
  | directory _ => none

def isDirectory (t : FileTree) : Bool := t.entries?.isSome

def entry? (t : FileTree) (name : String) : Option FileTree := do
  (← t.entries?).lookup name

def get? (t : FileTree) : (names : List String) → Option FileTree
  | [] => some t
  | name :: rest => match t.entry? name with
    | some inner => inner.get? rest
    | none => none

def hasDirectory (t : FileTree) (names : List String) : Bool := (t.get? names).any isDirectory

def setEntry (name : String) (inner : FileTree) : List (String × FileTree) → List (String × FileTree)
  | [] => [(name, inner)]
  | (other, t) :: rest => if other = name then (name, inner) :: rest else (other, t) :: setEntry name inner rest

/-- Puts something where the names lead to. Missing directories are made, files on the way are replaced. -/
def put (t : FileTree) (new : FileTree) : (names : List String) → FileTree
  | [] => new
  | name :: rest =>
    let inner := (t.entry? name).getD (directory [])
    directory (setEntry name (inner.put new rest) (t.entries?.getD []))

/-- The path of an entry in a directory, given the path from there. -/
def childPath (name path : String) : String := if path = "" then name else name ++ "/" ++ path

mutual

/-- The files of a tree by their paths, depth first and each directory sorted by name. -/
def files : FileTree → List (String × Bytes)
  | file content => [("", content)]
  | directory entries =>
    ((filesOf entries).mergeSort fun a b => a.1 ≤ b.1).flatMap fun (name, inner) =>
      inner.map fun (path, content) => (childPath name path, content)

def filesOf : List (String × FileTree) → List (String × List (String × Bytes))
  | [] => []
  | (name, t) :: rest => (name, files t) :: filesOf rest

end

end FileTree

/-- A tree of files, and the names that lead to the directory that relative paths start from. -/
structure Disk where
  tree : FileTree := .directory []
  current : List String := []

namespace Disk

/-- Something on a disk can have this name. -/
def isName (name : String) : Bool := !name.toList.contains '\x00' && name.utf8ByteSize ≤ 255

/-- Goes on from a directory: `.` stays there, `..` goes to the one it is in. -/
def step (disk : Disk) (names : List String) (segment : String) : Option (List String) :=
  if !disk.tree.hasDirectory names then none
  else if segment = "" ∨ segment = "." then some names
  else if segment = ".." then some names.dropLast
  else if isName segment then some (names ++ [segment])
  else none

def segments (path : String) : List String := (path.toList.splitOn '/').map String.ofList

def start (disk : Disk) (path : String) : List String :=
  if path.toList.head? = some '/' then [] else disk.current

/-- The names that a path stands for. All but the last one lead to a directory. -/
def resolve? (disk : Disk) (path : String) : Option (List String) :=
  (segments path).foldlM disk.step (disk.start path)

def get? (disk : Disk) (path : String) : Option FileTree := do
  disk.tree.get? (← disk.resolve? path)

/-- Makes a directory for a name if it is missing. -/
def makeStep (state : Disk × List String) (segment : String) : Option (Disk × List String) := do
  let (disk, names) := state
  let names ← disk.step names segment
  match disk.tree.get? names with
  | some t => if t.isDirectory then some (disk, names) else none
  | none => some ({ disk with tree := disk.tree.put (.directory []) names }, names)

def createDirectories? (disk : Disk) (path : String) : Option Disk := do
  if path = "" then return disk
  let (disk, _) ← (segments path).foldlM makeStep (disk, disk.start path)
  return disk

def write? (disk : Disk) (path : String) (content : Bytes) : Option Disk := do
  let names ← disk.resolve? path
  if disk.tree.hasDirectory names then none
  else if (segments path).getLast?.any (fun last => last = "" ∨ last = "." ∨ last = "..") then none
  else return { disk with tree := disk.tree.put (.file content) names }

def update (change : Disk → Option Disk) : StateM Disk Bool := fun disk =>
  match change disk with
  | some disk => (true, disk)
  | none => (false, disk)

def system : FileSystem (StateM Disk) where
  walk path := do return ((← get).get? path).map fun t => t.files.map Prod.fst
  read path := do return ((← get).get? path).bind FileTree.content?
  createDirectories path := update fun disk => disk.createDirectories? path
  write path content := update fun disk => disk.write? path content

/-- The disk with some files in the current directory, and the directories they need. -/
def ofFiles (current : List String) (files : List (String × Bytes)) : Disk :=
  let tree := (FileTree.directory []).put (.directory []) current
  { tree := files.foldl (fun tree (path, content) => tree.put (.file content) (current ++ segments path)) tree
    current }

def files (disk : Disk) : List (String × Bytes) := ((disk.tree.get? disk.current).map FileTree.files).getD []

end Disk

end ClassDoc
