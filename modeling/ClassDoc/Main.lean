/-
  The command line: runs the request of its arguments on the files of the computer.
-/
import ClassDoc.Command.Run
namespace ClassDoc

/-- The result of an action, if it works. -/
def attempt? {α : Type} (action : IO α) : IO (Option α) := do
  match ← action.toBaseIO with
  | .ok a => return some a
  | .error _ => return none

/-- The files below a path, by their paths from there. -/
partial def walkFiles (path : String) : IO (List String) := do
  let here := (← IO.currentDir) / path
  if ← here.isDir then
    let names := ((← here.readDir).toList.map fun entry => entry.fileName).mergeSort fun a b => a ≤ b
    let inner ← names.mapM fun name => do
      let files ← walkFiles (Path.push path name)
      return files.map fun file => if file = "" then name else name ++ "/" ++ file
    return inner.flatten
  else
    let _ ← here.metadata
    return [""]

def computer : FileSystem IO where
  walk path := attempt? (walkFiles path)
  read path := attempt? do return (← IO.FS.readBinFile ⟨path⟩).data.toList
  createDirectories path := do return (← attempt? (IO.FS.createDirAll ⟨path⟩)).isSome
  write path content := do return (← attempt? (IO.FS.writeBinFile ⟨path⟩ ⟨content.toArray⟩)).isSome

def usage : String :=
  "usage: [-v] disassemble [--comments] [--listing] [--fail-fast] [--report <file>] <input> <output>\n"
    ++ "       [-v] assemble [--fail-fast] [--report <file>] <input> <output>"

end ClassDoc

open ClassDoc in
def main (args : List String) : IO UInt32 := do
  match Request.parse args with
  | .error .help =>
    IO.println usage
    return 0
  | .error problem =>
    IO.eprintln s!"{problem.name}\n{usage}"
    return 2
  | .ok request =>
    let report ← request.run computer
    report.warnings.forM fun w => IO.eprintln w.message
    match report.value with
    | .ok () => return 0
    | .error f =>
      IO.eprintln s!"Error: {f.message}"
      return 1
