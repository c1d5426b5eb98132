/-
  Runs: all files of a directory tree to documents, or to class files.
-/
import ClassDoc.Command.Report
import ClassDoc.Command.Usage
import ClassDoc.Files.System
namespace ClassDoc.Request

variable {m : Type → Type} [Monad m]

def found {α : Type} (c : Cause) (access : m (Option α)) : ExceptT Fault m α := do
  match ← access with
  | some a => return a
  | none => throw { cause := c }

def worked (c : Cause) (access : m Bool) : ExceptT Fault m Unit := do
  if !(← access) then throw { cause := c }

def inputPath (r : Request) (id : String) : String := if id = "" then r.input else Path.push r.input id

def selects (r : Request) (id : String) : Bool :=
  Path.extension? (r.inputPath id) = some r.direction.inputExtension

def outcomes (r : Request) (fs : FileSystem m) : ExceptT Fault m (List Batch.Outcome) := do
  let files ← found (.directoryWalk r.input) (fs.walk r.input)
  let inputs ← (files.filter r.selects).mapM fun id => do
    return (id, ← found (.inputFile (r.inputPath id)) (fs.read (r.inputPath id)))
  return Batch.run r.direction r.policy inputs

def storeArtifact (r : Request) (fs : FileSystem m) (artifact : Artifact) : ExceptT Fault m Unit := do
  let path := Path.push r.output (r.direction.outputPath artifact.className)
  match Path.parent? path with
  | some parent => worked (.outputDirectory parent) (fs.createDirectories parent)
  | none => pure ()
  worked (.outputFile path) (fs.write path artifact.content)

/-- Writes the files that were made, then the report. Failures are a fault in the end. -/
def store (r : Request) (fs : FileSystem m) (outcomes : List Batch.Outcome) : ExceptT Fault m Unit := do
  outcomes.forM fun o => match o.result.value with
    | .ok artifact => r.storeArtifact fs artifact
    | .error _ => pure ()
  match r.report with
  | some path => worked (.reportFile path) (fs.write path (textContent (RunReport.text outcomes)))
  | none => pure ()
  let failures := outcomes.countP Batch.Outcome.failed
  if failures ≠ 0 then throw { cause := .failures failures }

def run (r : Request) (fs : FileSystem m) : m (Report Unit) := do
  match ← (r.outcomes fs).run with
  | .error f => return .of (.error f)
  | .ok outcomes => return ⟨← (r.store fs outcomes).run, Batch.warnings outcomes⟩

end ClassDoc.Request
