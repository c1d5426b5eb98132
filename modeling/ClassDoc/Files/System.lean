/-
  What a run needs of the files around it.
-/
import ClassDoc.Bytes
namespace ClassDoc

/-- Access to files by their paths, with effects of the kind `m`. -/
structure FileSystem (m : Type → Type) where
  /-- The files below a path, by their paths from there: depth first, each directory sorted by name. A file is below
  itself with the empty path. -/
  walk : String → m (Option (List String))
  read : String → m (Option Bytes)
  /-- Makes a directory and all those it is in, as far as they are missing; tells whether it is there then. -/
  createDirectories : String → m Bool
  /-- Makes or replaces a file; tells whether it could. -/
  write : String → Bytes → m Bool

end ClassDoc
