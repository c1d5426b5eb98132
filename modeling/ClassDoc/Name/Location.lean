/-
  Where documents and class files are stored.
-/
import ClassDoc.Name.Escape
import ClassDoc.Path
namespace ClassDoc.Name

def documentExtension : String := "xmir"

def classExtension : String := "class"

def documentPath (name : String) : String :=
  Path.setExtension (((pieces '/' name).map escape).foldl Path.push "") documentExtension

def classPath (name : String) : String := name ++ "." ++ classExtension

def segmentOf (path : String) : Path.Component → Except Fault String
  | .normal name => unescape name
  | _ => fail (.nameEscapingFailure path .notRelative)

def classFromPath (path : String) : Except Fault String :=
  if Path.extension? path ≠ some documentExtension then
    fail (.nameEscapingFailure path (.wrongExtension documentExtension))
  else
    let path := Path.withExtension path ""
    do return String.intercalate "/" (← (Path.components path).mapM (segmentOf path))

end ClassDoc.Name
