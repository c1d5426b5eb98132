/-
  Documents as XML text.
-/
import ClassDoc.Xml.Reader
import ClassDoc.Xml.Render
namespace ClassDoc

/-- What writes and reads XML. -/
structure Xml.Library where
  /-- The text of some events, unless they are refused. -/
  write : List (Xml.Event String) → Option String
  /-- The events of a text up to its end, or up to the first mistake; tells whether there was none. -/
  read : String → List (Xml.Event Xml.QName) × Bool

/-- The writer, which refuses nothing, and the reader of this project. -/
def Xml.library : Xml.Library := ⟨fun events => some (Xml.render events), Xml.Reader.read⟩

namespace Node

/-- The document as XML text that ends with a line end, if the library writes it. -/
def toXmlWith (library : Xml.Library) (root : Node) : Option String :=
  (library.write (Xml.eventsOf root)).map fun text => text ++ "\n"

/-- The document that an XML text stands for, as the library reads it. -/
def ofXmlWith (library : Xml.Library) (xml : String) : Except Fault Node := do
  let (events, complete) := library.read xml
  let built ← Xml.ofEvents events
  match built.root with
  | some root => if complete then .ok root else fail .notXml
  | none => fail .notXml

def toXml (root : Node) : String := Xml.render (Xml.eventsOf root) ++ "\n"

theorem toXmlWith_library (root : Node) : root.toXmlWith Xml.library = some root.toXml := rfl

def ofXml (xml : String) : Except Fault Node := ofXmlWith Xml.library xml

end Node

end ClassDoc
