/-
  A tree as the sequence of its tags.

  The names in tags are written as they are in the tree. Names that are read can have prefixes, which the tree does not
  keep.
-/
import ClassDoc.Document.Node
import ClassDoc.Xml.Name
namespace ClassDoc.Xml

/-- A tag or a text. The type of names is not the same for writing and reading. -/
inductive Event (Name : Type) where
  | start (name : Name) (attributes : List (Name × String))
  | text (s : String)
  | stop (name : Name)
  deriving DecidableEq

/-! ## From a tree -/

/-- The event of the text of a node, if it has one. -/
def textEvents : Option String → List (Event String)
  | some s => [.text s]
  | none => []

mutual

/-- The tags and texts of a node, at any depth. -/
def eventsOf : Node → List (Event String)
  | ⟨kind, attributes, children, text⟩ =>
    .start kind attributes :: (textEvents text ++ (eventsOfAll children ++ [.stop kind]))

def eventsOfAll : List Node → List (Event String)
  | [] => []
  | n :: rest => eventsOf n ++ eventsOfAll rest

end

/-! ## To a tree -/

/-- A node whose end tag is still to come, its children in reverse. -/
structure Partial where
  kind : String
  attributes : List (String × String)
  children : List Node := []
  text : Option String := none

/-- The node, now that its end tag has come. -/
def Partial.close (p : Partial) : Node := ⟨p.kind, p.attributes, p.children.reverse, p.text⟩

/-- The nodes that are open, the innermost first, and the finished root. -/
structure Building where
  stack : List Partial := []
  root : Option Node := none

/-- Adds an event to the tree. Of a name only the part behind the prefix is kept. -/
def Building.step (b : Building) : Event QName → Except Fault Building
  | .start name attributes =>
    if b.root.isSome then fail .secondRoot
    else
      let attributes := attributes.map fun a => (a.1.localName, a.2)
      .ok { b with stack := { kind := name.localName, attributes } :: b.stack }
  | .text s =>
    match b.stack with
    | [] => .ok b
    | p :: rest => .ok { b with stack := { p with text := some (p.text.getD "" ++ s) } :: rest }
  | .stop _ =>
    match b.stack with
    | [] => fail .notXml
    | [p] => .ok { b with stack := [], root := some p.close }
    | p :: q :: rest => .ok { b with stack := { q with children := p.close :: q.children } :: rest }

def ofEvents (events : List (Event QName)) : Except Fault Building := events.foldlM Building.step {}

end ClassDoc.Xml
