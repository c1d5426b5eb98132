/-
  Documents: trees of nodes.

  A node has a kind, ordered attributes, ordered children and possibly a text. All structure is in kinds, attributes
  and children; texts are for people to read.
-/
import ClassDoc.Fault.Basic
namespace ClassDoc

/-- An element of a document. -/
structure Node where
  kind : String
  attributes : List (String × String) := []
  children : List Node := []
  text : Option String := none
  deriving Inhabited

namespace Node

def leaf (kind : String) (attributes : List (String × String)) : Node := { kind, attributes }

def attr? (node : Node) (name : String) : Option String :=
  (node.attributes.find? fun a => a.1 == name).map Prod.snd

def required (node : Node) (name : String) : Except Fault String :=
  match node.attr? name with
  | some value => .ok value
  | none => fail (.missingRequiredChild node.kind (.attr name))

/-- Nodes of this kind are only there for people to read. -/
def isMetadataKind (kind : String) : Bool := kind == "comment" || kind == "listing"

def isMetadata (node : Node) : Bool := isMetadataKind node.kind

/-- The children that are not only there for people to read. -/
def elements (node : Node) : List Node := node.children.filter fun child => !child.isMetadata

end Node

end ClassDoc
