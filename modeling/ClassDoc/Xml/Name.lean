/-
  Names of elements and attributes, and the namespaces they are in.

  A name can have a prefix, which has to be declared by an attribute of the element or of one around it.
-/
namespace ClassDoc.Xml

/-- A name with its prefix, if it has one. -/
structure QName where
  space : Option (List Char) := none
  name : List Char := []
  deriving DecidableEq

/-- The name without its prefix. -/
def QName.localName (n : QName) : String := String.ofList n.name

/-- Splits a name at its only colon, which is at neither end. -/
def qname? (text : List Char) : Option QName :=
  match text.splitOn ':' with
  | [name] => if name.isEmpty then none else some ⟨none, name⟩
  | [space, name] => if space.isEmpty || name.isEmpty then none else some ⟨some space, name⟩
  | _ => none

/-! ## Namespaces -/

def xmlnsPrefix : List Char := "xmlns".toList

/-- The prefix that is always declared. -/
def xmlPrefix : List Char := "xml".toList

def xmlSpace : List Char := "http://www.w3.org/XML/1998/namespace".toList

def xmlnsSpace : List Char := "http://www.w3.org/2000/xmlns/".toList

/-- What an attribute declares of name spaces. -/
inductive Declares where
  /-- nothing, it is an ordinary attribute -/
  | ordinary
  | declares (space : List Char)
  | noSpace
  | invalid

def declares (name : QName) (value : List Char) : Declares :=
  if name.space = some xmlnsPrefix then
    if name.name = xmlnsPrefix then .invalid
    else if name.name = xmlPrefix && value != xmlSpace then .invalid
    else if value.isEmpty then .invalid
    else .declares name.name
  else if name.space = none && name.name = xmlnsPrefix then
    if [xmlnsPrefix, xmlPrefix, xmlSpace, xmlnsSpace].contains value then .invalid else .noSpace
  else .ordinary

def inScope (scope : List (List Char)) (name : QName) : Bool :=
  match name.space with
  | none => true
  | some space => scope.contains space

/-- The prefix of the name is one that no element can have. -/
def isReserved (name : QName) : Bool := name.space == some xmlPrefix || name.space == some xmlnsPrefix

end ClassDoc.Xml
