/-
  Writing events as XML.

  Each element starts on a line of its own, indented by its depth, but directly behind the text of its parent. An
  element without content is one tag. The end tag is on a line of its own if an element came before it.
-/
import ClassDoc.Xml.Event
import ClassDoc.Xml.Text
namespace ClassDoc.Xml

/-- What was written last into an open element. -/
inductive Last where
  | nothing
  | text
  | element
  deriving DecidableEq

/-- The text so far, and what is in the open elements, the innermost first. -/
structure Rendering where
  out : String
  stack : List Last := []

def newLine (depth : Nat) : String := "\n" ++ String.join (List.replicate depth "  ")

def escaped (escape : Char → String) (s : String) : String :=
  s.toList.foldl (fun out c => out ++ escape c) ""

def attributeText (a : String × String) : String :=
  " " ++ a.1 ++ "=\"" ++ escaped escapeAttribute a.2 ++ "\""

/-- What ends the start tag of the innermost element, if its content starts now. -/
def tagEnd : List Last → String
  | .nothing :: _ => ">"
  | _ => ""

/-- The stack after something was written into the innermost element. -/
def wrote (last : Last) : List Last → List Last
  | [] => []
  | _ :: rest => last :: rest

/-- Writes an event. -/
def Rendering.step (r : Rendering) : Event String → Rendering
  | .start kind attributes =>
    let line := if r.stack.head? = some .text then "" else newLine r.stack.length
    { out := r.out ++ tagEnd r.stack ++ line ++ "<" ++ kind ++ String.join (attributes.map attributeText)
      stack := .nothing :: wrote .element r.stack }
  | .text s =>
    { out := r.out ++ tagEnd r.stack ++ escaped escapeText s
      stack := wrote .text r.stack }
  | .stop kind =>
    let rest := r.stack.drop 1
    match r.stack.head? with
    | some .nothing => { out := r.out ++ " />", stack := rest }
    | some .element => { out := r.out ++ newLine rest.length ++ "</" ++ kind ++ ">", stack := rest }
    | _ => { out := r.out ++ "</" ++ kind ++ ">", stack := rest }

/-- What a document starts with. -/
def declaration : String := "<?xml version=\"1.0\" encoding=\"UTF-8\"?>"

/-- The events as text. -/
def render (events : List (Event String)) : String :=
  (events.foldl Rendering.step { out := declaration }).out

end ClassDoc.Xml
