/-
  Pieces of XML.

  A lexer reads one character at a time and reports the pieces that are complete. What a character means depends on the
  area it stands in. Some pieces are only known when the character behind them is seen; that character is then read
  again, on its own.
-/
import ClassDoc.Xml.Text
namespace ClassDoc.Xml

/-- What the text of a document is made of. -/
inductive Token where
  | char (c : Char)
  | tagOpen
  | closingOpen
  | instructionOpen
  | doctypeOpen
  /-- the start of a declaration in a document type -/
  | declarationOpen
  | commentOpen
  | cdataOpen
  | tagClose
  | emptyClose
  | instructionClose
  | commentClose
  | cdataClose
  | referenceOpen
  | referenceClose
  | equals
  | apostrophe
  | quote
  deriving DecidableEq

def Token.text : Token → List Char
  | char c => [c]
  | tagOpen => ['<']
  | closingOpen => ['<', '/']
  | instructionOpen => ['<', '?']
  | doctypeOpen => "<!DOCTYPE".toList
  | declarationOpen => ['<', '!']
  | commentOpen => "<!--".toList
  | cdataOpen => "<![CDATA[".toList
  | tagClose => ['>']
  | emptyClose => ['/', '>']
  | instructionClose => ['?', '>']
  | commentClose => "-->".toList
  | cdataClose => "]]>".toList
  | referenceOpen => ['&']
  | referenceClose => [';']
  | equals => ['=']
  | apostrophe => ['\'']
  | quote => ['"']

def Token.quote? : Char → Option Token
  | '"' => some quote
  | '\'' => some apostrophe
  | _ => none

/-! ## Areas -/

/-- A part of an XML text with rules of its own. -/
inductive Area where
  /-- texts and tags -/
  | content
  | doctype
  /-- a declaration in a document type -/
  | declaration
  /-- a text between quotes in such a declaration -/
  | quoted (mark : Token)
  | comment
  | cdata
  | instruction
  deriving DecidableEq

/-- The area of the next character, or what stands before it that is no token yet. -/
inductive Mode where
  | area (a : Area)
  /-- `<` -/
  | opened
  /-- `<!` -/
  | marked
  /-- `<!-` -/
  | dashed
  /-- `<![` and part of a word, of which the rest is to come -/
  | cdataWord (rest : List Char)
  /-- `<!D` and part of a word, of which the rest is to come -/
  | doctypeWord (rest : List Char)
  /-- `/` -/
  | slash
  /-- `?` in an instruction -/
  | question
  /-- `-` in a comment -/
  | dash
  /-- `--` in a comment -/
  | dashes
  /-- `]`, in CDATA or in a text -/
  | bracket (a : Area)
  /-- `]]`, in CDATA or in a text -/
  | brackets (a : Area)
  deriving DecidableEq

/-- What the next character is a part of. -/
structure Lexer where
  mode : Mode := .area .content
  /-- The document type is not complete. -/
  inDoctype : Bool := false
  deriving DecidableEq

namespace Lexer

variable (l : Lexer)

def around : Area := if l.inDoctype then .doctype else .content

def wait (mode : Mode) : Option (Lexer × List Token) := some ({ l with mode }, [])

def report (a : Area) (t : Token) : Option (Lexer × List Token) := some ({ l with mode := .area a }, [t])

def inContent (c : Char) : Option (Lexer × List Token) :=
  match c with
  | '<' => l.wait .opened
  | '>' => l.report .content .tagClose
  | '/' => l.wait .slash
  | '=' => l.report .content .equals
  | '"' => l.report .content .quote
  | '\'' => l.report .content .apostrophe
  | ']' => l.wait (.bracket .content)
  | '&' => l.report .content .referenceOpen
  | ';' => l.report .content .referenceClose
  | c => l.report .content (.char c)

/-- Reads a character of a document type outside of its declarations. -/
def inType (c : Char) : Option (Lexer × List Token) :=
  match c with
  | '>' => some ({ mode := .area .content, inDoctype := false }, [.tagClose])
  | '<' => l.wait .opened
  | '"' => l.report .doctype .quote
  | '\'' => l.report .doctype .apostrophe
  | '&' => l.report .doctype .referenceOpen
  | ';' => l.report .doctype .referenceClose
  | c => l.report .doctype (.char c)

/-- Reads a character of a declaration, in which no other markup can start. -/
def inDeclaration (c : Char) : Option (Lexer × List Token) :=
  match c with
  | '<' => none
  | '>' => l.report l.around .tagClose
  | '"' => l.report (.quoted .quote) .quote
  | '\'' => l.report (.quoted .apostrophe) .apostrophe
  | c => l.report .declaration (.char c)

def inInstruction (c : Char) : Option (Lexer × List Token) :=
  match c with
  | '?' => l.wait .question
  | '<' => l.report .instruction .tagOpen
  | '>' => l.report .instruction .tagClose
  | '/' => l.report .instruction .closingOpen
  | '=' => l.report .instruction .equals
  | '"' => l.report .instruction .quote
  | '\'' => l.report .instruction .apostrophe
  | '&' => l.report .instruction .referenceOpen
  | ';' => l.report .instruction .referenceClose
  | c => l.report .instruction (.char c)

def inArea (a : Area) (c : Char) : Option (Lexer × List Token) :=
  match a with
  | .content => l.inContent c
  | .doctype => l.inType c
  | .declaration => l.inDeclaration c
  | .quoted mark => if Token.quote? c = some mark then l.report .declaration mark else l.report a (.char c)
  | .comment => if c = '-' then l.wait .dash else l.report a (.char c)
  | .cdata => if c = ']' then l.wait (.bracket .cdata) else l.report a (.char c)
  | .instruction => l.inInstruction c

/-! ## Characters -/

/-- Reports tokens, then reads the character again in an area. -/
def again (tokens : List Token) (a : Area) (c : Char) : Option (Lexer × List Token) := do
  let (l, more) ← l.inArea a c
  return (l, tokens ++ more)

def afterOpened (c : Char) : Option (Lexer × List Token) :=
  if c = '?' then l.report .instruction .instructionOpen
  else if c = '/' then l.report l.around .closingOpen
  else if c = '!' then l.wait .marked
  else if isSpace c || isNameChar c then l.again [.tagOpen] l.around c
  else none

/-- Reads the character behind `<!`. Only document types have declarations. -/
def afterMarked (c : Char) : Option (Lexer × List Token) :=
  if c = '-' then l.wait .dashed
  else if c = '[' then l.wait (.cdataWord "CDATA[".toList)
  else if c = 'D' then l.wait (.doctypeWord "OCTYPE".toList)
  else if l.inDoctype && (c == 'E' || c == 'A' || c == 'N') then l.again [.declarationOpen] .declaration c
  else none

/-- Reads a character: the lexer behind it and the tokens that are complete, or nothing if the character cannot stand
there. -/
def feed (c : Char) : Option (Lexer × List Token) :=
  match l.mode with
  | .area a => l.inArea a c
  | .opened => l.afterOpened c
  | .marked => l.afterMarked c
  | .dashed => if c = '-' then l.report .comment .commentOpen else none
  | .cdataWord rest =>
    if rest = [c] then l.report .cdata .cdataOpen
    else if rest.head? = some c then l.wait (.cdataWord rest.tail)
    else none
  | .doctypeWord rest =>
    if rest = [c] then some ({ mode := .area .doctype, inDoctype := true }, [.doctypeOpen])
    else if rest.head? = some c then l.wait (.doctypeWord rest.tail)
    else none
  | .slash => if c = '>' then l.report .content .emptyClose else l.again [.char '/'] .content c
  | .question =>
    if c = '>' then l.report l.around .instructionClose else l.again [.char '?'] .instruction c
  | .dash => if c = '-' then l.wait .dashes else l.again [.char '-'] .comment c
  | .dashes => if c = '>' then l.report l.around .commentClose else none
  | .bracket a => if c = ']' then l.wait (.brackets a) else l.again [.char ']'] a c
  | .brackets a =>
    if c = '>' then l.report .content .cdataClose
    else if c = ']' then some (l, [.char ']'])
    else l.again [.char ']', .char ']'] a c

end Lexer

end ClassDoc.Xml
