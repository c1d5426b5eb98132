/-
  Characters, names and references of XML.
-/
import ClassDoc.Text.Hex
namespace ClassDoc.Xml

def isSpace (c : Char) : Bool := c == ' ' || c == '\t' || c == '\n' || c == '\r'

def inRanges (ranges : List (Nat × Nat)) (c : Char) : Bool :=
  ranges.any fun r => r.1 ≤ c.toNat && c.toNat ≤ r.2

def isNameStart : Char → Bool := inRanges [
  (0x3A, 0x3A), (0x41, 0x5A), (0x5F, 0x5F), (0x61, 0x7A), (0xC0, 0xD6), (0xD8, 0xF6), (0xF8, 0x2FF), (0x370, 0x37D),
  (0x37F, 0x1FFF), (0x200C, 0x200D), (0x2070, 0x218F), (0x2C00, 0x2FEF), (0x3001, 0xD7FF), (0xF900, 0xFDCF),
  (0xFDF0, 0xFFFD), (0x10000, 0xEFFFF) ]

def isNameChar (c : Char) : Bool :=
  isNameStart c || inRanges [(0x2D, 0x2E), (0x30, 0x39), (0xB7, 0xB7), (0x300, 0x36F), (0x203F, 0x2040)] c

/-- The version of XML. -/
inductive Version where
  | v10
  | v11
  deriving DecidableEq

/-- The characters of a version. In 1.1 most control characters belong to them, but only by their numbers. -/
def isChar : Version → Char → Bool
  | .v10, c => inRanges [(0x9, 0xA), (0xD, 0xD), (0x20, 0xD7FF), (0xE000, 0xFFFD), (0x10000, 0x10FFFF)] c
  | .v11, c => inRanges [(0x1, 0xD7FF), (0xE000, 0xFFFD), (0x10000, 0x10FFFF)] c

/-- The characters that can stand for themselves in a text or a value. -/
def isLiteralChar : Version → Char → Bool
  | .v10, c => isChar .v10 c
  | .v11, c =>
    isChar .v11 c && !inRanges [(0x1, 0x8), (0xB, 0xC), (0xE, 0x1F), (0x7F, 0x84), (0x86, 0x9F)] c

/-! ## References -/

/-- The number of decimal digits, if there are any and no other characters. -/
def decimal? (digits : List Char) : Option Nat :=
  if digits.isEmpty || !digits.all Char.isDigit then none
  else some (digits.foldl (fun n c => n * 10 + (c.toNat - 48)) 0)

/-- The number of hex digits, if there are any and no other characters. -/
def hexadecimal? (digits : List Char) : Option Nat :=
  if digits.isEmpty then none else Hex.toNat? digits

/-- Digits without the plus sign that can stand before them. -/
def unsigned : List Char → List Char
  | '+' :: digits => digits
  | digits => digits

def charOf? (version : Version) (code : Nat) : Option Char :=
  if code.isValidChar && isChar version (Char.ofNat code) then some (Char.ofNat code) else none

/-- The character a number stands for, given by what follows `#`: hex digits after an `x`, else decimal digits. -/
def numbered? (version : Version) : List Char → Option Char
  | 'x' :: digits => (hexadecimal? (unsigned digits)).bind (charOf? version)
  | digits => (decimal? (unsigned digits)).bind (charOf? version)

/-- The characters that have a name in every document. -/
def named? : List Char → Option Char
  | ['l', 't'] => some '<'
  | ['g', 't'] => some '>'
  | ['a', 'm', 'p'] => some '&'
  | ['a', 'p', 'o', 's'] => some '\''
  | ['q', 'u', 'o', 't'] => some '"'
  | _ => none

/-! ## Escapes -/

def escapeAttribute (c : Char) : String :=
  if c = '<' then "&lt;" else if c = '>' then "&gt;" else if c = '"' then "&quot;" else if c = '\'' then "&apos;"
  else if c = '&' then "&amp;" else if c = '\n' then "&#xA;" else if c = '\r' then "&#xD;" else String.singleton c

def escapeText (c : Char) : String :=
  if c = '<' then "&lt;" else if c = '>' then "&gt;" else if c = '&' then "&amp;" else String.singleton c

end ClassDoc.Xml
