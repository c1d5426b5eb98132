/-
  Quoted text in messages and listings.

  A quoted text stands between `"`, a quoted character between `'`. The quote in use, the backslash, zero, tab and
  line ends are written with a backslash, characters without a visible form as `\u{hex}`, all others as they are.
-/
import ClassDoc.Text.Hex
import ClassDoc.Text.Invisible
import ClassDoc.Text.JavaText
namespace ClassDoc.Quoted

def byNumber (n : Nat) : String :=
  "\\u\x7b" ++ Hex.lower n ++ "\x7d"

def escape (quote c : Char) : String :=
  if c = '\x00' then "\\0"
  else if c = '\t' then "\\t"
  else if c = '\r' then "\\r"
  else if c = '\n' then "\\n"
  else if c = '\\' then "\\\\"
  else if c = quote then "\\" ++ String.singleton c
  else if Invisible.test c then byNumber c.toNat
  else String.singleton c

def text (s : String) : String :=
  "\"" ++ String.join (s.toList.map (escape '"')) ++ "\""

def char (c : Char) : String :=
  "'" ++ escape '\'' c ++ "'"

/-- A text of a class file between double quotes, surrogates without a partner by their number. -/
def javaText (t : JavaText) : String :=
  "\"" ++ String.join (t.pieces.map piece) ++ "\""
where
  piece : JavaText.Piece → String
    | .char c => escape '"' c
    | .lone u => byNumber u.toNat

end ClassDoc.Quoted
