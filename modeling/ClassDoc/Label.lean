/-
  Labels: symbolic positions in the code of a method.
-/
import ClassDoc.Literal
import Std.Data.HashMap
namespace ClassDoc

/-- A position in a code, by its number. -/
structure Label where
  id : UInt32
  deriving DecidableEq, Hashable, Inhabited

instance : Literal Label := ⟨fun l => Literal.tagged "Label" [literal l.id]⟩

namespace Label

def text (l : Label) : String := "L" ++ toString l.id.toNat

/-- Why a text is no label. -/
inductive Problem where
  | noLetter
  | noDigits
  | leadingZero
  | tooLarge
  deriving DecidableEq

def Problem.message : Problem → String
  | noLetter => "doesn't start with `L`"
  | noDigits => "expected decimal digits after `L`"
  | leadingZero => "leading zeros are not allowed"
  | tooLarge => "label id out of range"

def number (digits : List Char) : Nat :=
  digits.foldl (fun n c => n * 10 + (c.toNat - 48)) 0

def parse (s : String) : Except Problem Label :=
  match s.toList with
  | 'L' :: digits =>
    if digits.isEmpty || !digits.all Char.isDigit then .error .noDigits
    else if digits.length > 1 && digits.head? == some '0' then .error .leadingZero
    else if number digits < 0x100000000 then .ok ⟨UInt32.ofNat (number digits)⟩
    else .error .tooLarge
  | _ => .error .noLetter

/-- Labels in the order in which they are numbered. -/
def firsts (count : Nat) : List Label :=
  (List.range count).map fun n => ⟨UInt32.ofNat n⟩

/-! ## Numbering -/

/-- The labels met so far, with the number each one got. -/
structure Numbering where
  ids : Std.HashMap Label Label := {}
  next : UInt32 := 0

/-- The number of a label, a fresh one if it was not met before. -/
def Numbering.get (l : Label) : StateM Numbering Label := fun numbering =>
  match numbering.ids[l]? with
  | some id => (id, numbering)
  | none => (⟨numbering.next⟩, ⟨numbering.ids.insert l ⟨numbering.next⟩, numbering.next + 1⟩)

end Label

end ClassDoc
