/-
  Text of class files.

  A string constant of a class file is a sequence of 16 bit units (UTF-16), in which surrogates need
  not come in pairs. `JavaText` keeps the units, so every string constant is a value, and a high unit
  followed by a low one is the same as the character they stand for.
-/
namespace ClassDoc

/-- A text of any 16-bit units, lone surrogates among them. -/
structure JavaText where
  units : List UInt16
  deriving DecidableEq, Hashable, Inhabited

namespace JavaText

/-! ## Units and characters -/

def isHigh (u : UInt16) : Bool := 0xD800 ≤ u && u ≤ 0xDBFF

def isLow (u : UInt16) : Bool := 0xDC00 ≤ u && u ≤ 0xDFFF

/-- The units of one character: itself, or a surrogate pair above U+FFFF. -/
def unitsOf (c : Char) : List UInt16 :=
  if c.toNat < 0x10000 then [UInt16.ofNat c.toNat]
  else
    let n := c.toNat - 0x10000
    [UInt16.ofNat (0xD800 + n / 0x400), UInt16.ofNat (0xDC00 + n % 0x400)]

def join (high low : UInt16) : Char :=
  Char.ofNat (0x10000 + (high.toNat - 0xD800) * 0x400 + (low.toNat - 0xDC00))

/-- A unit that stands alone, or a character. -/
inductive Piece where
  | char (c : Char)
  | lone (u : UInt16)
  deriving DecidableEq

def Piece.char? : Piece → Option Char
  | .char c => some c
  | .lone _ => none

/-- The characters of a sequence of units, with the surrogates that have no partner. -/
def piecesOf (units : List UInt16) : List Piece :=
  go [] units
where
  /-- `acc` holds the pieces found so far, the last one first. -/
  go (acc : List Piece) : List UInt16 → List Piece
    | [] => acc.reverse
    | [u] =>
      if isHigh u || isLow u then (Piece.lone u :: acc).reverse
      else (Piece.char (Char.ofNat u.toNat) :: acc).reverse
    | u :: v :: rest =>
      if isHigh u && isLow v then go (.char (join u v) :: acc) rest
      else if isHigh u || isLow u then go (.lone u :: acc) (v :: rest)
      else go (.char (Char.ofNat u.toNat) :: acc) (v :: rest)

def pieces (t : JavaText) : List Piece := piecesOf t.units

def ofString (s : String) : JavaText := ⟨s.toList.flatMap unitsOf⟩

def toString? (t : JavaText) : Option String :=
  (t.pieces.mapM Piece.char?).map String.ofList

/-! ## Modified UTF-8 -/

/-- The bytes of one unit. Zero takes two bytes, so that no byte is zero. -/
def encodeUnit (u : UInt16) : List UInt8 :=
  let n := u.toNat
  if n ≠ 0 ∧ n < 0x80 then [UInt8.ofNat n]
  else if n < 0x800 then [UInt8.ofNat (0xC0 + n / 0x40), UInt8.ofNat (0x80 + n % 0x40)]
  else
    [UInt8.ofNat (0xE0 + n / 0x1000), UInt8.ofNat (0x80 + n / 0x40 % 0x40), UInt8.ofNat (0x80 + n % 0x40)]

def encode (t : JavaText) : List UInt8 := t.units.flatMap encodeUnit

def isTail (b : UInt8) : Bool := 0x80 ≤ b && b ≤ 0xBF

def unit2 (a b : UInt8) : UInt16 :=
  UInt16.ofNat ((a.toNat - 0xC0) * 0x40 + (b.toNat - 0x80))

def unit3 (a b c : UInt8) : UInt16 :=
  UInt16.ofNat ((a.toNat - 0xE0) * 0x1000 + (b.toNat - 0x80) * 0x40 + (c.toNat - 0x80))

/-- The bytes `a b c` are a three byte sequence that could not be shorter. -/
def isThree (a b c : UInt8) : Bool :=
  0xE0 ≤ a && a ≤ 0xEF && isTail b && isTail c && (a != 0xE0 || 0xA0 ≤ b)

/-- The bytes `a b` are a two byte sequence that could not be shorter. -/
def isTwo (a b : UInt8) : Bool := 0xC2 ≤ a && a ≤ 0xDF && isTail b

/-- Reads one item after the other until the input is used up. A step takes at least one byte, so there are
at most as many steps as bytes, which is what callers give as `fuel`; `acc` holds the items so far, the last
one first. -/
def drain {α : Type} (step : List UInt8 → Option (α × List UInt8)) :
    (fuel : Nat) → (acc : List α) → List UInt8 → Option (List α)
  | _, acc, [] => some acc.reverse
  | 0, _, _ :: _ => none
  | fuel + 1, acc, b :: bytes =>
    match step (b :: bytes) with
    | some (item, rest) => drain step fuel (item :: acc) rest
    | none => none

/-- The first unit of modified UTF-8: no zero byte, `C0 80` for zero, no sequences of four bytes. -/
def modifiedStep : List UInt8 → Option (UInt16 × List UInt8)
  | [] => none
  | a :: rest =>
    if a != 0 && a < 0x80 then some (a.toUInt16, rest)
    else match rest with
      | [] => none
      | b :: rest =>
        if a == 0xC0 && b == 0x80 then some (0, rest)
        else if isTwo a b then some (unit2 a b, rest)
        else match rest with
          | [] => none
          | c :: rest => if isThree a b c then some (unit3 a b c, rest) else none

def decodeModified? (bytes : List UInt8) : Option (List UInt16) :=
  drain modifiedStep bytes.length [] bytes

/-! ## Plain UTF-8 -/

/-- The bytes `a b c d` are a four byte sequence for a character above U+FFFF. -/
def isFour (a b c d : UInt8) : Bool :=
  0xF0 ≤ a && a ≤ 0xF4 && isTail b && isTail c && isTail d && (a != 0xF0 || 0x90 ≤ b) && (a != 0xF4 || b ≤ 0x8F)

def char4 (a b c d : UInt8) : Char :=
  Char.ofNat ((a.toNat - 0xF0) * 0x40000 + (b.toNat - 0x80) * 0x1000 + (c.toNat - 0x80) * 0x40 + (d.toNat - 0x80))

def charOf (u : UInt16) : Char := Char.ofNat u.toNat

def utf8Step : List UInt8 → Option (Char × List UInt8)
  | [] => none
  | a :: rest =>
    if a < 0x80 then some (charOf a.toUInt16, rest)
    else match rest with
      | [] => none
      | b :: rest =>
        if isTwo a b then some (charOf (unit2 a b), rest)
        else match rest with
          | [] => none
          | c :: rest =>
            if isThree a b c then
              let u := unit3 a b c
              if isHigh u || isLow u then none else some (charOf u, rest)
            else match rest with
              | [] => none
              | d :: rest => if isFour a b c d then some (char4 a b c d, rest) else none

def decodeUtf8? (bytes : List UInt8) : Option (List Char) :=
  drain utf8Step bytes.length [] bytes

/-- The text of bytes from a class file: plain UTF-8, or else modified UTF-8. -/
def decode? (bytes : List UInt8) : Option JavaText :=
  match decodeUtf8? bytes with
  | some cs => some ⟨cs.flatMap unitsOf⟩
  | none => (decodeModified? bytes).map JavaText.mk

end JavaText

end ClassDoc
