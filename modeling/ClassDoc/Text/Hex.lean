/-
  Hexadecimal text.
-/
namespace ClassDoc.Hex

def digit (n : Nat) : Char :=
  if n < 10 then Char.ofNat (48 + n) else Char.ofNat (55 + n)

def value? (c : Char) : Option Nat :=
  if '0' ≤ c ∧ c ≤ '9' then some (c.toNat - 48)
  else if 'A' ≤ c ∧ c ≤ 'F' then some (c.toNat - 55)
  else if 'a' ≤ c ∧ c ≤ 'f' then some (c.toNat - 87)
  else none

/-- The last `w` digits of `n`, high ones first. -/
def fixed : Nat → Nat → List Char
  | 0, _ => []
  | w + 1, n => fixed w (n / 16) ++ [digit (n % 16)]

def isDigit (c : Char) : Bool :=
  (value? c).isSome

/-- A digit as `fixed` writes it. -/
def isUpperDigit (c : Char) : Bool :=
  ('0' ≤ c ∧ c ≤ '9') ∨ ('A' ≤ c ∧ c ≤ 'F')

/-- The number that digits stand for, or `none` if one of the characters is no digit. -/
def toNat? (cs : List Char) : Option Nat :=
  cs.foldl (fun acc c => do let n ← acc; let d ← value? c; pure (n * 16 + d)) (some 0)

def ofBytes (bytes : List UInt8) : String :=
  String.ofList (bytes.flatMap fun b => fixed 2 b.toNat)

def toBytes? (cs : List Char) : Option (List UInt8) :=
  go [] cs
where
  /-- `acc` holds the bytes read so far, the last one first. -/
  go (acc : List UInt8) : List Char → Option (List UInt8)
    | [] => some acc.reverse
    | [_] => none
    | a :: b :: rest =>
      match value? a, value? b with
      | some x, some y => go (UInt8.ofNat (x * 16 + y) :: acc) rest
      | _, _ => none

def lower (n : Nat) : String :=
  String.ofList (Nat.toDigits 16 n)

/-- Lower case digits after `0x`, at least `width` of them. -/
def tagged (width n : Nat) : String :=
  let ds := Nat.toDigits 16 n
  "0x" ++ String.ofList (List.replicate (width - ds.length) '0' ++ ds)

end ClassDoc.Hex
