/-
  The shortest decimal of a binary number.

  A positive binary number `m · 2^q` of limited precision is the nearest such number to every real in an interval
  around it. `Binary.shortest` finds the decimal with the fewest digits in that interval, the nearest one if there
  are two, and the larger one if both are equally near.
-/
namespace ClassDoc.Decimal

/-- The positive number `mantissa · 2^exponent`. -/
structure Binary where
  mantissa : Nat
  exponent : Int
  /-- The number below is at half the distance of the number above. -/
  tight : Bool
  deriving DecidableEq

/-- The number `0.d₁d₂… · 10^exponent` for the digits `d₁ d₂ …`. -/
structure Digits where
  digits : List Char
  exponent : Int
  deriving DecidableEq

/-- `a · 10^t ≤ b · 2^s`, in whole numbers. -/
def leScaled (a : Nat) (t : Int) (b : Nat) (s : Int) : Bool :=
  a * Nat.pow 10 t.toNat * Nat.pow 2 (-s).toNat ≤ b * Nat.pow 2 s.toNat * Nat.pow 10 (-t).toNat

/-- `a · 2^s ≤ b · 10^t`, in whole numbers. -/
def geScaled (a : Nat) (s : Int) (b : Nat) (t : Int) : Bool :=
  a * Nat.pow 2 s.toNat * Nat.pow 10 (-t).toNat ≤ b * Nat.pow 10 t.toNat * Nat.pow 2 (-s).toNat

namespace Binary

/-- Four times the mantissa, so that the ends of the interval are whole multiples of `2^scale`. -/
def quarters (n : Binary) : Nat := 4 * n.mantissa

def scale (n : Binary) : Int := n.exponent - 2

/-- The ends of the interval, as multiples of `2^scale`. -/
def ends (n : Binary) : Nat × Nat :=
  (n.quarters - (if n.tight then 1 else 2), n.quarters + 2)

/-- The decimal `c · 10^t` lies in the interval of `n`, whose ends belong to it if the mantissa is even. -/
def holds (n : Binary) (c : Nat) (t : Int) : Bool :=
  let (lo, hi) := n.ends
  if n.mantissa % 2 = 0 then geScaled lo n.scale c t && leScaled c t hi n.scale
  else !leScaled c t lo n.scale && !geScaled hi n.scale c t

def quotient (n : Binary) (t : Int) : Nat :=
  (n.quarters * Nat.pow 2 n.scale.toNat * Nat.pow 10 (-t).toNat) / (Nat.pow 10 t.toNat * Nat.pow 2 (-n.scale).toNat)

/-- Not less than half a step of `10^t` above `c · 10^t`: the upper neighbour is at least as near. -/
def upperNear (n : Binary) (c : Nat) (t : Int) : Bool :=
  leScaled (2 * c + 1) t (2 * n.quarters) n.scale

/-- The number of digits before the decimal point of a number that is at least one. -/
def wholeDigits (n : Binary) : Nat := (Nat.toDigits 10 (n.quotient 0)).length

/-- How many zeros follow the decimal point, for a number below one; `fuel` bounds the search. -/
def leadingZeros (n : Binary) : (fuel : Nat) → (k : Nat) → Nat
  | 0, k => k
  | fuel + 1, k => if n.quotient (-(k : Int) - 1) = 0 then n.leadingZeros fuel (k + 1) else k

/-- The exponent `e` with `10^(e-1) ≤ n < 10^e`. -/
def magnitude (n : Binary) : Int :=
  if n.quotient 0 ≠ 0 then n.wholeDigits else -(n.leadingZeros 400 0 : Int)

/-- The neighbour of `n` with `k` digits that lies in its interval, if there is one: first the nearer one. -/
def neighbour (n : Binary) (k : Nat) : Option (Nat × Int) :=
  let t := n.magnitude - k
  let c := n.quotient t
  let below := n.holds c t
  let above := n.holds (c + 1) t
  if above && (!below || n.upperNear c t) then some (c + 1, t)
  else if below then some (c, t)
  else none

/-- Tries one digit more each time, up to `fuel` digits. -/
def search (n : Binary) : (fuel : Nat) → (k : Nat) → Nat × Int
  | 0, k => (n.quotient (n.magnitude - k), n.magnitude - k)
  | fuel + 1, k =>
    match n.neighbour k with
    | some r => r
    | none => n.search fuel (k + 1)

/-- The decimal with the fewest digits that is nearest to no other number of the same precision. -/
def shortest (n : Binary) : Digits :=
  let (c, t) := n.search 17 1
  let ds := Nat.toDigits 10 c
  -- a neighbour that is a power of ten ends in zeros
  let kept := (ds.reverse.dropWhile (· = '0')).reverse
  ⟨kept, t + ds.length⟩

end Binary

end ClassDoc.Decimal
