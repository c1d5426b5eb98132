/-
  The one line text of a value, as it stands in messages.

  A record is `Name { field: value }`, a tagged value `Name(a, b)`, a list `[a, b]`, and a text is quoted. `Literal`
  is the class of types that have such a text.
-/
import ClassDoc.Decimal.Shortest
import ClassDoc.Text.Quoted
namespace ClassDoc

/-- Values with a text that messages show. -/
class Literal (α : Type) where
  literal : α → String

export Literal (literal)

/-- The bits of a binary floating point number of 32 bits. -/
structure Single where
  bits : UInt32
  deriving DecidableEq, Hashable, Inhabited

/-- The bits of a binary floating point number of 64 bits. -/
structure Double where
  bits : UInt64
  deriving DecidableEq, Hashable, Inhabited

namespace Literal

def commas (items : List String) : String := String.intercalate ", " items

def record (name : String) (fields : List (String × String)) : String :=
  name ++ " \x7b " ++ commas (fields.map fun f => f.1 ++ ": " ++ f.2) ++ " \x7d"

def tagged (name : String) (args : List String) : String :=
  name ++ "(" ++ commas args ++ ")"

def list (items : List String) : String := "[" ++ commas items ++ "]"

/-! ## Floating point -/

/-- What decides the text of a floating point number: how many bits hold the fraction and the exponent. -/
structure FloatFormat where
  fraction : Nat
  exponent : Nat

/-- Digits around a decimal point, at least one on each side. -/
def positional (d : Decimal.Digits) : String :=
  let n := d.digits.length
  if d.exponent ≤ 0 then "0." ++ String.ofList (List.replicate (-d.exponent).toNat '0' ++ d.digits)
  else
    let e := d.exponent.toNat
    if n ≤ e then String.ofList (d.digits ++ List.replicate (e - n) '0') ++ ".0"
    else String.ofList (d.digits.take e) ++ "." ++ String.ofList (d.digits.drop e)

/-- One digit before the point, none after it if there are no more, and the power of ten. -/
def scientific (d : Decimal.Digits) : String :=
  let tail := d.digits.drop 1
  String.ofList (d.digits.take 1) ++ (if tail.isEmpty then "" else "." ++ String.ofList tail)
    ++ "e" ++ toString (d.exponent - 1)

/-- Numbers from a ten thousandth up to `10^16` are written positionally, others with a power of ten. -/
def decimal (d : Decimal.Digits) : String :=
  if -3 ≤ d.exponent ∧ d.exponent ≤ 16 then positional d else scientific d

def float (format : FloatFormat) (bits : Nat) : String :=
  let fraction := bits % Nat.pow 2 format.fraction
  let exponent := bits / Nat.pow 2 format.fraction % Nat.pow 2 format.exponent
  let sign := if bits / Nat.pow 2 (format.fraction + format.exponent) % 2 = 1 then "-" else ""
  let top := Nat.pow 2 format.exponent - 1
  if exponent = top then (if fraction = 0 then sign ++ "inf" else "NaN")
  else if exponent = 0 ∧ fraction = 0 then sign ++ "0.0"
  else
    let least : Int := 2 - Nat.pow 2 (format.exponent - 1) - format.fraction
    let n : Decimal.Binary :=
      if exponent = 0 then ⟨fraction, least, false⟩
      else ⟨Nat.pow 2 format.fraction + fraction, least + (exponent - 1 : Nat), fraction = 0 ∧ exponent > 1⟩
    sign ++ decimal n.shortest

end Literal

instance : Literal Single := ⟨fun f => Literal.float ⟨23, 8⟩ f.bits.toNat⟩
instance : Literal Double := ⟨fun f => Literal.float ⟨52, 11⟩ f.bits.toNat⟩
instance : Literal String := ⟨Quoted.text⟩
instance : Literal JavaText := ⟨Quoted.javaText⟩
instance : Literal Bool := ⟨fun b => if b then "true" else "false"⟩
instance : Literal Nat := ⟨toString⟩
instance : Literal UInt8 := ⟨fun n => toString n.toNat⟩
instance : Literal UInt16 := ⟨fun n => toString n.toNat⟩
instance : Literal UInt32 := ⟨fun n => toString n.toNat⟩
instance : Literal UInt64 := ⟨fun n => toString n.toNat⟩
instance : Literal Int8 := ⟨fun n => toString n.toInt⟩
instance : Literal Int16 := ⟨fun n => toString n.toInt⟩
instance : Literal Int32 := ⟨fun n => toString n.toInt⟩
instance : Literal Int64 := ⟨fun n => toString n.toInt⟩

instance {α : Type} [Literal α] : Literal (List α) := ⟨fun xs => Literal.list (xs.map literal)⟩

instance {α : Type} [Literal α] : Literal (Option α) :=
  ⟨fun | some x => Literal.tagged "Some" [literal x] | none => "None"⟩

instance {α β : Type} [Literal α] [Literal β] : Literal (α × β) :=
  ⟨fun p => "(" ++ literal p.1 ++ ", " ++ literal p.2 ++ ")"⟩

end ClassDoc
