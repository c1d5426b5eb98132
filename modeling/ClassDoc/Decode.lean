/-
  Reading numbers off the front of bytes.
-/
import ClassDoc.Bytes
namespace ClassDoc

/-- What is left of an input, and how many bytes were taken before. -/
structure Input where
  rest : Bytes
  position : Nat := 0
  deriving DecidableEq, Inhabited

/-- Takes a value from the front of the input. -/
abbrev Decode := StateT Input (Except Fault)

namespace Decode

def problem {α : Type} (p : ReadProblem) : Decode α := fun _ => .error (.read p)

def inside {α : Type} (p : Place) (x : Decode α) : Decode α := fun s => within p (x s)

/-! ## Numbers -/

def byteOf (number : String) : Decode UInt8
  | ⟨a :: rest, n⟩ => .ok (a, ⟨rest, n + 1⟩)
  | _ => .error (.read (.endOfInput number))

def twoOf (number : String) : Decode UInt16
  | ⟨a :: b :: rest, n⟩ => .ok (a.toUInt16 <<< 8 ||| b.toUInt16, ⟨rest, n + 2⟩)
  | _ => .error (.read (.endOfInput number))

def fourOf (number : String) : Decode UInt32
  | ⟨a :: b :: c :: d :: rest, n⟩ =>
    .ok (a.toUInt32 <<< 24 ||| b.toUInt32 <<< 16 ||| c.toUInt32 <<< 8 ||| d.toUInt32, ⟨rest, n + 4⟩)
  | _ => .error (.read (.endOfInput number))

def eightOf (number : String) : Decode UInt64 := do
  let high ← fourOf number
  let low ← fourOf number
  return high.toUInt64 <<< 32 ||| low.toUInt64

def u1 : Decode UInt8 := byteOf "u8"
def u2 : Decode UInt16 := twoOf "u16"
def u4 : Decode UInt32 := fourOf "u32"
def i1 : Decode Int8 := do return (← byteOf "i8").toInt8
def i2 : Decode Int16 := do return (← twoOf "i16").toInt16
def i4 : Decode Int32 := do return (← fourOf "i32").toInt32
def i8 : Decode Int64 := do return (← eightOf "i64").toInt64

/-! ## Bytes -/

def bytes (size : Nat) : Decode Bytes := fun s =>
  let taken := s.rest.take size
  if taken.length < size then .error (.read (.shortInput size taken.length))
  else .ok (taken, ⟨s.rest.drop size, s.position + size⟩)

/-- Skips bytes, which need not be there. -/
def skip (size : Nat) : Decode Unit := fun s => .ok ((), ⟨s.rest.drop size, s.position + size⟩)

/-! ## Lists -/

/-- Repeats a computation; `found` holds the results so far in reverse. -/
def timesFrom {α : Type} (x : Decode α) : (count : Nat) → (found : List α) → Decode (List α)
  | 0, found => fun s => .ok (found.reverse, s)
  | count + 1, found => fun s =>
    match x s with
    | .ok (a, s) => timesFrom x count (a :: found) s
    | .error f => .error f

def times {α : Type} (count : Nat) (x : Decode α) : Decode (List α) := timesFrom x count []

def list {α : Type} (x : Decode α) : Decode (List α) := do times (← u2).toNat x

def shortList {α : Type} (x : Decode α) : Decode (List α) := do times (← u1).toNat x

end Decode

end ClassDoc
