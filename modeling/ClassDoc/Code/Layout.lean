/-
  Layout: where each item of the code comes to stand.

  The size of an instruction depends on its position (switches are aligned), on the pool (constants with a large index
  take more room) and on whether it is a jump that has to be wide. Jumps start short; those that turn out to be too
  long are made wide, and all positions are computed again until every jump fits.
-/
import ClassDoc.Code.Item
import ClassDoc.Pool.Basic
namespace ClassDoc

/-! ## Sizes -/

/-- The padding after the opcode of a switch, so that what follows starts at a multiple of four. -/
def switchPadding (pc : Nat) : Nat := 3 - pc % 4

/-- The loads and stores of the first variables have an opcode each. -/
def hasCompactForm (op : Opcode) (index : UInt16) : Bool :=
  index < 4 && (Opcode.within op Opcode.iload Opcode.aload || Opcode.within op Opcode.istore Opcode.astore)

def fitsIinc (index : UInt16) (increment : Int16) : Bool :=
  index < 256 && (-128 ≤ increment && increment ≤ 127)

def Insn.size (pc : Nat) (wide : Bool) : Insn Label → PoolM Nat
  | simple _ => pure 1
  | int op _ => pure (if op == Opcode.sipush then 3 else 2)
  | var op index => pure (if hasCompactForm op index then 1 else if index < 256 then 2 else 4)
  | type _ _ | field _ _ _ _ => pure 3
  | method op _ _ _ _ => pure (if op == Opcode.invokeinterface then 5 else 3)
  | invokeDynamic _ _ _ _ => pure 5
  | jump op _ => pure (if !wide then 3 else if op == Opcode.goto || op == Opcode.jsr then 5 else 8)
  | ldc constant => if constant.isWide then pure 3 else do
      let index ← Pool.constant constant
      return if index < 256 then 2 else 3
  | iinc index increment => pure (if fitsIinc index increment then 3 else 6)
  | tableSwitch _ _ _ targets => pure (1 + switchPadding pc + 12 + 4 * targets.length)
  | lookupSwitch _ pairs => pure (1 + switchPadding pc + 8 + 8 * pairs.length)
  | multiANewArray _ _ => pure 4

/-! ## Placing -/

/-- An item and where it is in the code. -/
structure Placed where
  item : Item
  /-- The item is a jump with an offset of 32 bits. -/
  wide : Bool
  offset : Nat
  deriving Inhabited

/-- The items of a code in place, and where its labels are. -/
structure Layout where
  items : List Placed := []
  labels : Std.HashMap Label Nat := {}
  length : Nat := 0

namespace Layout

/-- Places one more item at the end; the items are in reverse. -/
def place (layout : Layout) (x : Item × Bool) : PoolM Layout := do
  let items := ⟨x.1, x.2, layout.length⟩ :: layout.items
  match x.1 with
  | .label l =>
    if layout.labels.contains l then throw (.write (.definedTwice l))
    else return { layout with items, labels := layout.labels.insert l layout.length }
  | .frame _ => return { layout with items }
  | .insn i =>
    let size ← i.size layout.length x.2
    return { layout with items, length := layout.length + size }

def round (items : List (Item × Bool)) : PoolM Layout := do
  let layout ← items.foldlM place {}
  return { layout with items := layout.items.reverse }

def position (layout : Layout) (l : Label) : Except Fault Nat :=
  match layout.labels[l]? with
  | some offset => .ok offset
  | none => .error (.write (.undefinedLabel l))

def offset (layout : Layout) (l : Label) : Except Fault UInt16 := do
  let offset ← layout.position l
  if offset < 0x10000 then return UInt16.ofNat offset else .error (.write (.labelOffset offset l))

def distance (layout : Layout) (start : Nat) (l : Label) : Except Fault Int := do
  return (← layout.position l : Int) - start

/-! ## Widening -/

def isShort (distance : Int) : Bool := -0x8000 ≤ distance && distance < 0x8000

/-- Whether an item has to be a wide jump. Wide jumps stay wide. -/
def mustBeWide (layout : Layout) (x : Placed) : Except Fault Bool :=
  match x.item with
  | .insn (.jump _ target) =>
    if x.wide then .ok true else do return !isShort (← layout.distance x.offset target)
  | _ => .ok x.wide

def widen (layout : Layout) : Except Fault (List (Item × Bool)) :=
  layout.items.mapM fun x => do return (x.item, ← layout.mustBeWide x)

def isSettled (layout : Layout) (widened : List (Item × Bool)) : Bool :=
  layout.items.map Placed.wide == widened.map Prod.snd

/-- Places items again until no more jump has to be wide. Each round but the last makes at least one jump wide, so the
number of items is enough `fuel`. -/
def settle : (fuel : Nat) → List (Item × Bool) → PoolM Layout
  | 0, items => round items
  | fuel + 1, items => do
    let layout ← round items
    let widened ← layout.widen
    if layout.isSettled widened then return layout else settle fuel widened

def of (items : List Item) : PoolM Layout := do
  let layout ← settle items.length (items.map fun item => (item, false))
  if layout.length = 0 ∨ layout.length ≥ 0x10000 then throw (.write (.codeLength layout.length))
  else return layout

end Layout

end ClassDoc
