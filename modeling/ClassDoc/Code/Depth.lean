/-
  The room the code of a method needs.
-/
import ClassDoc.Access
import ClassDoc.Code.Item
import ClassDoc.Fault.Basic
namespace ClassDoc

/-! ## Instructions -/

def conversionEffects : List Int := [1, 0, 1, -1, -1, 0, 0, 1, 1, -1, 0, -1, 0, 0, 0]

def comparisonEffects : List Int := [-3, -1, -1, -3, -3]

/-- The change of the stack by an instruction without operands, if it is one. -/
def simpleEffect (op : Opcode) : Option Int :=
  let n := op.toNat
  let within (low high : Nat) : Bool := low ≤ n && n ≤ high
  if n = 0x00 then some 0
  else if within 0x01 0x08 || within 0x0b 0x0d then some 1
  else if within 0x09 0x0a || within 0x0e 0x0f then some 2
  -- arrays
  else if n = 0x2f || n = 0x31 then some 0
  else if within 0x2e 0x35 then some (-1)
  else if n = 0x50 || n = 0x52 then some (-4)
  else if within 0x4f 0x56 then some (-3)
  -- the stack itself
  else if n = 0x57 then some (-1)
  else if n = 0x58 then some (-2)
  else if within 0x59 0x5b then some 1
  else if within 0x5c 0x5e then some 2
  else if n = 0x5f then some 0
  -- arithmetic, of which every second one is on wide numbers
  else if within 0x60 0x73 then some (if (n - 0x60) % 2 = 0 then -1 else -2)
  else if within 0x74 0x77 then some 0
  -- the shifts by an int, then and, or and xor
  else if within 0x78 0x83 then some (if n - 0x78 < 6 || (n - 0x78) % 2 = 0 then -1 else -2)
  else if within 0x85 0x93 then conversionEffects[n - 0x85]?
  else if within 0x94 0x98 then comparisonEffects[n - 0x94]?
  -- leaving the method
  else if n = 0xac || n = 0xae || n = 0xb0 then some (-1)
  else if n = 0xad || n = 0xaf then some (-2)
  else if n = 0xb1 then some 0
  -- the length of an array, throwing, monitors
  else if n = 0xbe then some 0
  else if n = 0xbf || n = 0xc2 || n = 0xc3 then some (-1)
  else none

def variableEffect (op : Opcode) : Int :=
  if op == Opcode.iload || op == Opcode.fload || op == Opcode.aload then 1
  else if op == Opcode.lload || op == Opcode.dload then 2
  else if op == Opcode.istore || op == Opcode.fstore || op == Opcode.astore then -1
  else if op == Opcode.lstore || op == Opcode.dstore then -2
  else 0

/-- The change of the stack by an access of a field that takes `size` slots. -/
def fieldEffect (op : Opcode) (size : Int) : Int :=
  if op == Opcode.getstatic then size
  else if op == Opcode.putstatic then -size
  else if op == Opcode.getfield then size - 1
  else -size - 1

def jumpEffect (op : Opcode) : Int :=
  if op == Opcode.goto then 0
  else if op == Opcode.jsr then 1
  else if Opcode.within op Opcode.ifeq Opcode.ifle || op == Opcode.ifnull || op == Opcode.ifnonnull then -1
  else -2

/-- The change of the stack by a call, the receiver aside. -/
def callEffect (descriptor : String) : Except Fault Int := do
  let arguments ← ofDescriptor (Descriptor.argumentSlots descriptor)
  let result ← ofDescriptor (Descriptor.returnSlots descriptor)
  return (result : Int) - arguments

def Insn.stackEffect {L : Type} : Insn L → Except Fault Int
  | simple op =>
    match simpleEffect op with
    | some effect => .ok effect
    | none => .error (.write (.notSimple op))
  | int op _ => .ok (if op == Opcode.newarray then 0 else 1)
  | var op _ => .ok (variableEffect op)
  | type op _ => .ok (if op == Opcode.newObject then 1 else 0)
  | field op _ _ descriptor => .ok (fieldEffect op (Descriptor.slots descriptor))
  | method op _ _ descriptor _ => do
    let effect ← callEffect descriptor
    return if op == Opcode.invokestatic then effect else effect - 1
  | invokeDynamic _ descriptor _ _ => callEffect descriptor
  | jump op _ => .ok (jumpEffect op)
  | ldc constant => .ok (if constant.isWide then 2 else 1)
  | iinc _ _ => .ok 0
  | tableSwitch _ _ _ _ | lookupSwitch _ _ => .ok (-1)
  | multiANewArray _ dimensions => .ok (1 - (dimensions.toNat : Int))

/-! ## The stack -/

def labelPlaces (items : List Item) : Std.HashMap Label Nat :=
  items.zipIdx.foldl (fun places (item, i) => match item with
    | .label l => places.insert l i
    | _ => places) {}

def placeOf (places : Std.HashMap Label Nat) (l : Label) : Except Fault Nat :=
  match places[l]? with
  | some i => .ok i
  | none => .error (.write (.undefinedLabel l))

/-- Follows the code from the item at `index` with `depth` slots on the stack, then from the starts in `work`, the first
one first. An item that was visited is not visited again; behind the last item a path ends. The result is the largest
depth. Each step visits an item or takes a start off `work`, and starts are only added for the targets of visited
items. -/
def deepest (items : Array Item) (places : Std.HashMap Label Nat) : (fuel : Nat) → (index : Nat) → (depth : Int) →
    (work : List (Nat × Int)) → (visited : Array Bool) → (max : Int) → Except Fault Int
  | 0, _, _, _, _, max => .ok max
  | fuel + 1, index, depth, work, visited, max =>
    if visited[index]?.getD true then
      match work with
      | [] => .ok max
      | (start, startDepth) :: work => deepest items places fuel start startDepth work visited max
    else
      let visited := visited.setIfInBounds index true
      match items[index]? with
      | some (.insn insn) => do
        let after := depth + (← insn.stackEffect)
        if after < 0 then .error (.write (.underflow insn))
        else
          let targets ← insn.targets.mapM (placeOf places)
          let work := targets.foldl (fun work target => (target, after) :: work) work
          let max := Max.max max (Max.max depth after)
          -- a subroutine leaves the stack as it was before the jump to it
          if Opcode.endsBlock insn.opcode then deepest items places fuel items.size 0 work visited max
          else
            let depth := if insn.opcode == Opcode.jsr then depth else after
            deepest items places fuel (index + 1) depth work visited max
      | _ => deepest items places fuel (index + 1) depth work visited max

/-- The number of steps it takes to follow all paths. -/
def pathSteps (items : List Item) (handlers : List Label) : Nat :=
  let targets := (items.filterMap Item.insn?).map fun insn => insn.targets.length
  2 * (items.length + handlers.length + targets.foldl (· + ·) 0 + 2)

def maxStack (items : List Item) (handlers : List Label) : Except Fault UInt16 := do
  let places := labelPlaces items
  let starts ← handlers.mapM (placeOf places)
  let work := starts.foldl (fun work start => (start, 1) :: work) [(0, 0)]
  let visited := Array.replicate items.length false
  let max ← deepest items.toArray places (pathSteps items handlers) items.length 0 work visited 0
  if max < 0x10000 then return UInt16.ofNat max.toNat else .error (.write (.maxStack max.toNat))

/-! ## Local variables -/

/-- The first variable behind those an item uses. -/
def Item.localsEnd : Item → Nat
  | insn (.var op index) =>
    let wide := op == Opcode.lload || op == Opcode.dload || op == Opcode.lstore || op == Opcode.dstore
    index.toNat + (if wide then 2 else 1)
  | insn (.iinc index _) => index.toNat + 1
  | _ => 0

def maxLocals (access : UInt16) (descriptor : String) (items : List Item) (locals : List LocalVariable) :
    Except Fault UInt16 := do
  let arguments ← ofDescriptor (Descriptor.argumentSlots descriptor)
  let receiver := if Access.has access Access.static then 0 else 1
  let used := items.foldl (fun n item => max n item.localsEnd) (arguments + receiver)
  let named := locals.foldl (fun n v => max n (v.index.toNat + Descriptor.slots v.descriptor)) used
  if named < 0x10000 then return UInt16.ofNat named else .error (.write (.maxLocals named))

end ClassDoc
