/-
  The constant pool of a class that is read.

  Entries are looked up by their index. What an entry refers to is looked up only when it is needed, so a pool with
  broken entries can be read as long as nothing uses them.
-/
import ClassDoc.Decode
namespace ClassDoc

/-- The constants of a class file that is read. -/
structure PoolView where
  /-- The entries by index. There is none at zero and behind wide entries. -/
  entries : Array (Option PoolEntry)
  /-- The handles of the bootstrap methods, with their arguments as indices. -/
  methods : List (Handle × List UInt16) := []

/-- The member that an entry refers to. -/
structure MemberRef where
  owner : String
  name : String
  descriptor : String
  interface : Bool
  deriving DecidableEq, Inhabited

/-! ## Reading -/

def decodeText (bytes : Bytes) : Except Fault JavaText :=
  match JavaText.decode? bytes with
  | some t => .ok t
  | none => .error (.read .notText)

def plainText (t : JavaText) : Except Fault String :=
  match t.toString? with
  | some s => .ok s
  | none => .error (.read .loneSurrogate)

def decodePair {α : Type} (f : UInt16 → UInt16 → α) : Decode α := do
  let a ← Decode.u2
  let b ← Decode.u2
  return f a b

def PoolEntry.decode (index : Nat) : Decode PoolEntry := do
  let tag ← Decode.u1
  match tag.toNat with
  | 1 => do
    let length ← Decode.u2
    return .utf8 (← decodeText (← Decode.bytes length.toNat))
  | 3 => do return .integer (← Decode.i4)
  | 4 => do return .float ⟨← Decode.u4⟩
  | 5 => do return .long (← Decode.i8)
  | 6 => do return .double ⟨(← Decode.i8).toUInt64⟩
  | 7 => do return .classRef (← Decode.u2)
  | 8 => do return .string (← Decode.u2)
  | 9 => decodePair .fieldRef
  | 10 => decodePair .methodRef
  | 11 => decodePair .interfaceMethodRef
  | 12 => decodePair .nameAndType
  | 15 => do
    let kind ← Decode.u1
    let reference ← Decode.u2
    return .methodHandle kind reference
  | 16 => do return .methodType (← Decode.u2)
  | 17 => decodePair .dynamic
  | 18 => decodePair .invokeDynamic
  | 19 => do return .module (← Decode.u2)
  | 20 => do return .package (← Decode.u2)
  | _ => Decode.problem (.poolTag tag index)

namespace PoolView

/-- Adds an entry at the end. A wide one leaves the index behind it empty. -/
def push (entries : Array (Option PoolEntry)) (entry : PoolEntry) : Array (Option PoolEntry) :=
  if entry.isWide then (entries.push (some entry)).push none else entries.push (some entry)

/-- Reads entries until there are `count` indices. Each entry takes at least one, so `count` is enough `fuel`. -/
def decodeEntries (count : Nat) : (fuel : Nat) → Array (Option PoolEntry) → Decode (Array (Option PoolEntry))
  | 0, entries => pure entries
  | fuel + 1, entries =>
    if entries.size < count then fun s =>
      match PoolEntry.decode entries.size s with
      | .ok (entry, s) => decodeEntries count fuel (push entries entry) s
      | .error f => .error f
    else pure entries

def decode : Decode PoolView := do
  let count ← Decode.u2
  return { entries := ← decodeEntries count.toNat count.toNat #[none] }

/-! ## Looking up -/

variable (pool : PoolView)

def entry (index : UInt16) : Except Fault PoolEntry :=
  match pool.entries[index.toNat]? with
  | some (some entry) => .ok entry
  | _ => .error (.read (.noEntry index))

def notEntry {α : Type} (expected : String) (entry : PoolEntry) : Except Fault α :=
  .error (.read (.notEntry expected entry))

/-- What stands at an index; zero stands for nothing. -/
def optional {α : Type} (get : UInt16 → Except Fault α) (index : UInt16) : Except Fault (Option α) :=
  if index = 0 then .ok none else do return some (← get index)

def text (index : UInt16) : Except Fault JavaText := do
  match ← pool.entry index with
  | .utf8 t => .ok t
  | entry => notEntry "Utf8" entry

def utf8 (index : UInt16) : Except Fault String :=
  within (.poolIndex index) do plainText (← pool.text index)

def classRef (index : UInt16) : Except Fault String := do
  match ← pool.entry index with
  | .classRef name => within (.poolIndex index) (pool.utf8 name)
  | entry => notEntry "Class" entry

def module (index : UInt16) : Except Fault String := do
  match ← pool.entry index with
  | .module name => within (.poolIndex index) (pool.utf8 name)
  | entry => notEntry "Module" entry

def package (index : UInt16) : Except Fault String := do
  match ← pool.entry index with
  | .package name => within (.poolIndex index) (pool.utf8 name)
  | entry => notEntry "Package" entry

def nameAndType (index : UInt16) : Except Fault (String × String) := do
  match ← pool.entry index with
  | .nameAndType name descriptor => do
    let name ← pool.utf8 name
    let descriptor ← pool.utf8 descriptor
    return (name, descriptor)
  | entry => notEntry "NameAndType" entry

def memberOf (owner member : UInt16) (interface : Bool) : Except Fault MemberRef := do
  let owner ← pool.classRef owner
  let (name, descriptor) ← pool.nameAndType member
  return { owner, name, descriptor, interface }

def memberRef (index : UInt16) : Except Fault MemberRef := do
  match ← pool.entry index with
  | .fieldRef owner member => pool.memberOf owner member false
  | .methodRef owner member => pool.memberOf owner member false
  | .interfaceMethodRef owner member => pool.memberOf owner member true
  | entry => .error (.read (.notMember entry))

def integer (index : UInt16) : Except Fault Int32 := do
  match ← pool.entry index with
  | .integer v => .ok v
  | entry => notEntry "Integer" entry

def long (index : UInt16) : Except Fault Int64 := do
  match ← pool.entry index with
  | .long v => .ok v
  | entry => notEntry "Long" entry

def float (index : UInt16) : Except Fault Single := do
  match ← pool.entry index with
  | .float v => .ok v
  | entry => notEntry "Float" entry

def double (index : UInt16) : Except Fault Double := do
  match ← pool.entry index with
  | .double v => .ok v
  | entry => notEntry "Double" entry

def methodHandle (index : UInt16) : Except Fault Handle := do
  match ← pool.entry index with
  | .methodHandle kind reference =>
    if !Handle.isKind kind then .error (.read (.handleKind kind index))
    else
      let member ← within (.poolIndex index) (pool.memberRef reference)
      return ⟨kind, member.owner, member.name, member.descriptor, member.interface⟩
  | entry => notEntry "MethodHandle" entry

/-! ## Constants -/

/-- The loadable constant at an index, given how bootstrap methods are looked up. -/
def loadable (bootstrap : UInt16 → Except Fault (Handle × List Constant)) (index : UInt16) :
    Except Fault Constant := do
  match ← pool.entry index with
  | .integer v => .ok (.integer v)
  | .float v => .ok (.float v)
  | .long v => .ok (.long v)
  | .double v => .ok (.double v)
  | .classRef name => do return .classRef (← pool.utf8 name)
  | .string t => do return .string (← pool.text t)
  | .methodHandle _ _ => do return .methodHandle (← pool.methodHandle index)
  | .methodType descriptor => do return .methodType (← pool.utf8 descriptor)
  | .dynamic method member => do
    let (name, descriptor) ← pool.nameAndType member
    let (handle, arguments) ← bootstrap method
    return .dynamic name descriptor handle arguments
  | entry => .error (.read (.notLoadable entry))

/-- How deep dynamic constants can be arguments of dynamic constants. -/
def maxDepth : Nat := 32

/-- The bootstrap method at an index with its arguments, in which `level` more bootstrap methods can be nested. -/
def bootstrapAt : (level : Nat) → UInt16 → Except Fault (Handle × List Constant)
  | 0, _ => .error (.read (.tooDeep maxDepth))
  | level + 1, index =>
    match pool.methods[index.toNat]? with
    | none => .error (.read (.noBootstrapMethod index))
    | some (handle, arguments) => do
      let arguments ← arguments.mapM fun argument =>
        within (.bootstrapArgument index) (pool.loadable (bootstrapAt level) argument)
      return (handle, arguments)

def bootstrap (index : UInt16) : Except Fault (Handle × List Constant) := pool.bootstrapAt (maxDepth + 1) index

def constant (index : UInt16) : Except Fault Constant := pool.loadable pool.bootstrap index

/-- The call site at an index: its name, its descriptor, and its bootstrap method with the arguments. -/
def invokeDynamic (index : UInt16) : Except Fault (String × String × Handle × List Constant) := do
  match ← pool.entry index with
  | .invokeDynamic method member => do
    let (name, descriptor) ← pool.nameAndType member
    let (handle, arguments) ←
      within (.poolIndex index) (within (.callSite name descriptor) (pool.bootstrap method))
    return (name, descriptor, handle, arguments)
  | entry => notEntry "InvokeDynamic" entry

def constantValue (index : UInt16) : Except Fault Constant := do
  match ← pool.entry index with
  | .integer _ | .float _ | .long _ | .double _ | .string _ => pool.constant index
  | entry => .error (.read (.notConstantValue entry))

end PoolView

end ClassDoc
