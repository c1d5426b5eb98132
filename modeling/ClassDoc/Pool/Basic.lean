/-
  The constant pool of a class that is written.

  Equal entries are put only once. An entry refers to others by their indices, so these are put before it. Bootstrap
  methods are in a table of their own, in which dynamic constants and call sites refer to them.
-/
import ClassDoc.Fault.State
import Std.Data.HashMap
namespace ClassDoc

/-- The constants of a class file to write, and where each one is. -/
structure Pool where
  count : Nat := 1
  entries : List PoolEntry := []
  indices : Std.HashMap PoolEntry UInt16 := {}
  methods : List BootstrapMethod := []
  methodCount : Nat := 0
  methodIndices : Std.HashMap BootstrapMethod UInt16 := {}

/-- A computation that puts entries into a pool. Entries stay even if it fails later. -/
abbrev PoolM := EStateM Fault Pool

namespace Pool

/-- Puts an entry. The highest index is 65534, and wide entries take two. -/
def put (entry : PoolEntry) : PoolM UInt16 := fun pool =>
  match pool.indices[entry]? with
  | some index => .ok index pool
  | none =>
    if pool.count + entry.slots < 0x10000 then
      let index := UInt16.ofNat pool.count
      .ok index { pool with
        count := pool.count + entry.slots
        entries := entry :: pool.entries
        indices := pool.indices.insert entry index }
    else .error (.write (.poolFull entry pool.count)) pool

def text (t : JavaText) : PoolM UInt16 := put (.utf8 t)

def utf8 (s : String) : PoolM UInt16 := text (.ofString s)

/-- Puts a text, if there is one; else the index is zero. -/
def optionalUtf8 : Option String → PoolM UInt16
  | some s => utf8 s
  | none => pure 0

def classRef (name : String) : PoolM UInt16 := do put (.classRef (← utf8 name))

def optionalClass : Option String → PoolM UInt16
  | some name => classRef name
  | none => pure 0

def module (name : String) : PoolM UInt16 := do put (.module (← utf8 name))

def package (name : String) : PoolM UInt16 := do put (.package (← utf8 name))

def nameAndType (name descriptor : String) : PoolM UInt16 := do
  let name ← utf8 name
  let descriptor ← utf8 descriptor
  put (.nameAndType name descriptor)

def fieldRef (owner name descriptor : String) : PoolM UInt16 := do
  let owner ← classRef owner
  let member ← nameAndType name descriptor
  put (.fieldRef owner member)

def methodRef (owner name descriptor : String) (interface : Bool) : PoolM UInt16 := do
  let owner ← classRef owner
  let member ← nameAndType name descriptor
  put (if interface then .interfaceMethodRef owner member else .methodRef owner member)

def methodHandle (h : Handle) : PoolM UInt16 := do
  let member ←
    if Handle.isFieldKind h.kind then fieldRef h.owner h.name h.descriptor
    else methodRef h.owner h.name h.descriptor h.interface
  put (.methodHandle h.kind member)

def putMethod (method : BootstrapMethod) : PoolM UInt16 := fun pool =>
  match pool.methodIndices[method]? with
  | some index => .ok index pool
  | none =>
    if pool.methodCount < 0x10000 then
      let index := UInt16.ofNat pool.methodCount
      .ok index { pool with
        methods := method :: pool.methods
        methodCount := pool.methodCount + 1
        methodIndices := pool.methodIndices.insert method index }
    else .error (.write (.bootstrapFull method)) pool

mutual

def constant : Constant → PoolM UInt16
  | .integer v => put (.integer v)
  | .float v => put (.float v)
  | .long v => put (.long v)
  | .double v => put (.double v)
  | .string v => do put (.string (← text v))
  | .classRef name => classRef name
  | .methodType descriptor => do put (.methodType (← utf8 descriptor))
  | .methodHandle h => methodHandle h
  | .dynamic name descriptor bootstrap arguments => do
    let member ← nameAndType name descriptor
    let handle ← methodHandle bootstrap
    let arguments ← constants arguments
    let method ← putMethod ⟨handle, arguments⟩
    put (.dynamic method member)

def constants : List Constant → PoolM (List UInt16)
  | [] => pure []
  | c :: rest => do
    let index ← constant c
    let indices ← constants rest
    return index :: indices

end

def invokeDynamic (name descriptor : String) (bootstrap : Handle) (arguments : List Constant) : PoolM UInt16 := do
  let member ← nameAndType name descriptor
  let handle ← methodHandle bootstrap
  let arguments ← constants arguments
  let method ← putMethod ⟨handle, arguments⟩
  put (.invokeDynamic method member)

end Pool

end ClassDoc
