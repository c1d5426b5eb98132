/-
  The constant pool as bytes.
-/
import ClassDoc.Bytes
import ClassDoc.Pool.Basic
namespace ClassDoc

def PoolEntry.tag : PoolEntry → UInt8
  | utf8 _ => 1
  | integer _ => 3
  | float _ => 4
  | long _ => 5
  | double _ => 6
  | classRef _ => 7
  | string _ => 8
  | fieldRef _ _ => 9
  | methodRef _ _ => 10
  | interfaceMethodRef _ _ => 11
  | nameAndType _ _ => 12
  | methodHandle _ _ => 15
  | methodType _ => 16
  | dynamic _ _ => 17
  | invokeDynamic _ _ => 18
  | module _ => 19
  | package _ => 20

def PoolEntry.body : PoolEntry → Except Fault Bytes
  | utf8 t => do
    let bytes := t.encode
    let length ← within .writingText (Bytes.count2 bytes.length)
    return length ++ bytes
  | integer v => .ok (Bytes.u4 v.toUInt32)
  | float v => .ok (Bytes.u4 v.bits)
  | long v => .ok (Bytes.u8 v.toUInt64)
  | double v => .ok (Bytes.u8 v.bits)
  | classRef name | module name | package name => .ok (Bytes.u2 name)
  | string t => .ok (Bytes.u2 t)
  | fieldRef owner member | methodRef owner member | interfaceMethodRef owner member =>
    .ok (Bytes.u2 owner ++ Bytes.u2 member)
  | nameAndType name descriptor => .ok (Bytes.u2 name ++ Bytes.u2 descriptor)
  | methodHandle kind reference => .ok (Bytes.u1 kind ++ Bytes.u2 reference)
  | methodType descriptor => .ok (Bytes.u2 descriptor)
  | dynamic method member | invokeDynamic method member => .ok (Bytes.u2 method ++ Bytes.u2 member)

def PoolEntry.encode (entry : PoolEntry) : Except Fault Bytes := do
  return entry.tag :: (← entry.body)

def BootstrapMethod.encode (method : BootstrapMethod) : Except Fault Bytes := do
  let count ← Bytes.count2 method.arguments.length
  return Bytes.u2 method.handle ++ count ++ method.arguments.flatMap Bytes.u2

namespace Pool

def encode (pool : Pool) : Except Fault Bytes := do
  let entries ← pool.entries.reverse.mapM PoolEntry.encode
  return Bytes.u2 (UInt16.ofNat pool.count) ++ entries.flatten

def encodeMethods (pool : Pool) : Except Fault Bytes := do
  let count ← Bytes.count2 pool.methodCount
  let methods ← pool.methods.reverse.mapM BootstrapMethod.encode
  return count ++ methods.flatten

end Pool

end ClassDoc
