/-
  Numbers as bytes, the highest byte first.
-/
import ClassDoc.Fault.Basic
namespace ClassDoc

/-- The bytes of a file, or of a part of it. -/
abbrev Bytes := List UInt8

namespace Bytes

def u1 (n : UInt8) : Bytes := [n]

def u2 (n : UInt16) : Bytes := [(n >>> 8).toUInt8, n.toUInt8]

def u4 (n : UInt32) : Bytes := [(n >>> 24).toUInt8, (n >>> 16).toUInt8, (n >>> 8).toUInt8, n.toUInt8]

def u8 (n : UInt64) : Bytes := u4 (n >>> 32).toUInt32 ++ u4 n.toUInt32

def count1 (n : Nat) : Except Fault Bytes :=
  if n < 0x100 then .ok (u1 (UInt8.ofNat n)) else .error (.write (.tooLarge n "u8"))

def count2 (n : Nat) : Except Fault Bytes :=
  if n < 0x10000 then .ok (u2 (UInt16.ofNat n)) else .error (.write (.tooLarge n "u16"))

def count4 (n : Nat) : Except Fault Bytes :=
  if n < 0x100000000 then .ok (u4 (UInt32.ofNat n)) else .error (.write (.tooLarge n "u32"))

end Bytes

end ClassDoc
