/-
  Access flags of classes, fields, methods and parameters.
-/
namespace ClassDoc.Access

def public_ : UInt16 := 0x0001
def private_ : UInt16 := 0x0002
def protected_ : UInt16 := 0x0004
def static : UInt16 := 0x0008
def final : UInt16 := 0x0010
def synchronized : UInt16 := 0x0020
def volatile : UInt16 := 0x0040
def native : UInt16 := 0x0100
def interface : UInt16 := 0x0200
def abstract : UInt16 := 0x0400
def module : UInt16 := 0x8000

def has (access flag : UInt16) : Bool := access &&& flag != 0

end ClassDoc.Access
