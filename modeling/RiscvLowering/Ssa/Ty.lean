/-!
# Types of values

A type says what lowering asks of it: its size in bytes, whether it is a float, and whether it is a
token (memory state or condition flags) that no register holds.
-/

namespace RiscvLowering

/-- The type of a value. Sizes count bytes. -/
inductive Ty where
  | int (size : UInt64) (signed : Bool)
  | ptr
  | bool
  | float (size : UInt64)
  /-- The state of memory. -/
  | mem
  /-- Condition flags. -/
  | flags
  | aggregate (size : UInt64)
  /-- No value. -/
  | void
deriving DecidableEq

namespace Ty

/-- The number of bytes that a value of the type takes. -/
def size : Ty → UInt64
  | int size _ | float size | aggregate size => size
  | ptr => 8
  | bool => 1
  | mem | flags | void => 0

def isFloat : Ty → Bool
  | float _ => true
  | _ => false

def isMemory : Ty → Bool
  | mem => true
  | _ => false

def isFlags : Ty → Bool
  | flags => true
  | _ => false

/-- A name with the number of bits, such as `int64`; where the bits pass 64-bit range, the number of
bytes stands in brackets instead. -/
def sized (base : String) (size : UInt64) : String :=
  if 8 * size.toNat < UInt64.size then base ++ (8 * size.toNat).repr
  else base ++ "[" ++ size.toNat.repr ++ " bytes]"

/-- The text of a type, such as `uint32` or `[24]byte`. -/
def text : Ty → String
  | int size true => sized "int" size
  | int size false => sized "uint" size
  | ptr => "ptr"
  | bool => "bool"
  | float size => sized "float" size
  | mem => "mem"
  | flags => "flags"
  | aggregate size => "[" ++ size.toNat.repr ++ "]byte"
  | void => "void"

end Ty

end RiscvLowering
