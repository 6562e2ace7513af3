/-!
# Identifiers

Values and blocks are named by 32-bit numbers. A value's number is its index in the arena of its
function; a block's number only has to differ from those of the other blocks.
-/

namespace RiscvLowering

abbrev ValueId := UInt32

abbrev BlockId := UInt32

/-- The name of a value, such as `v7`. -/
def ValueId.name (id : ValueId) : String := "v" ++ id.toNat.repr

/-- The name of a block, such as `b3`. -/
def BlockId.name (id : BlockId) : String := "b" ++ id.toNat.repr

end RiscvLowering
