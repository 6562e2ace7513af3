import RiscvLowering.Lowering.Error
import RiscvLowering.Machine.Listing

/-!
# The results of lowering

What is known of a function once it is lowered: its code with the branches that are still pending,
the starts of its blocks and its gaps; and, apart from these, the statements of lifetimes.
-/

namespace RiscvLowering

/-- A statement of the lifetime of a variable. -/
structure Mark where
  kind : MarkKind
  var : FrameVar
  /-- The index of the first instruction emitted after the marker. -/
  index : Nat
deriving DecidableEq

/-- What the lowering of a function gives. -/
structure Output where
  name : String
  code : List Placed
  /-- The pending branches, in order of emission. -/
  branches : List PendingBranch
  /-- The blocks in layout order, each with the index of its first instruction. -/
  starts : List BlockStart
  gaps : List Gap
deriving DecidableEq

namespace Output

/-- Whether nothing was left out. -/
def isComplete (out : Output) : Bool := out.gaps.isEmpty

/-- The instructions alone, one to a line. -/
def plain (out : Output) : String := Code.plain out.code

/-- The listing of the code with labels and targets. -/
def listing (out : Output) (withLines : Bool) : String :=
  Listing.text out.name (Listing.rows out.code out.branches out.starts) withLines

end Output

end RiscvLowering
