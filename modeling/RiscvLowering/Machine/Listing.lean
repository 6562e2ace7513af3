import RiscvLowering.Machine.Code

/-!
# Listings

A listing shows code with the labels of its blocks and the targets of its branches. It is a list of
rows, one for each label and one for each instruction, under the name of the function.

A label stands before the first instruction whose index has reached the start of its block, and
never before an earlier label of the list; labels whose start is not reached close the listing.
-/

namespace RiscvLowering

namespace Listing

/-- A line of a listing below the name of the function. -/
inductive Row where
  | label (block : BlockId)
  | code (placed : Placed) (target : Option BlockId)
deriving DecidableEq

/-- The target of the last branch in the list that names an index. -/
def target? (branches : List PendingBranch) (index : Nat) : Option BlockId :=
  (branches.reverse.find? (·.index = index)).map (·.target)

/-- The rows of the instructions from index `i` on, with the labels that are still to come. -/
def rowsFrom (branches : List PendingBranch) (i : Nat) (starts : List BlockStart) :
    List Placed → List Row
  | [] => starts.map (.label ·.block)
  | p :: ps =>
    (starts.takeWhile (·.index ≤ i)).map (.label ·.block) ++
      .code p (target? branches i) ::
        rowsFrom branches (i + 1) (starts.dropWhile (·.index ≤ i)) ps

/-- The rows of a whole function. -/
def rows (code : List Placed) (branches : List PendingBranch) (starts : List BlockStart) :
    List Row :=
  rowsFrom branches 0 starts code

namespace Row

/-- What follows an instruction that goes somewhere; a jump has no operands to set it off from. -/
def arrow (inst : Inst) (target : BlockId) : String :=
  (if inst.isJump then " -> " else ", -> ") ++ target.name

/-- What follows an instruction whose line is known. -/
def remark (line : Line) : String :=
  if line.isKnown then "    ; " ++ line.text else ""

/-- The text of a row, with its end of line. -/
def text (withLines : Bool) : Row → String
  | label b => b.name ++ ":\n"
  | code p target =>
    "    " ++ p.inst.text ++ (target.elim "" (arrow p.inst)) ++
      (if withLines then remark p.line else "") ++ "\n"

end Row

/-- The text of a listing: the name of the function and its rows. -/
def text (name : String) (rows : List Row) (withLines : Bool) : String :=
  name ++ ":\n" ++ String.join (rows.map (Row.text withLines))

end Listing

end RiscvLowering
