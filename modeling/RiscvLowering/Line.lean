/-!
# Source lines

Values, blocks and emitted instructions carry the source line that they were made for.
-/

namespace RiscvLowering

/-- A source line, counted from 1; line 0 stands for an unknown line. -/
structure Line where
  number : UInt32
deriving DecidableEq

namespace Line

/-- The line of a thing whose producer recorded none. -/
def unknown : Line := ⟨0⟩

def isKnown (l : Line) : Bool := l.number ≠ 0

/-- The text `line 12`, or `line ?` for an unknown line. -/
def text (l : Line) : String :=
  if l.isKnown then "line " ++ l.number.toNat.repr else "line ?"

end Line

end RiscvLowering
