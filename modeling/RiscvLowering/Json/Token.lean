import RiscvLowering.Json.Fault

/-!
# Tokens

What the readers of a document have in common: they take text off the front and leave the rest, and
blanks may stand between any two tokens.
-/

namespace RiscvLowering.Json

/-- A reader takes a value off the front of a text and leaves the rest. -/
abbrev Reader (α : Type) := List Char → Except Fault (α × List Char)

/-- The characters that may stand between any two tokens. -/
def isBlank (c : Char) : Bool := c = ' ' || c = '\t' || c = '\n' || c = '\r'

/-- The text from the next token on. -/
def skipBlanks (cs : List Char) : List Char := cs.dropWhile isBlank

/-- Takes a fixed text off the front. -/
def literal : List Char → List Char → Except Fault (List Char)
  | [], cs => .ok cs
  | _ :: _, [] => .error .truncated
  | p :: ps, c :: cs => if c = p then literal ps cs else .error .malformed

/-- Takes a mark of punctuation off the front, after blanks. -/
def punctuation (mark : Char) (cs : List Char) : Except Fault (List Char) :=
  literal [mark] (skipBlanks cs)

end RiscvLowering.Json
