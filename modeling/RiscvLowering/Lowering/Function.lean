import RiscvLowering.Lowering.Terminator
import RiscvLowering.Lowering.Value

/-!
# Lowering of functions

A function is lowered in steps: block by block in layout order, the start of the block, its
scheduled values and its terminator. The first step that fails ends the lowering.
-/

namespace RiscvLowering

/-- A step of the lowering of a function. -/
inductive Step where
  | start (b : Block)
  | value (id : ValueId)
  | terminator (b : Block) (next : Option BlockId)
deriving DecidableEq

/-- The steps of a block that `next` follows. -/
def Block.steps (b : Block) (next : Option BlockId) : List Step :=
  .start b :: b.values.map .value ++ [.terminator b next]

/-- The steps of the blocks of a layout. -/
def layoutSteps : List Block → List Step
  | [] => []
  | b :: bs => b.steps (bs.head?.map (·.id)) ++ layoutSteps bs

namespace Session

/-- Takes a step. -/
def step (s : Session) : Step → Session × Except LoweringError Unit
  | .start b => ((s.say (.noMoves b.id)).startBlock b.id, .ok ())
  | .value id =>
    match s.func.resolve id with
    | .ok v => s.lowerValue v
    -- there is no value to take the line from, so the session stays as it is
    | .error e => (s, .error e)
  | .terminator b next => s.lowerTerminator b next

/-- Takes steps up to the first that fails. -/
def run (s : Session) : List Step → Session × Except LoweringError Unit
  | [] => (s, .ok ())
  | x :: xs =>
    match s.step x with
    | (s, .ok ()) => s.run xs
    | (s, .error e) => (s, .error e)

end Session

/-- What comes of lowering a function: its code or the first error, and what was stated and said on
the way. -/
structure Lowered where
  result : Except LoweringError Output
  marks : List Mark
  log : List Message

/-- Lowers a function. -/
def Func.lower (f : Func) (options : Options) : Lowered :=
  let start : Session := { func := f, options }
  match (start.say (.lowering f.name f.blocks.length)).run (layoutSteps f.blocks) with
  | (s, .ok ()) =>
    let s := s.say (.lowered f.name s.code.size s.branches.size s.gaps.size)
    ⟨.ok s.finish, s.marks.toList, s.log.toList⟩
  -- the code is gone, but what was stated and said before stays
  | (s, .error e) => ⟨.error e, s.marks.toList, s.log.toList⟩

end RiscvLowering
