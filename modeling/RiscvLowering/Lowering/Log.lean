import RiscvLowering.Lowering.Error
import RiscvLowering.Machine.Code

/-!
# The log of lowering

What lowering says while it works, message by message, with the level of each message.
-/

namespace RiscvLowering

/-- A remark for the log that goes with no instruction. -/
inductive Note where
  | noCode (op : Op)
  | deferred (op : Op)
  | copyElided (source target : Reg)
  | fallsThrough (block : BlockId)
  | inverting (cond : Cond) (block : BlockId)
deriving DecidableEq

namespace Note

def text : Note → String
  | noCode op => op.name ++ " needs no code"
  | deferred op => op.name ++ " deferred to block terminator"
  | copyElided source target => "copy " ++ source.abiName ++ " -> " ++ target.abiName ++ " elided"
  | fallsThrough block => "falls through to " ++ block.name
  | inverting cond block => "inverting " ++ cond.mnemonic ++ " to fall through to " ++ block.name

end Note

/-- A message of the log. -/
inductive Message where
  | lowering (func : String) (blocks : Nat)
  | noMoves (block : BlockId)
  | loweringValue (v : Value)
  | loweringTerminator (b : Block) (next : Option BlockId)
  | emitted (index : Nat) (inst : Inst)
  | pending (index : Nat) (target : BlockId)
  | note (note : Note)
  | gap (func : String) (gap : Gap)
  | lowered (func : String) (instructions branches gaps : Nat)
deriving DecidableEq

namespace Message

/-- How much a message matters. -/
inductive Level where
  | warn | info | debug | trace
deriving DecidableEq

def Level.name : Level → String
  | warn => "WARN"
  | info => "INFO"
  | debug => "DEBUG"
  | trace => "TRACE"

def level : Message → Level
  | lowering _ _ => .info
  | noMoves _ | loweringValue _ | loweringTerminator _ _ | lowered _ _ _ _ => .debug
  | emitted _ _ | pending _ _ | note _ => .trace
  | gap _ _ => .warn

/-- The block that follows, as messages show it. -/
def nextText : Option BlockId → String
  | none => "None"
  | some id => "Some(" ++ id.toNat.repr ++ ")"

def body : Message → String
  | lowering func blocks => "Lowering function '" ++ func ++ "' with " ++ blocks.repr ++ " blocks"
  | noMoves block => "mark_moves: nothing to mark in " ++ block.name
  | loweringValue v => "Lowering " ++ v.text
  | loweringTerminator b next =>
    "Lowering terminator of " ++ b.text ++ " (next: " ++ nextText next ++ ")"
  | emitted index inst => "  emit [" ++ index.repr ++ "] " ++ inst.text
  | pending index target => "  pending [" ++ index.repr ++ "] -> " ++ target.name
  | note n => "  " ++ n.text
  | gap func g => func ++ ": " ++ g.text
  | lowered func instructions branches gaps =>
    "Lowered '" ++ func ++ "': " ++ instructions.repr ++ " instructions, " ++ branches.repr ++
      " pending branches, " ++ gaps.repr ++ " gaps"

/-- A message with its level in front. -/
def text (m : Message) : String := m.level.name ++ " " ++ m.body

end Message

end RiscvLowering
