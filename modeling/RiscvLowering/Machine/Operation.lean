/-!
# Operations of the machine

The small closed sets of operations that RV64 instructions are built from: register arithmetic,
arithmetic with a constant, tests against zero, comparisons of conditional branches, and widths of
memory accesses. Each has its mnemonic.
-/

namespace RiscvLowering

/-- Arithmetic on two registers. -/
inductive AluOp where
  | add | sub | xor | or | and | slt | sltu
deriving DecidableEq

namespace AluOp

def mnemonic : AluOp → String
  | add => "ADD"
  | sub => "SUB"
  | xor => "XOR"
  | or => "OR"
  | and => "AND"
  | slt => "SLT"
  | sltu => "SLTU"

end AluOp

/-- Arithmetic on a register and a constant. -/
inductive AluImmOp where
  | addi | xori | ori | andi | slli
deriving DecidableEq

namespace AluImmOp

def mnemonic : AluImmOp → String
  | addi => "ADDI"
  | xori => "XORI"
  | ori => "ORI"
  | andi => "ANDI"
  | slli => "SLLI"

end AluImmOp

/-- Setting a register to 1 or 0 by whether another is zero. -/
inductive ZeroTest where
  | seqz | snez
deriving DecidableEq

namespace ZeroTest

def mnemonic : ZeroTest → String
  | seqz => "SEQZ"
  | snez => "SNEZ"

end ZeroTest

/-- The comparison of a conditional branch; `ltu` and `geu` compare without sign. -/
inductive Cond where
  | eq | ne | lt | ltu | ge | geu
deriving DecidableEq

namespace Cond

/-- The comparison that holds exactly when `c` does not. -/
def invert : Cond → Cond
  | eq => ne
  | ne => eq
  | lt => ge
  | ge => lt
  | ltu => geu
  | geu => ltu

/-- A condition that is inverted twice is the first again. -/
@[simp]
theorem invert_invert (c : Cond) : c.invert.invert = c := by
  cases c <;> rfl

def mnemonic : Cond → String
  | eq => "BEQ"
  | ne => "BNE"
  | lt => "BLT"
  | ltu => "BLTU"
  | ge => "BGE"
  | geu => "BGEU"

end Cond

inductive Width where
  | byte | half | word | double
deriving DecidableEq

namespace Width

def bytes : Width → Nat
  | byte => 1
  | half => 2
  | word => 4
  | double => 8

/-- The width of an access to so many bytes, if there is one. -/
def ofBytes? : Nat → Option Width
  | 1 => some byte
  | 2 => some half
  | 4 => some word
  | 8 => some double
  | _ => none

/-- The width of a number of bytes is the one that has so many. -/
theorem ofBytes?_eq_some_iff {n : Nat} {w : Width} : ofBytes? n = some w ↔ n = w.bytes := by
  constructor
  · intro h
    unfold ofBytes? at h
    split at h <;> simp_all <;> subst h <;> rfl
  · rintro rfl
    cases w <;> rfl

def loadMnemonic : Width → String
  | byte => "LB"
  | half => "LH"
  | word => "LW"
  | double => "LD"

def storeMnemonic : Width → String
  | byte => "SB"
  | half => "SH"
  | word => "SW"
  | double => "SD"

end Width

end RiscvLowering
