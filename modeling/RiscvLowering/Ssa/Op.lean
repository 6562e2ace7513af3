import RiscvLowering.Machine.Operation

/-!
# Operations of values

What a value computes. The operations that map onto one set of machine operations carry a member of
that set, so that lowering treats each family once.
-/

namespace RiscvLowering

/-- What a marker says of a frame variable. -/
inductive MarkKind where
  /-- A new lifetime starts. -/
  | define
  /-- The variable is dead from here on. -/
  | kill
  /-- The variable counts as live here. -/
  | live
deriving DecidableEq

/-- The size class of a constant; all of them are materialized alike. -/
inductive ConstSize where
  | byte | word | long | quad
deriving DecidableEq

/-- Operations of no machine in particular, which must be gone before lowering. -/
inductive GenericOp where
  | add64 | mul64 | const64 | load | store | zero | move | staticCall
deriving DecidableEq

inductive Op where
  /-- The state of memory at entry. -/
  | initMem
  | arg
  /-- A join of one value from each predecessor. -/
  | phi
  | copy
  | sp
  /-- The base of global symbols. -/
  | sb
  /-- The reload of a spilled value. -/
  | loadReg
  /-- A spill. -/
  | storeReg
  /-- A statement about the lifetime of a frame variable. -/
  | mark (kind : MarkKind)
  | generic (op : GenericOp)
  | alu (op : AluOp)
  | aluImm (op : AluImmOp)
  | const (size : ConstSize)
  | movConvert
  /-- The address of a symbol. -/
  | movMem
  | movLoad
  | movStore
  | zeroTest (test : ZeroTest)
  /-- The condition of a branch block. -/
  | compare (cond : Cond)
  /-- A check that a pointer is not nil. -/
  | nilCheck
  /-- The end of the process. -/
  | exitProc
deriving DecidableEq

namespace Op

/-- The name of an operation, in texts and in documents. -/
def name : Op → String
  | initMem => "InitMem"
  | arg => "Arg"
  | phi => "Phi"
  | copy => "Copy"
  | sp => "SP"
  | sb => "SB"
  | loadReg => "LoadReg"
  | storeReg => "StoreReg"
  | mark .define => "VarDef"
  | mark .kill => "VarKill"
  | mark .live => "VarLive"
  | generic .add64 => "Add64"
  | generic .mul64 => "Mul64"
  | generic .const64 => "Const64"
  | generic .load => "Load"
  | generic .store => "Store"
  | generic .zero => "Zero"
  | generic .move => "Move"
  | generic .staticCall => "StaticCall"
  | alu .add => "Add"
  | alu .sub => "Sub"
  | alu .xor => "Xor"
  | alu .or => "Or"
  | alu .and => "And"
  | alu .slt => "Slt"
  | alu .sltu => "Sltu"
  | aluImm .addi => "AddI"
  | aluImm .xori => "XorI"
  | aluImm .ori => "OrI"
  | aluImm .andi => "AndI"
  | aluImm .slli => "SllI"
  | const .byte => "MovBconst"
  | const .word => "MovWconst"
  | const .long => "MovLconst"
  | const .quad => "MovQconst"
  | movConvert => "MovConvert"
  | movMem => "MovMem"
  | movLoad => "MovLoad"
  | movStore => "MovStore"
  | zeroTest .seqz => "Seqz"
  | zeroTest .snez => "Snez"
  | compare .eq => "Beq"
  | compare .ne => "Bne"
  | compare .lt => "Blt"
  | compare .ltu => "Bltu"
  | compare .ge => "Bge"
  | compare .geu => "Bgeu"
  | nilCheck => "LoweredNilCheck"
  | exitProc => "LoweredExitProc"

/-- Every operation, once. -/
def all : List Op :=
  [initMem, arg, phi, copy, sp, sb, loadReg, storeReg] ++
  [MarkKind.define, .kill, .live].map mark ++
  [GenericOp.add64, .mul64, .const64, .load, .store, .zero, .move, .staticCall].map generic ++
  [AluOp.add, .sub, .xor, .or, .and, .slt, .sltu].map alu ++
  [AluImmOp.addi, .xori, .ori, .andi, .slli].map aluImm ++
  [ConstSize.byte, .word, .long, .quad].map const ++
  [movConvert, movMem, movLoad, movStore] ++
  [ZeroTest.seqz, .snez].map zeroTest ++
  [Cond.eq, .ne, .lt, .ltu, .ge, .geu].map compare ++
  [nilCheck, exitProc]

/-- The list leaves no operation out. -/
theorem mem_all (op : Op) : op ∈ all := by
  cases op with
  | mark k => cases k <;> decide
  | generic g => cases g <;> decide
  | alu a => cases a <;> decide
  | aluImm a => cases a <;> decide
  | const c => cases c <;> decide
  | zeroTest t => cases t <;> decide
  | compare c => cases c <;> decide
  | _ => decide

/-- No two operations have one name, so that a name can be read back. -/
theorem name_nodup : (all.map name).Nodup := by
  decide +kernel

/-- The operation of a name. -/
def ofName? (s : String) : Option Op := all.find? (·.name = s)

end Op

/-- Kinds of block of no machine in particular, which must be gone before lowering. -/
inductive GenericKind where
  | cond | defer | first | retJump
deriving DecidableEq

/-- How a block ends. -/
inductive BlockKind where
  /-- Goes on to its successor. -/
  | plain
  /-- Goes on to its successor after a call. -/
  | call
  /-- Goes on to its successor after a check. -/
  | check
  | ret
  /-- Is never left. -/
  | exit
  /-- Goes to one of two successors by its control value. -/
  | branch
  | generic (kind : GenericKind)
deriving DecidableEq

namespace BlockKind

/-- The name of a kind, in texts and in documents. -/
def name : BlockKind → String
  | plain => "Plain"
  | call => "Call"
  | check => "Check"
  | ret => "Ret"
  | exit => "Exit"
  | branch => "Branch"
  | generic .cond => "If"
  | generic .defer => "Defer"
  | generic .first => "First"
  | generic .retJump => "RetJmp"

/-- Every kind, once. -/
def all : List BlockKind :=
  [plain, call, check, ret, exit, branch] ++
  [GenericKind.cond, .defer, .first, .retJump].map generic

/-- The list leaves no kind out. -/
theorem mem_all (kind : BlockKind) : kind ∈ all := by
  cases kind with
  | generic k => cases k <;> decide
  | _ => decide

/-- No two kinds have one name. -/
theorem name_nodup : (all.map name).Nodup := by
  decide +kernel

/-- The kind of a name. -/
def ofName? (s : String) : Option BlockKind := all.find? (·.name = s)

end BlockKind

end RiscvLowering
