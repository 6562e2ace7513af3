import Mathlib.Data.List.Forall2
import Mathlib.Data.Option.Basic
import RiscvLowering.Proofs.Actions

/-!
# Likeness — what lowering reads of a function

Of a value, lowering reads the operation, the type, the constant, the reference,
the register and the line; of an argument it reads the type, the register and
the slot. How values and blocks are called it does not read: a name is only
looked up, compared with another one, or passed on. So where these things are
the same in two functions, the same is decided on:

* `Naming` — how the names on both sides go together;
* `Func.ReadAlike`, `Func.ExitAlike` — values and terminators of which lowering
  reads the same;
* `Parallel` — decisions that both succeed with results that go together, or
  both fail for reasons of one class.

Main results:

* `lowerValue_parallel` — values that are read alike are decided on alike.
* `lowerTerminator_parallel` — so are terminators that are read alike.
-/

namespace RiscvLowering

/-! ## Parallel decisions -/

/-- Both decisions succeed, with results that `R` relates, or both fail for
reasons of one class. -/
inductive Parallel {α β : Type} (R : α → β → Prop) :
    Except LoweringError α → Except LoweringError β → Prop
  | ok {a : α} {b : β} : R a b → Parallel R (.ok a) (.ok b)
  | error {e e' : LoweringError} : e.className = e'.className → Parallel R (.error e) (.error e')

namespace Parallel

variable {α β γ δ : Type} {R : α → β → Prop}

/-- Parallel decisions stay parallel when they are continued by parallel ones. -/
theorem bind {S : γ → δ → Prop} {x : Except LoweringError α} {y : Except LoweringError β}
    {k : α → Except LoweringError γ} {l : β → Except LoweringError δ} (h : Parallel R x y)
    (hRest : ∀ a b, R a b → Parallel S (k a) (l b)) : Parallel S (x >>= k) (y >>= l) := by
  cases h with
  | ok hab => exact hRest _ _ hab
  | error hClass => exact .error hClass

/-- Decisions that go on from the same result go together if what they go on with does. -/
theorem bind_same {S : γ → δ → Prop} {x y : Except LoweringError α}
    {k : α → Except LoweringError γ} {l : α → Except LoweringError δ} (h : Parallel Eq x y)
    (hRest : ∀ a, Parallel S (k a) (l a)) : Parallel S (x >>= k) (y >>= l) := by
  refine h.bind ?_
  rintro a _ rfl
  exact hRest a

theorem refl (x : Except LoweringError α) : Parallel Eq x x := by
  cases x with
  | ok a => exact .ok rfl
  | error e => exact .error rfl

/-- Of two decisions that come out the same, one is known from the other. -/
theorem eq_ok {x y : Except LoweringError α} {a : α} (h : Parallel Eq x y) (hx : x = .ok a) :
    y = .ok a := by
  cases h with
  | ok hab => exact hab ▸ hx
  | error _ => cases hx

end Parallel

/-- Lists that go together have members at the same places that do. -/
theorem rel_getElem? {α β : Type} {R : α → β → Prop} {xs : List α} {ys : List β}
    (h : List.Forall₂ R xs ys) (i : Nat) : Option.Rel R xs[i]? ys[i]? := by
  induction h generalizing i with
  | nil => exact .none
  | cons hxy _ ih =>
    cases i with
    | zero => exact .some hxy
    | succ i => exact ih i

/-- How the names in two lowerings go together: those of blocks, and the
descriptions of values that gaps carry. -/
structure Naming where
  block : BlockId → BlockId → Prop
  text : String → String → Prop

/-! ## Values that are read alike -/

namespace Func

/-- Lowering reads the same of two values when they are arguments. -/
structure SameOperand (f g : Func) (a a' : Value) : Prop where
  ty : a.ty = a'.ty
  reg : a.reg = a'.reg
  slot : f.slot? a.id = g.slot? a'.id

/-- Lowering reads the same of two values. -/
structure ReadAlike (n : Naming) (f g : Func) (v v' : Value) : Prop where
  op : v.op = v'.op
  ty : v.ty = v'.ty
  auxInt : v.auxInt = v'.auxInt
  aux : v.aux = v'.aux
  reg : v.reg = v'.reg
  line : v.line = v'.line
  slot : f.slot? v.id = g.slot? v'.id
  args : List.Forall₂ (fun id id' => Option.Rel (f.SameOperand g) (f.value? id) (g.value? id'))
    v.args v'.args
  text : n.text v.text v'.text

end Func

/-- Two actions do the same but for names. Remarks go with any remarks. -/
inductive Action.Alike (n : Naming) : Action → Action → Prop
  | emit (inst : Inst) : Alike n (.emit inst) (.emit inst)
  | branch (inst : Inst) {t t' : BlockId} : n.block t t' →
      Alike n (.branch inst t) (.branch inst t')
  | gap (what : String) {x x' : String} : n.text x x' → Alike n (.gap ⟨what, x⟩) (.gap ⟨what, x'⟩)
  | mark (kind : MarkKind) (var : FrameVar) : Alike n (.mark kind var) (.mark kind var)
  | note (x x' : Note) : Alike n (.note x) (.note x')

/-- The decisions are parallel, and the actions that they decide on are alike. -/
abbrev DecidedAlike (n : Naming) :
    Except LoweringError (List Action) → Except LoweringError (List Action) → Prop :=
  Parallel (List.Forall₂ (Action.Alike n))

section Operands

variable {n : Naming} {f g : Func} {v v' : Value}

theorem decidedAlike_nil : DecidedAlike n (.ok []) (.ok []) := .ok .nil

theorem decidedAlike_note (x x' : Note) : DecidedAlike n (.ok [.note x]) (.ok [.note x']) :=
  .ok (.cons (.note x x') .nil)

/-- The same instruction is the same action, whatever the names are. -/
theorem decidedAlike_emit (inst : Inst) : DecidedAlike n (.ok [.emit inst]) (.ok [.emit inst]) :=
  .ok (.cons (.emit inst) .nil)

/-- Where the registers are the same, they are found or missing alike. -/
theorem Value.register_parallel (h : v.reg = v'.reg) : Parallel Eq v.register v'.register := by
  rw [register, register, ← h]
  cases v.reg with
  | none => exact .error rfl
  | some r => exact .ok rfl

theorem addOffsets_parallel (a b : Int64) : Parallel Eq (addOffsets v a b) (addOffsets v' a b) := by
  rw [addOffsets, addOffsets]
  split
  · exact .ok rfl
  · exact .error rfl

namespace Func

/-- Lookups that find values which go together are resolved alike. -/
theorem resolve_parallel {R : Value → Value → Prop} {id id' : ValueId}
    (h : Option.Rel R (f.value? id) (g.value? id')) :
    Parallel R (f.resolve id) (g.resolve id') := by
  rw [resolve, resolve]
  generalize f.value? id = x, g.value? id' = y at h
  cases h with
  | none => exact .error rfl
  | some hxy => exact .ok hxy

namespace ReadAlike

variable (h : f.ReadAlike n g v v')

include h

/-- The operands at one place are found alike, and are the same to an instruction. -/
theorem arg (i : Nat) : Parallel (f.SameOperand g) (f.arg v i) (g.arg v' i) := by
  -- the operands stand at the same places, so there is one on both sides or on neither
  have hIds := rel_getElem? h.args i
  rw [Func.arg, Func.arg]
  generalize v.args[i]? = x, v'.args[i]? = y at hIds
  cases hIds with
  | none => exact .error rfl
  | some hRel => exact resolve_parallel hRel

/-- The operands at one place have the same register, or neither has one. -/
theorem argRegister (i : Nat) : Parallel Eq (f.argRegister v i) (g.argRegister v' i) :=
  (h.arg i).bind fun _ _ hSame => Value.register_parallel hSame.reg

theorem register : Parallel Eq v.register v'.register := Value.register_parallel h.reg

/-- The same reference and constant make the same address. -/
theorem address (base : Reg) : Parallel Eq (v.address base) (v'.address base) := by
  rw [Value.address, Value.address, ← h.aux, ← h.auxInt]
  cases v.aux with
  | none => exact .ok rfl
  | global name => exact .ok rfl
  | arg var =>
    refine (addOffsets_parallel _ _).bind_same fun offset => ?_
    exact .ok rfl
  | auto var => exact .ok rfl
  | var var => exact .error rfl

theorem baseRegister : Parallel Eq v.baseRegister v'.baseRegister := by
  rw [Value.baseRegister, Value.baseRegister, ← h.aux]
  cases v.aux with
  | none | global | arg | auto => exact .ok rfl
  | var => exact .error rfl

/-- Gaps of one kind are refused alike, or are passed over for values that go together. -/
theorem gap (options : Options) (what : String) :
    DecidedAlike n (options.gap ⟨what, v.text⟩) (options.gap ⟨what, v'.text⟩) := by
  rw [Options.gap, Options.gap]
  split
  · -- the errors name the values, but are of one class
    exact .error (by simp only [LoweringError.className])
  · exact .ok (.cons (.gap what h.text) .nil)

end ReadAlike

/-- Slots that are the same have the same address, or none. -/
theorem slotAddress_parallel {a a' : Value} (h : f.slot? a.id = g.slot? a'.id) :
    Parallel Eq (f.slotAddress a) (g.slotAddress a') := by
  rw [slotAddress, slotAddress, ← h]
  cases f.slot? a.id with
  | none => exact .error rfl
  | some slot =>
    show Parallel Eq (if slot.var.varClass.isParam then _ else _)
      (if slot.var.varClass.isParam then _ else _)
    -- the place of the variable counts for slots of parameters only
    split
    · refine (addOffsets_parallel _ _).bind_same fun offset => ?_
      exact .ok rfl
    · exact .ok rfl

end Func

end Operands

/-! ## Decisions on values -/

namespace Func

variable {n : Naming} {f g : Func} {v v' : Value}

namespace ReadAlike

variable (h : f.ReadAlike n g v v')

include h

/-- The same variable is marked, or on neither side is there one. -/
theorem lowerMark (kind : MarkKind) : DecidedAlike n (v.lowerMark kind) (v'.lowerMark kind) := by
  rw [Value.lowerMark, Value.lowerMark, ← h.aux]
  cases v.aux with
  | var var => exact .ok (.cons (.mark kind var) .nil)
  | none | global | arg | auto => exact .error rfl

theorem lowerConst : DecidedAlike n v.lowerConst v'.lowerConst := by
  rw [Value.lowerConst, Value.lowerConst, ← h.auxInt]
  refine h.register.bind_same fun rd => ?_
  exact decidedAlike_emit _

/-- The arguments of a join are looked at one by one, and in each the register. -/
theorem checkPhi : Parallel Eq (f.checkPhi v) (g.checkPhi v') := by
  -- what is asked of one operand comes out the same on both sides
  have hOne : ∀ a a', f.SameOperand g a a' →
      Parallel Eq
        (if a.reg = v.reg then return () else throw (.phiNotLowered v a) :
          Except LoweringError Unit)
        (if a'.reg = v'.reg then return () else throw (.phiNotLowered v' a')) := by
    intro a a' hSame
    rw [← hSame.reg, ← h.reg]
    split
    · exact .ok rfl
    · exact .error rfl
  rw [Func.checkPhi, Func.checkPhi]
  have hArgs := h.args
  generalize v.args = ids, v'.args = ids' at hArgs
  induction hArgs with
  | nil => exact .ok rfl
  | cons hRel _ ih =>
    exact ((resolve_parallel hRel).bind hOne).bind_same fun _ => ih

/-- Phis are checked alike, and emit nothing on either side. -/
theorem lowerPhi : DecidedAlike n (f.lowerPhi v) (g.lowerPhi v') := by
  rw [Func.lowerPhi, Func.lowerPhi, ← h.ty]
  split
  · exact decidedAlike_nil
  · exact h.checkPhi.bind_same fun _ => decidedAlike_nil

/-- Copies are made from and to the same registers, or on both sides not at all. -/
theorem lowerCopy : DecidedAlike n (f.lowerCopy v) (g.lowerCopy v') := by
  rw [Func.lowerCopy, Func.lowerCopy, ← h.ty]
  split
  · exact decidedAlike_nil
  · refine (h.argRegister 0).bind_same fun rs => ?_
    refine h.register.bind_same fun rd => ?_
    -- the same registers on both sides: the move is left out on both or on neither
    by_cases hSame : rs = rd
    · simp only [hSame, if_true]
      exact decidedAlike_note _ _
    · simp only [hSame, if_false]
      split
      · exact .error rfl
      · exact decidedAlike_emit _

/-- Reloads read the slot of the operand, which is the same on both sides. -/
theorem lowerReload (options : Options) :
    DecidedAlike n (f.lowerReload options v) (g.lowerReload options v') := by
  rw [Func.lowerReload, Func.lowerReload, ← h.ty]
  split
  · exact h.gap options "load flags"
  · refine (Parallel.refl _).bind_same fun width => ?_
    refine (h.arg 0).bind fun a a' hSame => ?_
    -- the operand was found on both sides, with the same slot
    refine (slotAddress_parallel hSame.slot).bind_same fun addr => ?_
    refine h.register.bind_same fun rd => ?_
    exact decidedAlike_emit _

/-- Spills write the slot of the value, which is the same on both sides. -/
theorem lowerSpill (options : Options) :
    DecidedAlike n (f.lowerSpill options v) (g.lowerSpill options v') := by
  rw [Func.lowerSpill, Func.lowerSpill, ← h.ty]
  split
  · exact h.gap options "store flags"
  · refine (Parallel.refl _).bind_same fun width => ?_
    refine (h.argRegister 0).bind_same fun rs => ?_
    refine (slotAddress_parallel h.slot).bind_same fun addr => ?_
    exact decidedAlike_emit _

theorem lowerAlu (op : AluOp) : DecidedAlike n (f.lowerAlu op v) (g.lowerAlu op v') := by
  refine (h.argRegister 0).bind_same fun rs1 => ?_
  refine (h.argRegister 1).bind_same fun rs2 => ?_
  refine h.register.bind_same fun rd => ?_
  exact decidedAlike_emit _

theorem lowerAluImm (op : AluImmOp) :
    DecidedAlike n (f.lowerAluImm op v) (g.lowerAluImm op v') := by
  rw [Func.lowerAluImm, Func.lowerAluImm, ← h.auxInt]
  refine (h.argRegister 0).bind_same fun rs1 => ?_
  refine h.register.bind_same fun rd => ?_
  exact decidedAlike_emit _

theorem lowerZeroTest (test : ZeroTest) :
    DecidedAlike n (f.lowerZeroTest test v) (g.lowerZeroTest test v') := by
  refine (h.argRegister 0).bind_same fun rs => ?_
  refine h.register.bind_same fun rd => ?_
  exact decidedAlike_emit _

theorem checkBase (want : Reg) : Parallel Eq (f.checkBase v want) (g.checkBase v' want) := by
  refine (h.argRegister 0).bind_same fun found => ?_
  split
  · exact .ok rfl
  · exact .error rfl

/-- Addresses are the same, as the reference and the base are. -/
theorem lowerAddress (options : Options) :
    DecidedAlike n (f.lowerAddress options v) (g.lowerAddress options v') := by
  have hRest : ∀ base, DecidedAlike n
      (do
        let addr ← v.address base
        let rd ← v.register
        return [.emit (.la rd addr)])
      (do
        let addr ← v'.address base
        let rd ← v'.register
        return [.emit (.la rd addr)]) := by
    intro base
    refine (h.address base).bind_same fun addr => ?_
    refine h.register.bind_same fun rd => ?_
    exact decidedAlike_emit _
  -- the option is the same on both sides, so both check the base or neither does
  refine h.baseRegister.bind_same fun base => ?_
  split
  · exact (h.checkBase base).bind_same fun _ => hRest base
  · exact hRest base

theorem lowerLoad : DecidedAlike n (f.lowerLoad v) (g.lowerLoad v') := by
  rw [Func.lowerLoad, Func.lowerLoad, ← h.ty]
  refine (Parallel.refl _).bind_same fun width => ?_
  refine (h.argRegister 0).bind_same fun base => ?_
  refine (h.address base).bind_same fun addr => ?_
  refine h.register.bind_same fun rd => ?_
  exact decidedAlike_emit _

/-- Stores are of the same width, from the same register and to the same address. -/
theorem lowerStore : DecidedAlike n (f.lowerStore v) (g.lowerStore v') := by
  refine (h.arg 1).bind fun stored stored' hSame => ?_
  -- what is stored has the same type, so the same width is asked for
  rw [← hSame.ty]
  refine (Parallel.refl _).bind_same fun width => ?_
  refine (h.argRegister 0).bind_same fun base => ?_
  refine (h.address base).bind_same fun addr => ?_
  refine (Value.register_parallel hSame.reg).bind_same fun rs => ?_
  exact decidedAlike_emit _

theorem lowerExit : DecidedAlike n (f.lowerExit v) (g.lowerExit v') := by
  refine (h.argRegister 0).bind_same fun code => ?_
  exact .ok (.cons (.emit _) (.cons (.emit _) (.cons (.emit _) .nil)))

end ReadAlike

/-- **Values that are read alike are decided on alike.** -/
theorem lowerValue_parallel (options : Options) (h : f.ReadAlike n g v v') :
    DecidedAlike n (f.lowerValue options v) (g.lowerValue options v') := by
  rw [lowerValue, lowerValue, ← h.op]
  -- the operation is the same on both sides, so one case for each
  cases v.op with
  | initMem | arg | sp | sb | compare => exact decidedAlike_note _ _
  | phi => exact h.lowerPhi
  | copy | movConvert => exact h.lowerCopy
  | loadReg => exact h.lowerReload options
  | storeReg => exact h.lowerSpill options
  | mark kind => exact h.lowerMark kind
  | generic => exact .error rfl
  | alu op => exact h.lowerAlu op
  | aluImm op => exact h.lowerAluImm op
  | const => exact h.lowerConst
  | movMem => exact h.lowerAddress options
  | movLoad => exact h.lowerLoad
  | movStore => exact h.lowerStore
  | zeroTest test => exact h.lowerZeroTest test
  | nilCheck => exact h.gap options "LoweredNilCheck"
  | exitProc => exact h.lowerExit

/-! ## Decisions on terminators -/

/-- Lowering reads the same of two terminators: the kind, the line, the
successors, each with whether it follows in the layout, and the control value,
with whether it belongs to the block and is its last. -/
structure ExitAlike (n : Naming) (f g : Func) (b : Block) (next : Option BlockId) (b' : Block)
    (next' : Option BlockId) : Prop where
  kind : b.kind = b'.kind
  line : b.line = b'.line
  succs : List.Forall₂ (fun t t' => n.block t t' ∧ (next = some t ↔ next' = some t'))
    b.succs b'.succs
  control : Option.Rel
    (fun id id' =>
      Option.Rel (fun v v' => f.ReadAlike n g v v' ∧ (v.block = b.id ↔ v'.block = b'.id))
        (f.value? id) (g.value? id') ∧
      (b.values.getLast? = some id ↔ b'.values.getLast? = some id'))
    b.control b'.control

namespace ExitAlike

variable {b b' : Block} {next next' : Option BlockId}

/-- Successors that follow alike are fallen through to alike, and else jumped to. -/
theorem lowerGoto (h : f.ExitAlike n g b next b' next') :
    DecidedAlike n (b.lowerGoto next) (b'.lowerGoto next') := by
  have hSuccs := h.succs
  rw [Block.lowerGoto, Block.lowerGoto]
  generalize b.succs = ts, b'.succs = ts' at hSuccs
  -- only one successor can be gone to, and then the next block is it on both sides or on neither
  match hSuccs with
  | .nil => exact .error rfl
  | .cons ⟨hNames, hFollows⟩ .nil =>
    -- whether the successor follows is the same on both sides
    simp only [hFollows]
    split
    · exact decidedAlike_note _ _
    · exact .ok (.cons (.branch _ hNames) .nil)
  | .cons _ (.cons _ _) => exact .error rfl

/-- Control values are found alike, and pass or fail the same checks. -/
theorem controlValue (h : f.ExitAlike n g b next b' next') :
    Parallel (f.ReadAlike n g) (f.controlValue b) (g.controlValue b') := by
  have hControl := h.control
  rw [Func.controlValue, Func.controlValue]
  generalize b.control = x, b'.control = y at hControl
  cases hControl with
  | none => exact .error rfl
  | some hIds =>
    obtain ⟨hValues, hLast⟩ := hIds
    refine (resolve_parallel hValues).bind ?_
    rintro v v' ⟨hRead, hOwner⟩
    simp only [ne_eq, hOwner, hLast]
    -- both checks come out alike on both sides
    split
    · exact .error rfl
    · split
      · exact .error rfl
      · exact .ok hRead

/-- The same operation gives the same condition, or none. -/
theorem condition {v v' : Value} (h : f.ReadAlike n g v v') :
    Parallel Eq (b.condition v) (b'.condition v') := by
  rw [Block.condition, Block.condition, ← h.op]
  cases v.op with
  | compare cond => exact .ok rfl
  | _ => exact .error rfl

/-- There are two successors on both sides or on neither, and they go together. -/
theorem branchTargets (h : f.ExitAlike n g b next b' next') :
    Parallel
      (fun x x' => (n.block x.1 x'.1 ∧ (next = some x.1 ↔ next' = some x'.1)) ∧
        (n.block x.2 x'.2 ∧ (next = some x.2 ↔ next' = some x'.2)))
      b.branchTargets b'.branchTargets := by
  have hSuccs := h.succs
  rw [Block.branchTargets, Block.branchTargets]
  generalize b.succs = ts, b'.succs = ts' at hSuccs
  -- both sides have as many successors, and only two are right
  match hSuccs with
  | .nil => exact .error rfl
  | .cons _ .nil => exact .error rfl
  | .cons hYes (.cons hNo .nil) => exact .ok ⟨hYes, hNo⟩
  | .cons _ (.cons _ (.cons _ _)) => exact .error rfl

end ExitAlike

/-- Branches whose successors follow alike are made alike. -/
theorem branchActions_alike {cond : Cond} {rs1 rs2 : Reg} {yes yes' no no' : BlockId}
    {next next' : Option BlockId} (hYes : n.block yes yes') (hNo : n.block no no')
    (hNextYes : next = some yes ↔ next' = some yes')
    (hNextNo : next = some no ↔ next' = some no') :
    List.Forall₂ (Action.Alike n) (branchActions cond rs1 rs2 yes no next)
      (branchActions cond rs1 rs2 yes' no' next') := by
  unfold branchActions
  -- which of the two successors follows is the same on both sides
  simp only [hNextYes, hNextNo]
  split
  · exact .cons (.note _ _) (.cons (.branch _ hNo) .nil)
  · split
    · exact .cons (.branch _ hYes) .nil
    · exact .cons (.branch _ hYes) (.cons (.branch _ hNo) .nil)

/-- Branches whose comparisons are read alike and whose successors go together are made alike. -/
theorem lowerBranch_parallel {b b' : Block} {next next' : Option BlockId}
    (h : f.ExitAlike n g b next b' next') :
    DecidedAlike n (f.lowerBranch b next) (g.lowerBranch b' next') := by
  refine h.controlValue.bind fun v v' hRead => ?_
  refine (ExitAlike.condition hRead).bind_same fun cond => ?_
  refine h.branchTargets.bind ?_
  -- each successor goes with its own, and follows or not as that one does
  rintro ⟨yes, no⟩ ⟨yes', no'⟩ ⟨⟨hYes, hNextYes⟩, hNo, hNextNo⟩
  refine (hRead.argRegister 0).bind_same fun rs1 => ?_
  refine (hRead.argRegister 1).bind_same fun rs2 => ?_
  exact .ok (branchActions_alike hYes hNo hNextYes hNextNo)

/-- **Terminators that are read alike are decided on alike.** -/
theorem lowerTerminator_parallel {b b' : Block} {next next' : Option BlockId}
    (h : f.ExitAlike n g b next b' next') :
    DecidedAlike n (f.lowerTerminator b next) (g.lowerTerminator b' next') := by
  rw [lowerTerminator, lowerTerminator, ← h.kind]
  cases b.kind with
  | plain | call | check => exact h.lowerGoto
  | exit | ret => exact decidedAlike_emit _
  | branch => exact lowerBranch_parallel h
  | generic => exact .error rfl

end Func

end RiscvLowering
