import RiscvLowering.Proofs.Lowerable
import RiscvLowering.Proofs.Soundness

/-!
# Errors — what is to blame when lowering fails

Most errors of lowering tell of the value or the block at hand: of its type, its
register, its operation. Two tell of something else: an id leads to no value, or the
sum of two offsets is none. Each lookup and each sum is made for an argument or an
operand of the value at hand, so these are all that can be to blame.

Main results:

* `lowerValue_fails` — a value is blamed on an argument that leads nowhere or on
  the exact offset of its operand.
* `lowerTerminator_fails` — a terminator is blamed on its control value or on an
  argument of that.
-/

namespace RiscvLowering

/-- The error tells neither of an id nor of an offset. -/
def LoweringError.IsLocal : LoweringError → Prop
  | missingValue _ | offsetOverflow _ => False
  | _ => True

/-- Where the decision fails, `P` holds of the error, unless it is local. -/
def FailsFor {α : Type} (P : LoweringError → Prop) (d : Except LoweringError α) : Prop :=
  ∀ e, d = .error e → e.IsLocal ∨ P e

namespace FailsFor

variable {α β : Type} {P : LoweringError → Prop} {e : LoweringError}

theorem of_ok (a : α) : FailsFor P (.ok a : Except LoweringError α) :=
  fun _ h => nomatch h

/-- A failure for a reason that is allowed is one. -/
theorem of_error (h : P e) : FailsFor P (.error e : Except LoweringError α) :=
  fun _ hError => .inr (Except.error.inj hError ▸ h)

/-- A failure that tells of the value at hand is always allowed. -/
theorem of_local (h : e.IsLocal) : FailsFor P (.error e : Except LoweringError α) :=
  fun _ hError => .inl (Except.error.inj hError ▸ h)

/-- A decision in steps fails where the first step does or, with what that gives, the
rest. -/
theorem bind {x : Except LoweringError α} {k : α → Except LoweringError β} (hx : FailsFor P x)
    (hk : ∀ a, x = .ok a → FailsFor P (k a)) : FailsFor P (x >>= k) := by
  intro e h
  rcases bind_eq_error_iff.mp h with hFirst | ⟨a, ha, hRest⟩
  · exact hx e hFirst
  · exact hk a ha e hRest

/-- If a value is missing, that is for one of the allowed reasons. -/
theorem missing {d : Except LoweringError α} (h : FailsFor P d) {id : ValueId}
    (hError : d = .error (.missingValue id)) : P (.missingValue id) :=
  (h _ hError).resolve_left fun hLocal => hLocal

/-- If an offset overflows, that is for one of the allowed reasons. -/
theorem overflow {d : Except LoweringError α} (h : FailsFor P d) {w : Value}
    (hError : d = .error (.offsetOverflow w)) : P (.offsetOverflow w) :=
  (h _ hError).resolve_left fun hLocal => hLocal

end FailsFor

/-! ## Exact offsets -/

/-- Words of 64 bits with sign hold the number. -/
def IsOffset (n : Int) : Prop := -2 ^ 63 ≤ n ∧ n < 2 ^ 63

/-- The exact offset of the operand that a value names. -/
def Value.namedOffset (v : Value) : Int :=
  match v.aux with
  | .arg var => v.auxInt.toInt + var.frameOffset.toInt
  | _ => v.auxInt.toInt

/-- The exact offset of the operand of a slot. -/
def Slot.exactOffset (slot : Slot) : Int :=
  match slot.var.varClass with
  | .param | .paramOut => slot.offset.toInt + slot.var.frameOffset.toInt
  | .auto => slot.offset.toInt

/-- Every offset that is stored is one. -/
theorem isOffset_toInt (n : Int64) : IsOffset n.toInt :=
  ⟨n.le_toInt, n.toInt_lt⟩

/-- The operand of a slot by its class. -/
theorem Slot.exactOffset_eq (slot : Slot) :
    slot.exactOffset = if slot.var.varClass.isParam then
      slot.offset.toInt + slot.var.frameOffset.toInt else slot.offset.toInt := by
  rw [exactOffset]
  cases slot.var.varClass <;> rfl

/-- Offsets whose exact sum is none are blamed on the value they are added for. -/
theorem addOffsets_eq_error {v : Value} {a b : Int64}
    (h : ¬ IsOffset (a.toInt + b.toInt)) : addOffsets v a b = .error (.offsetOverflow v) := by
  have hMin : Int64.minValue.toInt = -2 ^ 63 := rfl
  have hMax : Int64.maxValue.toInt = 2 ^ 63 - 1 := rfl
  rw [IsOffset] at h
  rw [addOffsets, hMin, hMax, if_neg (by omega)]

/-! ## Operands -/

section Operands

variable {P : LoweringError → Prop} {f : Func} {v a : Value}

theorem Value.register_fails : FailsFor P v.register := by
  rw [register]
  split
  · exact .of_ok _
  · exact .of_local trivial

theorem Ty.width_fails {ty : Ty} : FailsFor P ty.width := by
  rw [width]
  split
  · exact .of_local trivial
  · split
    · exact .of_ok _
    · exact .of_local trivial

theorem Value.baseRegister_fails : FailsFor P v.baseRegister := by
  rw [baseRegister]
  cases v.aux with
  | var var => exact .of_local trivial
  | _ => exact .of_ok _

theorem Options.gap_fails {options : Options} {g : Gap} : FailsFor P (options.gap g) := by
  rw [gap]
  split
  · exact .of_local trivial
  · exact .of_ok _

/-- Adding two offsets fails only if their exact sum is none. -/
theorem addOffsets_fails {m n : Int64}
    (h : ¬ IsOffset (m.toInt + n.toInt) → P (.offsetOverflow v)) :
    FailsFor P (addOffsets v m n) := by
  have hMin : Int64.minValue.toInt = -2 ^ 63 := rfl
  have hMax : Int64.maxValue.toInt = 2 ^ 63 - 1 := rfl
  rw [addOffsets, hMin, hMax]
  split
  · exact .of_ok _
  · -- what is tested are the bounds of offsets, written out
    rename_i hOut
    rw [IsOffset] at h
    exact .of_error (h (by omega))

/-- The operand that a value names overflows only if its exact offset is none. -/
theorem Value.address_fails {base : Reg}
    (h : ¬ IsOffset v.namedOffset → P (.offsetOverflow v)) : FailsFor P (v.address base) := by
  rw [namedOffset] at h
  rw [address]
  -- only the place of an argument is added
  cases hAux : v.aux with
  | arg var =>
    simp only [hAux] at h
    exact (addOffsets_fails h).bind fun _ _ => .of_ok _
  | var var => exact .of_local trivial
  | none | global name | auto var => exact .of_ok _

namespace Func

/-- The operand of a slot overflows only if the exact offset of the slot is none. -/
theorem slotAddress_fails
    (h : ∀ slot, f.slot? a.id = some slot → ¬ IsOffset slot.exactOffset → P (.offsetOverflow a)) :
    FailsFor P (f.slotAddress a) := by
  rw [slotAddress]
  split
  · exact .of_local trivial
  · rename_i slot hSlot
    -- there is a slot; it fails if a place is added to it and the sum is none
    specialize h slot hSlot
    rw [Slot.exactOffset_eq] at h
    split
    · rename_i hParam
      rw [if_pos hParam] at h
      exact (addOffsets_fails h).bind fun _ _ => .of_ok _
    · exact .of_ok _

/-- Looking up a value fails only if there is none of that id. -/
theorem resolve_fails {id : ValueId} (h : ¬ f.HasValue id → P (.missingValue id)) :
    FailsFor P (f.resolve id) := by
  rw [resolve]
  split
  · exact .of_ok _
  · rename_i hNone
    exact .of_error (h (value?_eq_none_iff.mp hNone))

/-- An argument of the value that leads nowhere. -/
def LostArg (f : Func) (v : Value) (id : ValueId) : Prop := id ∈ v.args ∧ ¬ f.HasValue id

/-- Looking up an operand fails only if its id leads nowhere, or if there is no such operand. -/
theorem arg_fails (i : Nat) (h : ∀ id, f.LostArg v id → P (.missingValue id)) :
    FailsFor P (f.arg v i) := by
  rw [arg]
  split
  · rename_i id hId
    exact resolve_fails fun hNo => h id ⟨List.mem_of_getElem? hId, hNo⟩
  · exact .of_local trivial

/-- The same holds for the register of an operand, which is a matter of the value found. -/
theorem argRegister_fails (i : Nat) (h : ∀ id, f.LostArg v id → P (.missingValue id)) :
    FailsFor P (f.argRegister v i) :=
  (arg_fails i h).bind fun _ _ => Value.register_fails

end Func

end Operands

/-! ## Values -/

namespace Func

/-- The slot that the value is spilled to or reloaded from. -/
def UsesSlot (f : Func) (v : Value) (slot : Slot) : Prop :=
  match v.op with
  | .loadReg => ∃ a, f.HasArg v 0 a ∧ f.slot? a.id = some slot
  | .storeReg => f.slot? v.id = some slot
  | _ => False

/-- The exact offset of the operand of memory that the operation of the value takes. -/
def HasOffset (f : Func) (v : Value) (n : Int) : Prop :=
  match v.op with
  | .movMem | .movLoad | .movStore => n = v.namedOffset
  | .loadReg | .storeReg => ∃ slot, f.UsesSlot v slot ∧ n = slot.exactOffset
  | _ => False

/-- The errors that tell of more than the value: of an argument that leads nowhere, or
of the exact offset of its operand. -/
inductive ValueError (f : Func) (v : Value) : LoweringError → Prop
  | lost {id : ValueId} : f.LostArg v id → ValueError f v (.missingValue id)
  | overflow {w : Value} {n : Int} : f.HasOffset v n → ¬ IsOffset n →
      ValueError f v (.offsetOverflow w)

variable {f : Func} {v : Value} {options : Options}

theorem arg_valueError (i : Nat) : FailsFor (f.ValueError v) (f.arg v i) :=
  arg_fails i fun _ => .lost

theorem argRegister_valueError (i : Nat) : FailsFor (f.ValueError v) (f.argRegister v i) :=
  argRegister_fails i fun _ => .lost

/-- The operand of an address, a load or a store. -/
theorem address_valueError {base : Reg}
    (hOp : v.op = .movMem ∨ v.op = .movLoad ∨ v.op = .movStore) :
    FailsFor (f.ValueError v) (v.address base) := by
  refine Value.address_fails fun hOut => .overflow ?_ hOut
  rcases hOp with h | h | h <;> simp [HasOffset, h]

/-- Checking a phi is blamed on an operand that leads nowhere, if on any. -/
theorem checkPhi_fails : FailsFor (f.ValueError v) (f.checkPhi v) := by
  have hIds : ∀ ids : List ValueId, (∀ id ∈ ids, id ∈ v.args) →
      FailsFor (f.ValueError v) (ids.forM fun id => do
        let a ← f.resolve id
        if a.reg = v.reg then return () else throw (.phiNotLowered v a)) := by
    intro ids hSub
    -- by the arguments, each of which is looked at by itself
    induction ids with
    | nil => exact .of_ok _
    | cons id ids ih =>
      obtain ⟨hFirst, hOthers⟩ := List.forall_mem_cons.mp hSub
      have hResolve : FailsFor (f.ValueError v) (f.resolve id) :=
        resolve_fails fun hNo => .lost ⟨hFirst, hNo⟩
      refine FailsFor.bind (hResolve.bind fun a _ => ?_) fun _ _ => ih hOthers
      split
      · exact .of_ok _
      · exact .of_local trivial
  exact hIds v.args fun _ hId => hId

theorem lowerPhi_fails : FailsFor (f.ValueError v) (f.lowerPhi v) := by
  rw [lowerPhi]
  split
  · exact .of_ok _
  · exact checkPhi_fails.bind fun _ _ => .of_ok _

/-- A copy is blamed on the operand that it copies. -/
theorem lowerCopy_fails : FailsFor (f.ValueError v) (f.lowerCopy v) := by
  rw [lowerCopy]
  split
  · exact .of_ok _
  · refine (argRegister_valueError 0).bind fun rs _ => ?_
    refine Value.register_fails.bind fun rd _ => ?_
    dsimp only
    -- whether a move is needed depends on both registers, which are found
    split
    · exact .of_ok _
    · split
      · exact .of_local trivial
      · exact .of_ok _

/-- A reload is blamed on its operand, or on the offset of the slot of that. -/
theorem lowerReload_fails (hOp : v.op = .loadReg) :
    FailsFor (f.ValueError v) (f.lowerReload options v) := by
  rw [lowerReload]
  split
  · exact Options.gap_fails
  · refine Ty.width_fails.bind fun width _ => ?_
    -- the slot is that of the value which the argument leads to
    refine (arg_valueError 0).bind fun a ha => ?_
    have hAddress : FailsFor (f.ValueError v) (f.slotAddress a) := by
      refine slotAddress_fails fun slot hSlot hOut => .overflow ?_ hOut
      simp only [HasOffset, UsesSlot, hOp]
      exact ⟨slot, ⟨a, arg_eq_ok_iff_hasArg.mp ha, hSlot⟩, rfl⟩
    exact hAddress.bind fun addr _ => Value.register_fails.bind fun rd _ => .of_ok _

/-- A spill is blamed on its operand, or on the offset of its own slot. -/
theorem lowerSpill_fails (hOp : v.op = .storeReg) :
    FailsFor (f.ValueError v) (f.lowerSpill options v) := by
  rw [lowerSpill]
  split
  · exact Options.gap_fails
  · refine Ty.width_fails.bind fun width _ => ?_
    refine (argRegister_valueError 0).bind fun rs _ => ?_
    -- the slot is that of the spill, not of what it spills
    have hAddress : FailsFor (f.ValueError v) (f.slotAddress v) := by
      refine slotAddress_fails fun slot hSlot hOut => .overflow ?_ hOut
      simp only [HasOffset, UsesSlot, hOp]
      exact ⟨slot, hSlot, rfl⟩
    exact hAddress.bind fun addr _ => .of_ok _

theorem checkBase_fails {want : Reg} : FailsFor (f.ValueError v) (f.checkBase v want) := by
  refine (argRegister_valueError 0).bind fun found _ => ?_
  split
  · exact .of_ok _
  · exact .of_local trivial

/-- An address is blamed on its base, or on the exact offset it names. -/
theorem lowerAddress_fails (hOp : v.op = .movMem) :
    FailsFor (f.ValueError v) (f.lowerAddress options v) := by
  have hRest : ∀ base, FailsFor (f.ValueError v)
      (do
        let addr ← v.address base
        let rd ← v.register
        return [Action.emit (.la rd addr)]) := fun base =>
    (address_valueError (.inl hOp)).bind fun _ _ => Value.register_fails.bind fun _ _ => .of_ok _
  -- the check of the base stands before the address, where the option asks for it
  refine Value.baseRegister_fails.bind fun base _ => ?_
  split
  · exact checkBase_fails.bind fun _ _ => hRest base
  · exact hRest base

theorem lowerLoad_fails (hOp : v.op = .movLoad) : FailsFor (f.ValueError v) (f.lowerLoad v) := by
  refine Ty.width_fails.bind fun width _ => ?_
  refine (argRegister_valueError 0).bind fun base _ => ?_
  -- the offset that may overflow is the one the load names
  refine (address_valueError (.inr (.inl hOp))).bind fun addr _ => ?_
  exact Value.register_fails.bind fun rd _ => .of_ok _

/-- A store is blamed on what is stored, on its base, or on the exact offset it names. -/
theorem lowerStore_fails (hOp : v.op = .movStore) : FailsFor (f.ValueError v) (f.lowerStore v) := by
  -- the lookups are made in this order, and each is blamed by itself
  refine (arg_valueError 1).bind fun stored _ => ?_
  refine Ty.width_fails.bind fun width _ => ?_
  refine (argRegister_valueError 0).bind fun base _ => ?_
  refine (address_valueError (.inr (.inr hOp))).bind fun addr _ => ?_
  exact Value.register_fails.bind fun rs _ => .of_ok _

/-- **Lowering a value is blamed on more than the value only for an argument of its own
that leads nowhere, or for the exact offset of its operand.** -/
theorem lowerValue_fails : FailsFor (f.ValueError v) (f.lowerValue options v) := by
  rw [lowerValue]
  -- the five operations that take an operand of memory add offsets, no other does
  cases hOp : v.op with
  | initMem | arg | sp | sb | compare => exact .of_ok _
  | phi => exact lowerPhi_fails
  | copy | movConvert => exact lowerCopy_fails
  | loadReg => exact lowerReload_fails hOp
  | storeReg => exact lowerSpill_fails hOp
  | movMem => exact lowerAddress_fails hOp
  | movLoad => exact lowerLoad_fails hOp
  | movStore => exact lowerStore_fails hOp
  | mark kind =>
    show FailsFor _ (v.lowerMark kind)
    rw [Value.lowerMark]
    split
    · exact .of_ok _
    · exact .of_local trivial
  | generic => exact .of_local trivial
  | alu op =>
    refine (argRegister_valueError 0).bind fun rs1 _ => ?_
    refine (argRegister_valueError 1).bind fun rs2 _ => ?_
    exact Value.register_fails.bind fun rd _ => .of_ok _
  | aluImm op | zeroTest test =>
    refine (argRegister_valueError 0).bind fun rs _ => ?_
    exact Value.register_fails.bind fun rd _ => .of_ok _
  | const => exact Value.register_fails.bind fun rd _ => .of_ok _
  | nilCheck => exact Options.gap_fails
  | exitProc => exact (argRegister_valueError 0).bind fun code _ => .of_ok _

/-! ## Terminators -/

/-- An id that leads nowhere, of the control value of the block or of one of its
arguments. -/
inductive LostControl (f : Func) (b : Block) (id : ValueId) : Prop
  | value : b.control = some id → ¬ f.HasValue id → LostControl f b id
  | arg {control : ValueId} {v : Value} : b.control = some control →
      f.value? control = some v → f.LostArg v id → LostControl f b id

/-- The errors that tell of more than the block. -/
inductive TerminatorError (f : Func) (b : Block) : LoweringError → Prop
  | lost {id : ValueId} : f.LostControl b id → TerminatorError f b (.missingValue id)

variable {b : Block} {next : Option BlockId}

/-- The control value is blamed on its own id, if that leads nowhere. -/
theorem controlValue_fails : FailsFor (f.TerminatorError b) (f.controlValue b) := by
  rw [controlValue]
  split
  · rename_i id hControl
    refine (resolve_fails fun hNo => .lost (.value hControl hNo)).bind fun v _ => ?_
    -- what is checked of the control value tells of the block
    dsimp only
    split
    · exact .of_local trivial
    · split
      · exact .of_local trivial
      · exact .of_ok _
  · exact .of_local trivial

/-- A branch is blamed on its control value or on an operand of that. -/
theorem lowerBranch_fails : FailsFor (f.TerminatorError b) (f.lowerBranch b next) := by
  -- the registers are those of the arguments of the control value, not of the block
  refine controlValue_fails.bind fun v hv => ?_
  obtain ⟨control, hControl, hValue, -, -⟩ := controlValue_eq_ok_iff.mp hv
  -- an argument of the control value, which is a value that was found
  have hArg : ∀ i, FailsFor (f.TerminatorError b) (f.argRegister v i) := fun i =>
    argRegister_fails i fun _ hLost => .lost (.arg hControl hValue hLost)
  have hCondition : FailsFor (f.TerminatorError b) (b.condition v) := by
    rw [Block.condition]
    split
    · exact .of_ok _
    · exact .of_local trivial
  have hTargets : FailsFor (f.TerminatorError b) b.branchTargets := by
    rw [Block.branchTargets]
    split
    · exact .of_ok _
    · exact .of_local trivial
  refine hCondition.bind fun cond _ => hTargets.bind fun targets _ => ?_
  exact (hArg 0).bind fun rs1 _ => (hArg 1).bind fun rs2 _ => .of_ok _

/-- **Lowering a terminator is blamed on more than the block only for its control value
or an argument of that.** -/
theorem lowerTerminator_fails : FailsFor (f.TerminatorError b) (f.lowerTerminator b next) := by
  -- whether the successor follows makes no error
  have hGoto : FailsFor (f.TerminatorError b) (b.lowerGoto next) := by
    rw [Block.lowerGoto]
    split
    · split
      · exact .of_ok _
      · exact .of_ok _
    · exact .of_local trivial
  rw [lowerTerminator]
  cases b.kind with
  | plain | call | check => exact hGoto
  | exit | ret => exact .of_ok _
  | branch => exact lowerBranch_fails
  | generic => exact .of_local trivial

/-! ## Whom to blame -/

/-- Lowering a value misses only arguments of its own. -/
theorem lostArg_of_missing {id : ValueId}
    (h : f.lowerValue options v = .error (.missingValue id)) : f.LostArg v id := by
  cases lowerValue_fails.missing h with
  | lost hLost => exact hLost

/-- Lowering a value overflows only if the exact offset of its operand is none. -/
theorem not_isOffset_of_overflow {w : Value}
    (h : f.lowerValue options v = .error (.offsetOverflow w)) :
    ∃ n, f.HasOffset v n ∧ ¬ IsOffset n := by
  cases lowerValue_fails.overflow h with
  | overflow hOffset hOut => exact ⟨_, hOffset, hOut⟩

/-- If lowering a terminator misses a value, that is its control value or an operand of that. -/
theorem lostControl_of_missing {id : ValueId}
    (h : f.lowerTerminator b next = .error (.missingValue id)) : f.LostControl b id := by
  cases lowerTerminator_fails.missing h with
  | lost hLost => exact hLost

end Func

end RiscvLowering
