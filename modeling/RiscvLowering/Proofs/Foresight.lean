import RiscvLowering.Proofs.Actions
import RiscvLowering.Proofs.Basic

/-!
# Foresight — a lowering that fails has done nothing

Work looks something up, acts, and may look up more before it acts again; where
an error ends it, what was done until then stays done (`Work.on_bind`). But no
lowering looks anything up once it has acted. So on every session it does what was
decided on, and where that is an error it has done nothing, but that a gap was
spoken of.

The work of each lowering is followed step by step, in the order of its lookups and
its actions. Work that acted first and looked up later would leave something behind
where the lookup fails; no decision does that, so such work would follow none.

Main results:

* `Session.lowerValue_eq`, `Session.lowerTerminator_eq`, `Session.gap_eq` — what
  each call does to a session is to attempt what was decided on.
-/

namespace RiscvLowering

/-! ## Lookups -/

/-- A lookup gives something or fails, but never for a gap: only work that speaks of a gap fails for
one. -/
def IsLookup {α : Type} (x : Except LoweringError α) : Prop := ∀ g, x ≠ .error (.unimplemented g)

namespace IsLookup

variable {α β : Type} {x : Except LoweringError α}

theorem of_ok (a : α) : IsLookup (.ok a : Except LoweringError α) := fun _ h => nomatch h

/-- What fails for anything else is a lookup. -/
theorem of_error {e : LoweringError} (h : ∀ g, e ≠ .unimplemented g) :
    IsLookup (.error e : Except LoweringError α) :=
  fun g hError => h g (Except.error.inj hError)

theorem cases {c : Prop} [Decidable c] {y : Except LoweringError α} (hx : IsLookup x)
    (hy : IsLookup y) : IsLookup (if c then x else y) := by
  split
  · exact hx
  · exact hy

/-- Lookups one after another are a lookup. -/
theorem bind {k : α → Except LoweringError β} (hx : IsLookup x) (hk : ∀ a, IsLookup (k a)) :
    IsLookup (x >>= k) := by
  intro g h
  rcases bind_eq_error_iff.mp h with hFirst | ⟨a, -, hRest⟩
  · exact hx g hFirst
  · exact hk a g hRest

end IsLookup

section Lookups

variable (f : Func) (v : Value) (b : Block)

theorem Value.isLookup_register : IsLookup v.register := by
  intro g h
  unfold register at h
  split at h <;> cases h

theorem Value.isLookup_baseRegister : IsLookup v.baseRegister := by
  intro g h
  unfold baseRegister at h
  split at h <;> cases h

theorem Ty.isLookup_width (ty : Ty) : IsLookup ty.width := by
  intro g h
  unfold width at h
  split at h
  · cases h
  · split at h <;> cases h

theorem isLookup_addOffsets (m n : Int64) : IsLookup (addOffsets v m n) := by
  intro g h
  unfold addOffsets at h
  split at h <;> cases h

/-- The operand of a value may fail in the sum of its offsets, or for its reference. -/
theorem Value.isLookup_address (base : Reg) : IsLookup (v.address base) := by
  unfold address
  split
  -- of what is referred to, only an argument adds its place, and only a marker's variable is
  -- refused
  case h_3 var => exact (isLookup_addOffsets v _ _).bind fun _ => .of_ok _
  case h_5 => exact .of_error fun _ h => nomatch h
  all_goals exact .of_ok _

theorem Block.isLookup_condition : IsLookup (b.condition v) := by
  intro g h
  unfold condition at h
  split at h <;> cases h

theorem Block.isLookup_branchTargets : IsLookup b.branchTargets := by
  intro g h
  unfold branchTargets at h
  split at h <;> cases h

theorem Block.isLookup_onlySuccessor : IsLookup b.onlySuccessor := by
  intro g h
  unfold onlySuccessor at h
  split at h <;> cases h

namespace Func

theorem isLookup_resolve (id : ValueId) : IsLookup (f.resolve id) := by
  intro g h
  unfold resolve at h
  split at h <;> cases h

/-- Finding an operand is a lookup, and so is finding its register. -/
theorem isLookup_arg (i : Nat) : IsLookup (f.arg v i) := by
  unfold arg
  split
  · exact f.isLookup_resolve _
  · exact .of_error fun _ h => nomatch h

theorem isLookup_argRegister (i : Nat) : IsLookup (f.argRegister v i) :=
  (f.isLookup_arg v i).bind fun a => a.isLookup_register

/-- The operand of a slot may fail in the sum of its offsets, or for want of a slot. -/
theorem isLookup_slotAddress : IsLookup (f.slotAddress v) := by
  unfold slotAddress
  split
  · exact .of_error fun _ h => nomatch h
  · -- the place of a variable counts for parameters only
    split
    · exact (isLookup_addOffsets v _ _).bind fun _ => .of_ok _
    · exact .of_ok _

/-- The check of a join looks up each argument in turn. -/
theorem isLookup_checkPhi : IsLookup (f.checkPhi v) := by
  unfold checkPhi
  -- by the arguments: the first is looked up, then the rest
  induction v.args with
  | nil => exact .of_ok _
  | cons id ids ih =>
    have hFirst : IsLookup (do
        let a ← f.resolve id
        if a.reg = v.reg then pure () else throw (LoweringError.phiNotLowered v a)) := by
      refine (f.isLookup_resolve id).bind fun a => ?_
      split
      · exact .of_ok _
      · exact .of_error fun _ h => nomatch h
    exact hFirst.bind fun _ => ih

/-- Checking a base compares what was looked up. -/
theorem isLookup_checkBase (want : Reg) : IsLookup (f.checkBase v want) := by
  refine (f.isLookup_argRegister v 0).bind fun found => ?_
  split
  · exact .of_ok _
  · exact .of_error fun _ h => nomatch h

/-- The control value is looked up, then its owner and its place are checked. -/
theorem isLookup_controlValue : IsLookup (f.controlValue b) := by
  unfold controlValue
  cases b.control with
  | none => exact .of_error fun _ h => nomatch h
  | some id =>
    refine (f.isLookup_resolve id).bind fun v => ?_
    -- both checks stand behind the lookup, in this order
    refine .cases (.of_error (e := .misplacedControl b v) fun _ h => nomatch h) ?_
    exact .cases (.of_error (e := .badlyScheduledControl b v) fun _ h => nomatch h) (.of_ok v)

end Func

end Lookups

/-! ## Work on a session -/

namespace Work

section On

variable {α β : Type} (s : Session)

/-- A lookup does nothing to a session. -/
theorem on_lookup (x : Except LoweringError α) : (liftM x : Work α).on s = (s, x) := rfl

/-- Work after work begins with the session as the first left it, and what the first did stays done
where it ends with an error. -/
theorem on_bind (m : Work α) (k : α → Work β) :
    (m >>= k).on s =
      match m.on s with
      | (s', .ok a) => (k a).on s'
      | (s', .error e) => (s', .error e) := by
  simp only [on, ExceptT.run_bind, StateT.run_bind]
  rcases StateT.run (ExceptT.run m) s with ⟨(e | a), s'⟩ <;> rfl

end On

-- Nothing is undone where an error ends the work, so that it matters what was done before.
example (s : Session) (e : LoweringError) :
    (do emit .ret; throw e : Work Unit).on s = ((s.emit .ret).2, .error e) := rfl

/-- The work is to take the action. -/
def Takes (m : Work Unit) (a : Action) : Prop := ∀ s, m.on s = (s.perform a, .ok ())

theorem takes_emit (inst : Inst) : (emit inst).Takes (.emit inst) := fun _ => rfl

theorem takes_emitBranch (inst : Inst) (target : BlockId) :
    (emitBranch inst target).Takes (.branch inst target) := fun _ => rfl

/-- A mark is made at the next instruction, of which the session is asked. -/
theorem takes_mark (kind : MarkKind) (var : FrameVar) : (mark kind var).Takes (.mark kind var) :=
  fun _ => rfl

theorem takes_note (n : Note) : (note n).Takes (.note n) := fun _ => rfl

/-- On the session, the work does what was decided on. -/
def Follows (m : Work Unit) (s : Session) (d : Except LoweringError (List Action)) : Prop :=
  m.on s = s.attempt d

end Work

/-- An error that is none of a gap leaves the session as it is. -/
theorem Session.attempt_error (s : Session) {e : LoweringError} (h : ∀ g, e ≠ .unimplemented g) :
    s.attempt (.error e) = (s, .error e) := by
  cases e with
  | unimplemented g => exact absurd rfl (h g)
  | _ => rfl

namespace Work.Follows

variable {α : Type} {s : Session} {m m' : Work Unit} {d d' : Except LoweringError (List Action)}
  {a : Action} {actions : List Action}

/-- Where nothing is decided on, nothing is done. -/
theorem nothing : Follows (pure ()) s (.ok []) := rfl

/-- One action is taken, and nothing else. -/
theorem last (h : m.Takes a) : Follows m s (.ok [a]) := h s

/-- The actions are taken one after another. -/
theorem next (h : m.Takes a) (hRest : Follows m' (s.perform a) (.ok actions)) :
    Follows (m >>= fun _ => m') s (.ok (a :: actions)) := by
  rw [Follows, on_bind, h]
  exact hRest

/-- Work that refuses has done nothing, if what was decided on is the same error. -/
theorem refused {e : LoweringError} (h : ∀ g, e ≠ .unimplemented g) :
    Follows (throw e) s (.error e) := (s.attempt_error h).symm

/-- Nothing follows where work refuses. -/
theorem refused_first {e : LoweringError} {k : α → Work Unit} (h : ∀ g, e ≠ .unimplemented g) :
    Follows (throw e >>= k) s (.error e) := (s.attempt_error h).symm

/-- A lookup made before everything else is one that was made for the decision. -/
theorem lookup {x : Except LoweringError α} {k : α → Work Unit}
    {k' : α → Except LoweringError (List Action)} (hx : IsLookup x)
    (h : ∀ a, Follows (k a) s (k' a)) : Follows (liftM x >>= k) s (x >>= k') := by
  cases x with
  | ok a => exact h a
  | error e =>
    -- an attempt speaks of a gap that is an error, so it matters that this error is none
    have hPlain : ∀ g, e ≠ .unimplemented g := fun g hGap => hx g (congrArg Except.error hGap)
    exact refused_first hPlain

/-- Work asks the session for its function and its options only. -/
theorem func {k : Func → Work Unit} (h : Follows (k s.func) s d) : Follows (Work.func >>= k) s d := h

/-- The options are asked for, as the function is. -/
theorem options {k : Options → Work Unit} (h : Follows (k s.options) s d) :
    Follows (Work.options >>= k) s d := h

/-- Both ways of a case are followed. -/
theorem cases {c : Prop} [Decidable c] (h : c → Follows m s d) (h' : ¬ c → Follows m' s d') :
    Follows (if c then m else m') s (if c then d else d') := by
  split
  · exact h ‹c›
  · exact h' ‹¬ c›

/-- A gap is spoken of, whether it is an error or not. -/
theorem gap (g : Gap) : Follows (Work.gap g) s (s.options.gap g) := by
  rw [Options.gap]
  -- to speak changes neither the function nor the options, so the case is that of the decision
  show on (if s.options.failOnGap then (throw (.unimplemented g) >>= fun _ => _) else _)
    (s.say (.gap s.func.name g)) = _
  split <;> rfl

/-! ## Values -/

variable (v : Value)

/-- A marker is one statement, about its variable. -/
theorem lowerMark (kind : MarkKind) : Follows (Work.lowerMark v kind) s (v.lowerMark kind) := by
  rw [Work.lowerMark, Value.lowerMark]
  cases v.aux with
  | var var => exact last (takes_mark kind var)
  | _ => exact refused fun _ h => nomatch h

theorem lowerConst : Follows (Work.lowerConst v) s v.lowerConst :=
  lookup v.isLookup_register fun _ => last (takes_emit _)

/-- The work of a join is its check, after which nothing is done. -/
theorem lowerPhi : Follows (Work.lowerPhi v) s (s.func.lowerPhi v) := by
  refine cases (fun _ => nothing) fun _ => func ?_
  have hLookup : IsLookup (s.func.checkPhi v) := s.func.isLookup_checkPhi v
  cases hCheck : s.func.checkPhi v with
  | ok => exact nothing
  | error e => exact refused fun g hGap => hLookup g (hGap ▸ hCheck)

/-- Both registers of a copy are looked up before it is seen whether it moves anything. -/
theorem lowerCopy : Follows (Work.lowerCopy v) s (s.func.lowerCopy v) := by
  -- the state of memory is in no register
  refine cases (fun _ => nothing) fun _ => func ?_
  refine lookup (s.func.isLookup_argRegister v 0) fun rs => lookup v.isLookup_register fun rd => ?_
  refine cases (fun _ => last (takes_note _)) fun _ => ?_
  exact cases (fun _ => refused_first fun _ h => nomatch h) fun _ => last (takes_emit _)

/-- Flags are a gap; anything else is looked up from its width to its register, and then loaded. -/
theorem lowerReload : Follows (Work.lowerReload v) s (s.func.lowerReload s.options v) := by
  refine cases (fun _ => gap _) fun _ => ?_
  refine lookup v.ty.isLookup_width fun width => func ?_
  refine lookup (s.func.isLookup_arg v 0) fun spilled => func ?_
  refine lookup (s.func.isLookup_slotAddress spilled) fun addr => ?_
  exact lookup v.isLookup_register fun rd => last (takes_emit _)

/-- A spill of flags is a gap; any other is three lookups and a store. -/
theorem lowerSpill : Follows (Work.lowerSpill v) s (s.func.lowerSpill s.options v) := by
  refine cases (fun _ => gap _) fun _ => ?_
  refine lookup v.ty.isLookup_width fun width => func ?_
  refine lookup (s.func.isLookup_argRegister v 0) fun rs => func ?_
  exact lookup (s.func.isLookup_slotAddress v) fun addr => last (takes_emit _)

theorem lowerAlu (op : AluOp) : Follows (Work.lowerAlu op v) s (s.func.lowerAlu op v) := by
  refine func (lookup (s.func.isLookup_argRegister v 0) fun rs1 => ?_)
  refine func (lookup (s.func.isLookup_argRegister v 1) fun rs2 => ?_)
  exact lookup v.isLookup_register fun rd => last (takes_emit _)

theorem lowerAluImm (op : AluImmOp) :
    Follows (Work.lowerAluImm op v) s (s.func.lowerAluImm op v) := by
  refine func (lookup (s.func.isLookup_argRegister v 0) fun rs1 => ?_)
  exact lookup v.isLookup_register fun rd => last (takes_emit _)

theorem lowerZeroTest (test : ZeroTest) :
    Follows (Work.lowerZeroTest test v) s (s.func.lowerZeroTest test v) := by
  refine func (lookup (s.func.isLookup_argRegister v 0) fun rs => ?_)
  exact lookup v.isLookup_register fun rd => last (takes_emit _)

/-- The base is checked, where it is, before the operand is looked up. -/
theorem lowerAddress : Follows (Work.lowerAddress v) s (s.func.lowerAddress s.options v) := by
  refine lookup v.isLookup_baseRegister fun base => options ?_
  -- the same lookups are left whether the base is checked or not
  have hRest : Follows (do
        let addr ← v.address base
        let rd ← v.register
        emit (.la rd addr)) s (do
        let addr ← v.address base
        let rd ← v.register
        return [.emit (.la rd addr)]) :=
    lookup (v.isLookup_address base) fun addr =>
      lookup v.isLookup_register fun rd => last (takes_emit _)
  exact cases (fun _ => func (lookup (s.func.isLookup_checkBase v base) fun _ => hRest))
    fun _ => hRest

theorem lowerLoad : Follows (Work.lowerLoad v) s (s.func.lowerLoad v) := by
  refine lookup v.ty.isLookup_width fun width => func ?_
  refine lookup (s.func.isLookup_argRegister v 0) fun base => ?_
  refine lookup (v.isLookup_address base) fun addr => ?_
  exact lookup v.isLookup_register fun rd => last (takes_emit _)

/-- A store looks at what it stores before it looks at where to. -/
theorem lowerStore : Follows (Work.lowerStore v) s (s.func.lowerStore v) := by
  refine func (lookup (s.func.isLookup_arg v 1) fun stored => ?_)
  refine lookup stored.ty.isLookup_width fun width => func ?_
  refine lookup (s.func.isLookup_argRegister v 0) fun base => ?_
  refine lookup (v.isLookup_address base) fun addr => ?_
  exact lookup stored.isLookup_register fun rs => last (takes_emit _)

/-- The one lowering of a value that emits more than once: its only lookup stands before. -/
theorem lowerExit : Follows (Work.lowerExit v) s (s.func.lowerExit v) := by
  refine func (lookup (s.func.isLookup_argRegister v 0) fun code => ?_)
  exact next (takes_emit _) (next (takes_emit _) (last (takes_emit _)))

/-! ## Terminators -/

variable (b : Block) (next? : Option BlockId)

/-- With its only successor at hand, a block goes on or jumps. -/
theorem lowerGoto : Follows (Work.lowerGoto b next?) s (b.lowerGoto next?) := by
  -- the decision matches on the successors in one go, so its lookup is told apart first
  have hDecision : b.lowerGoto next? = b.onlySuccessor >>= fun succ =>
      if next? = some succ then .ok [.note (.fallsThrough succ)] else .ok [.branch .jump succ] := by
    rw [Block.lowerGoto, Block.onlySuccessor]
    rcases b.succs with _ | ⟨succ, _ | ⟨_, _⟩⟩ <;> rfl
  rw [hDecision]
  refine lookup b.isLookup_onlySuccessor fun succ => ?_
  exact cases (fun _ => last (takes_note _)) fun _ => last (takes_emitBranch _ _)

/-- The one terminator that may emit twice: all its lookups stand before. -/
theorem lowerBranch : Follows (Work.lowerBranch b next?) s (s.func.lowerBranch b next?) := by
  refine func (lookup (s.func.isLookup_controlValue b) fun v => ?_)
  refine lookup (b.isLookup_condition v) fun cond => ?_
  refine lookup b.isLookup_branchTargets fun (yes, no) => func ?_
  refine lookup (s.func.isLookup_argRegister v 0) fun rs1 => func ?_
  refine lookup (s.func.isLookup_argRegister v 1) fun rs2 => ?_
  -- with both registers at hand nothing can fail any more, not even between the two jumps
  show Follows _ s (.ok (branchActions cond rs1 rs2 yes no next?))
  rw [branchActions]
  split
  · exact next (takes_note _) (last (takes_emitBranch _ _))
  · split
    · exact last (takes_emitBranch _ _)
    · exact next (takes_emitBranch _ _) (last (takes_emitBranch _ _))

end Work.Follows

/-! ## Calls -/

namespace Session

variable (s : Session)

/-- To record a gap is to attempt what the options decide. -/
theorem gap_eq (g : Gap) : s.gap g = s.attempt (s.options.gap g) := Work.Follows.gap g

open Work.Follows in
/-- **To lower a value is to attempt what was decided on**, for its line. -/
theorem lowerValue_eq (v : Value) :
    s.lowerValue v =
      ((s.setLine v.line).say (.loweringValue v)).attempt (s.func.lowerValue s.options v) := by
  rw [lowerValue, Work.lowerValue, Func.lowerValue]
  -- the line is set and the value is spoken of, whatever comes of it
  change Work.Follows _ ((s.setLine v.line).say (.loweringValue v)) _
  cases v.op with
  | initMem | arg | sp | sb => exact last (Work.takes_note _)
  | phi => exact lowerPhi v
  | copy | movConvert => exact lowerCopy v
  | loadReg => exact lowerReload v
  | storeReg => exact lowerSpill v
  | mark kind => exact lowerMark v kind
  | generic op => exact refused fun _ h => nomatch h
  | alu op => exact lowerAlu v op
  | aluImm op => exact lowerAluImm v op
  | const size => exact lowerConst v
  | movMem => exact lowerAddress v
  | movLoad => exact lowerLoad v
  | movStore => exact lowerStore v
  | zeroTest test => exact lowerZeroTest v test
  | compare cond => exact last (Work.takes_note _)
  | nilCheck => exact Work.Follows.gap _
  | exitProc => exact lowerExit v

open Work.Follows in
/-- **To lower a terminator is to attempt what was decided on**, for the line of its block. -/
theorem lowerTerminator_eq (b : Block) (next : Option BlockId) :
    s.lowerTerminator b next =
      ((s.setLine b.line).say (.loweringTerminator b next)).attempt
        (s.func.lowerTerminator b next) := by
  rw [lowerTerminator, Work.lowerTerminator, Func.lowerTerminator]
  change Work.Follows _ ((s.setLine b.line).say (.loweringTerminator b next)) _
  -- the line is set before anything can fail, on both sides
  cases b.kind with
  | plain | call | check => exact lowerGoto b next
  | exit | ret => exact last (Work.takes_emit _)
  | branch => exact lowerBranch b next
  | generic kind => exact refused fun _ h => nomatch h

end Session

end RiscvLowering
