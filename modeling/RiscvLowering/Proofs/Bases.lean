import RiscvLowering.Proofs.Emission
import RiscvLowering.Proofs.Schedule

/-!
# Bases — what the check of base registers does to a lowering

An address is based on the register that its symbol asks for, whatever register
its argument is in. With the check of base registers, a value whose argument is
in another register, or in none, is refused; without it, nothing looks at the
argument. So the two lowerings do the same up to the first such value, and there
the one with the check stops.

Main results:

* `lowerValue_checked_of_misbased`, `lowerValue_checked_of_based` — the check
  refuses the values that are `Misbased`, and has no part in any other.
* `runPiece_checked_of_based`, `FirstMisbased.stopsAt` — so a run with the check
  is the run without it, up to the first value that is misbased.
* `isBased_of_mem_runPiece` — every address emitted is based on the register
  that its symbol asks for, with the check and without it.
* `base_check_only_filters` — what this means for functions.
-/

namespace RiscvLowering

namespace Options

/-- The options with the check of base registers. -/
def checked (options : Options) : Options := { options with checkBaseReg := true }

/-- The options without the check of base registers. -/
def unchecked (options : Options) : Options := { options with checkBaseReg := false }

end Options

/-- The register that operands with the symbol are based on. -/
def Symbol.baseRegister : Symbol → Reg
  | global _ => .gp
  | none | param _ | auto _ => .sp

/-- If the instruction makes an address, that is based on the register that its
symbol asks for. -/
def Inst.IsBased : Inst → Prop
  | la _ addr => addr.base = some addr.symbol.baseRegister
  | _ => True

namespace Func

/-- The value is the address of a symbol, and its argument is not in the register
that the symbol asks for. -/
def Misbased (f : Func) (v : Value) : Prop :=
  v.op = .movMem ∧ (∀ var, v.aux ≠ .var var) ∧ ¬ f.HasArgIn v 0 v.symbolBase

/-- Why the argument of an address is not in the register that its symbol asks for. -/
inductive BaseError (f : Func) (v : Value) : LoweringError → Prop
  | noArg : v.args = [] → BaseError f v (.missingArg 0 v)
  | noValue {id : ValueId} : v.args.head? = some id → f.value? id = none →
      BaseError f v (.missingValue id)
  | noRegister {a : Value} : f.HasArg v 0 a → a.reg = none → BaseError f v (.noRegister a)
  | other {found : Reg} : f.HasArgIn v 0 found → found ≠ v.symbolBase →
      BaseError f v (.badBaseReg found v.symbolBase v)

/-- The step lowers a value that is misbased. -/
def LowersMisbased (f : Func) (x : Step) : Prop := ∃ v, f.stepValue? x = some v ∧ f.Misbased v

variable {f : Func} {options : Options} {v : Value} {x : Step} {xs : List Step} {p : Piece}

/-! ## Values -/

/-- The check refuses an argument that is not in the register asked for. -/
theorem checkBase_of_not_hasArgIn (h : ¬ f.HasArgIn v 0 v.symbolBase) :
    ∃ e, f.checkBase v v.symbolBase = .error e ∧ f.BaseError v e := by
  rw [checkBase, argRegister, arg]
  -- one case for each thing that the check asks for, in its order
  cases hArgs : v.args[0]? with
  | none =>
    have hNil : v.args = [] := by simpa using hArgs
    exact ⟨_, rfl, .noArg hNil⟩
  | some id =>
    simp only [resolve]
    cases ha : f.value? id with
    | none => exact ⟨_, rfl, .noValue (List.head?_eq_getElem? ▸ hArgs) ha⟩
    | some a =>
      simp only [Value.register, ok_bind]
      cases hReg : a.reg with
      | none => exact ⟨_, rfl, .noRegister ⟨id, hArgs, ha⟩ hReg⟩
      | some found =>
        have hFound : f.HasArgIn v 0 found := ⟨a, ⟨id, hArgs, ha⟩, hReg⟩
        have hOther : found ≠ v.symbolBase := fun hSame => h (hSame ▸ hFound)
        refine ⟨.badBaseReg found v.symbolBase v, ?_, .other hFound hOther⟩
        rw [ok_bind, if_neg hOther]
        rfl

/-- **The check refuses every value that is misbased.** -/
theorem lowerValue_checked_of_misbased (options : Options) (h : f.Misbased v) :
    ∃ e, f.lowerValue options.checked v = .error e ∧ f.BaseError v e := by
  obtain ⟨hOp, hAux, hArg⟩ := h
  obtain ⟨e, hCheck, hError⟩ := checkBase_of_not_hasArgIn hArg
  refine ⟨e, ?_, hError⟩
  have hBase : v.baseRegister = .ok v.symbolBase := Value.baseRegister_eq_ok_iff.mpr ⟨hAux, rfl⟩
  simp only [lowerValue, hOp, lowerAddress, hBase, ok_bind, Options.checked, if_true, hCheck]
  rfl

/-- **The check has no part in any other value.** -/
theorem lowerValue_checked_of_based (h : ¬ f.Misbased v) :
    f.lowerValue options.checked v = f.lowerValue options.unchecked v := by
  rw [lowerValue, lowerValue]
  cases hOp : v.op with
  | movMem =>
    simp only [lowerAddress, Options.checked, Options.unchecked, if_true, Bool.false_eq_true,
      if_false]
    -- an address without base fails before the check, any other passes it
    cases hBase : v.baseRegister with
    | error e => rfl
    | ok base =>
      obtain ⟨hAux, rfl⟩ := Value.baseRegister_eq_ok_iff.mp hBase
      have hArg : f.HasArgIn v 0 v.symbolBase := by
        by_contra hNot
        exact h ⟨hOp, hAux, hNot⟩
      have hCheck : f.checkBase v v.symbolBase = .ok () :=
        checkBase_eq_ok_iff.mpr (argRegister_eq_ok_iff_hasArgIn.mpr hArg)
      rw [ok_bind, ok_bind, hCheck, ok_bind]
  | _ => rfl

/-! ## Runs -/

/-- With the check, a step that lowers a misbased value fails for its base and leaves nothing
behind. -/
theorem stepPiece_checked_of_misbased (options : Options) (hv : f.stepValue? x = some v)
    (h : f.Misbased v) :
    ∃ e, f.stepPiece options.checked x = ({}, .error e) ∧ f.BaseError v e := by
  -- only a step that lowers a value can be misbased
  cases x with
  | start | terminator => simp [stepValue?] at hv
  | value id =>
    obtain ⟨e, hLower, hError⟩ := lowerValue_checked_of_misbased options h
    refine ⟨e, ?_, hError⟩
    rw [stepPiece, resolve_eq_ok_iff.mpr hv]
    simp only [hLower, Piece.ofDecision]

theorem stepPiece_checked_of_based (h : ¬ f.LowersMisbased x) :
    f.stepPiece options.checked x = f.stepPiece options.unchecked x := by
  -- the check speaks of values only, so the other steps do not see it
  cases x with
  | start | terminator => rfl
  | value id =>
    rw [stepPiece, stepPiece]
    cases hv : f.value? id with
    | none => rw [resolve, hv]
    | some v =>
      have hBased : ¬ f.Misbased v := fun hMisbased => h ⟨v, hv, hMisbased⟩
      rw [resolve_eq_ok_iff.mpr hv]
      simp only [lowerValue_checked_of_based hBased]

/-- A run without misbased values is the same with the check. -/
theorem runPiece_checked_of_based (h : ∀ x ∈ xs, ¬ f.LowersMisbased x) :
    f.runPiece options.checked xs = f.runPiece options.unchecked xs := by
  induction xs with
  | nil => rfl
  | cons x xs ih =>
    obtain ⟨hFirst, hRest⟩ := List.forall_mem_cons.mp h
    rw [runPiece, runPiece, stepPiece_checked_of_based hFirst, ih hRest]

/-- The `n`-th step is the first that lowers a misbased value. -/
structure FirstMisbased (f : Func) (xs : List Step) (n : Nat) (v : Value) : Prop where
  here : ∃ x, xs[n]? = some x ∧ f.stepValue? x = some v
  misbased : f.Misbased v
  before : ∀ y ∈ xs.take n, ¬ f.LowersMisbased y

/-- Of the steps of a run none lowers a misbased value, or there is a first that does. -/
theorem based_or_firstMisbased (f : Func) (xs : List Step) :
    (∀ x ∈ xs, ¬ f.LowersMisbased x) ∨ ∃ n v, f.FirstMisbased xs n v := by
  -- the first step decides, or the rest does and counts one more
  induction xs with
  | nil => exact .inl (by simp)
  | cons x xs ih =>
    by_cases hx : f.LowersMisbased x
    · obtain ⟨v, hv, hMisbased⟩ := hx
      exact .inr ⟨0, v, ⟨x, rfl, hv⟩, hMisbased, by simp⟩
    · obtain hRest | ⟨n, v, ⟨y, hy, hv⟩, hMisbased, hBefore⟩ := ih
      · exact .inl (List.forall_mem_cons.mpr ⟨hx, hRest⟩)
      · exact .inr ⟨n + 1, v, ⟨y, hy, hv⟩, hMisbased, List.forall_mem_cons.mpr ⟨hx, hBefore⟩⟩

/-- The check stops at the first misbased value, if it gets there. -/
theorem FirstMisbased.stopsAt {n : Nat} (h : f.FirstMisbased xs n v) (options : Options)
    (hBefore : ∀ y ∈ xs.take n, (f.alone options.unchecked y).2 = .ok ()) :
    ∃ e, f.StopsAt options.checked xs n e ∧ f.BaseError v e := by
  obtain ⟨x, hx, hv⟩ := h.here
  -- the check lets all steps before it pass, and refuses this one
  obtain ⟨e, hStep, hError⟩ := stepPiece_checked_of_misbased options hv h.misbased
  refine ⟨e, ⟨fun y hy => ?_, x, hx, ?_⟩, hError⟩
  · rw [end_alone, stepPiece_checked_of_based (h.before y hy), ← end_alone]
    exact hBefore y hy
  · rw [end_alone, hStep]

/-- Without misbased values up to its stop, a run stops alike with the check. -/
theorem StopsAt.checked {n : Nat} {e : LoweringError} (h : f.StopsAt options.unchecked xs n e)
    (hBased : ∀ y ∈ xs.take (n + 1), ¬ f.LowersMisbased y) : f.StopsAt options.checked xs n e := by
  obtain ⟨hBefore, x, hx, hFails⟩ := h
  -- up to the stop, the stop included, each step ends alike
  have hSame : ∀ y ∈ xs.take (n + 1),
      (f.alone options.checked y).2 = (f.alone options.unchecked y).2 := by
    intro y hy
    rw [end_alone, end_alone, stepPiece_checked_of_based (hBased y hy)]
  have hHere : x ∈ xs.take (n + 1) :=
    List.mem_of_getElem? (i := n) (by rw [List.getElem?_take_of_lt (by omega), hx])
  refine ⟨fun y hy => ?_, x, hx, (hSame x hHere).trans hFails⟩
  have hEarlier : y ∈ xs.take (n + 1) := (List.take_prefix_take_left (by omega)).subset hy
  exact (hSame y hEarlier).trans (hBefore y hy)

/-! ## Addresses -/

/-- An address that is lowered is based on the register that its symbol asks for. -/
theorem isBased_address {base rd : Reg} {addr : Address} (hBase : v.baseRegister = .ok base)
    (hAddr : v.address base = .ok addr) : (Inst.la rd addr).IsBased := by
  -- what is referred to gives both the symbol and the base; the argument gives neither
  rw [Value.baseRegister] at hBase
  rw [Value.address] at hAddr
  rw [Inst.IsBased]
  cases hAux : v.aux with
  | none | global name | auto var =>
    simp only [hAux, Except.ok.injEq] at hBase hAddr
    rw [← hAddr, ← hBase]
    rfl
  | arg var =>
    simp only [hAux, Except.ok.injEq, bind_eq_ok_iff, pure_eq_ok_iff] at hBase hAddr
    obtain ⟨offset, -, rfl⟩ := hAddr
    rw [← hBase]
    rfl
  | var var => simp [hAux] at hBase

/-- No operation but one makes addresses, and that bases them on what their symbols ask for. -/
theorem Emits.isBased {insts : List Inst} (h : f.Emits v insts) : ∀ i ∈ insts, i.IsBased := by
  -- all instructions but one are based by being none that makes an address
  cases h with
  | address _ hBase hAddr _ => exact List.forall_mem_singleton.mpr (isBased_address hBase hAddr)
  | silent _ => simp
  | copy _ _ _ _ =>
    split
    · simp
    · exact List.forall_mem_singleton.mpr trivial
  | exit _ _ => simp [Inst.IsBased]
  | alu | aluImm | const | zeroTest | reload | spill | load | store =>
    exact List.forall_mem_singleton.mpr trivial

theorem Leaves.isBased {b : Block} {next : Option BlockId} {actions : List Action}
    (h : f.Leaves b next actions) : ∀ i ∈ actions.filterMap Action.inst?, i.IsBased := by
  -- the ways out emit jumps, branches and ends, and no address
  cases h with
  | goto _ _ =>
    rw [Piece.insts_gotoActions]
    split <;> simp [Inst.IsBased]
  | exit _ | ret _ => simp [Action.inst?, Inst.IsBased]
  | branch _ _ _ _ _ _ =>
    rw [Piece.insts_branchActions]
    split
    · simp [Inst.IsBased]
    · split <;> simp [Inst.IsBased]

/-- Whatever a step emits is based on the register that is asked for. -/
theorem isBased_of_mem_stepPiece {q : Placed} (h : q ∈ (f.stepPiece options x).1.code) :
    q.inst.IsBased := by
  -- a step that fails emits nothing
  rcases hStep : f.stepPiece options x with ⟨p, (e | ⟨⟩)⟩
  · rw [hStep, stepPiece_eq_of_error hStep] at h
    exact absurd h List.not_mem_nil
  · rw [hStep] at h
    have hInst : q.inst ∈ p.code.map (·.inst) := List.mem_map_of_mem h
    cases x with
    | start b =>
      obtain ⟨rfl, -⟩ := Prod.mk.inj hStep
      exact absurd h List.not_mem_nil
    | value id =>
      obtain ⟨v, actions, -, hLower, rfl⟩ := stepPiece_value_eq_ok_iff.mp hStep
      rw [Piece.insts_ofActions] at hInst
      exact (lowerValue_emits hLower).isBased _ hInst
    | terminator b next =>
      obtain ⟨actions, hActions, rfl⟩ := ofDecision_eq_ok_iff.mp hStep
      rw [Piece.insts_ofActions] at hInst
      exact (lowerTerminator_eq_ok_iff.mp hActions).isBased _ hInst

/-- **Every address that a run emits is based on the register that its symbol
asks for**, however the run ends. -/
theorem isBased_of_mem_runPiece {q : Placed} (h : q ∈ (f.runPiece options xs).1.code) :
    q.inst.IsBased := by
  induction xs with
  | nil => exact absurd h List.not_mem_nil
  | cons x xs ih =>
    -- how the run ends does not matter: what is emitted stays in the code
    have hFirst : ∀ q ∈ (f.stepPiece options x).1.code, q.inst.IsBased :=
      fun q hq => isBased_of_mem_stepPiece hq
    rw [runPiece] at h
    rcases hStep : f.stepPiece options x with ⟨p, (e | ⟨⟩)⟩
    · rw [hStep] at h hFirst
      exact hFirst q h
    · rw [hStep] at h hFirst
      rcases List.mem_append.mp h with hq | hq
      · exact hFirst q hq
      · exact ih hq

/-! ## Functions -/

variable {out : Output} {e : LoweringError}

/-- Lowering fails exactly where its steps stop. -/
theorem result_eq_error_iff_stopsAt :
    (f.lower options).result = .error e ↔ ∃ n, f.StopsAt options (layoutSteps f.blocks) n e := by
  rw [result_eq_error_iff]
  constructor
  · intro hEnd
    obtain ⟨n, hStops, -⟩ := exists_stopsAt (Prod.ext rfl hEnd)
    exact ⟨n, hStops⟩
  · rintro ⟨n, hBefore, x, hx, hFails⟩
    -- the law of errors is about runs joined from parts; here each step is a part of its own
    rw [← List.flatMap_singleton' (layoutSteps f.blocks), runPiece_flatMap_eq_error_iff]
    simp only [end_runPiece_singleton]
    exact ⟨n, x, hx, hBefore, hFails⟩

/-- Where no value is misbased, lowering with the check is lowering without it. -/
theorem lower_checked_of_based (options : Options)
    (h : ∀ x ∈ layoutSteps f.blocks, ¬ f.LowersMisbased x) :
    (f.lower options.checked).result = (f.lower options.unchecked).result ∧
      (f.lower options.checked).marks = (f.lower options.unchecked).marks := by
  obtain ⟨hResult, hMarks⟩ := f.lower_eq_runPiece options.checked
  obtain ⟨hResult', hMarks'⟩ := f.lower_eq_runPiece options.unchecked
  rw [hResult, hResult', hMarks, hMarks', runPiece_checked_of_based h]
  exact ⟨rfl, rfl⟩

/-- Where the check refuses nothing, no value is misbased. -/
theorem based_of_result_checked (h : (f.lower options.checked).result = .ok out) :
    ∀ x ∈ layoutSteps f.blocks, ¬ f.LowersMisbased x := by
  rintro x hx ⟨v, hv, hMisbased⟩
  obtain ⟨p, hLowers, -⟩ := result_eq_ok_iff.mp h
  obtain ⟨q, hOk⟩ := exists_stepPiece_of_mem hLowers hx
  obtain ⟨e, hFails, -⟩ := stepPiece_checked_of_misbased options hv hMisbased
  rw [hOk] at hFails
  simp at hFails

/-- With the check, lowering fails where it fails without, or sooner. -/
theorem stopsAt_checked {n : Nat} (h : f.StopsAt options.unchecked xs n e) :
    ∃ n' e', n' ≤ n ∧ f.StopsAt options.checked xs n' e' := by
  rcases f.based_or_firstMisbased xs with hBased | ⟨m, v, hFirst⟩
  · exact ⟨n, e, Nat.le_refl n, h.checked fun y hy => hBased y (List.mem_of_mem_take hy)⟩
  · rcases Nat.lt_or_ge n m with hlt | hge
    · -- the stop comes before anything that is misbased
      have hSub : xs.take (n + 1) <+: xs.take m := List.take_prefix_take_left hlt
      exact ⟨n, e, Nat.le_refl n, h.checked fun y hy => hFirst.before y (hSub.subset hy)⟩
    · have hSub : xs.take m <+: xs.take n := List.take_prefix_take_left hge
      obtain ⟨e', hStops, -⟩ := hFirst.stopsAt options fun y hy => h.before y (hSub.subset hy)
      exact ⟨m, e', hge, hStops⟩

/-- What is refused by the check alone is the first value that is misbased. -/
theorem stopsAt_firstMisbased (h : (f.lower options.unchecked).result = .ok out)
    (hChecked : (f.lower options.checked).result = .error e) :
    ∃ n v, f.FirstMisbased (layoutSteps f.blocks) n v ∧
      f.StopsAt options.checked (layoutSteps f.blocks) n e ∧ f.BaseError v e := by
  obtain ⟨p, hLowers, -⟩ := result_eq_ok_iff.mp h
  -- if no value were misbased, the check would change nothing
  rcases f.based_or_firstMisbased (layoutSteps f.blocks) with hBased | ⟨n, v, hFirst⟩
  · rw [(lower_checked_of_based options hBased).1, h] at hChecked
    simp at hChecked
  · obtain ⟨e', hStops, hError⟩ := hFirst.stopsAt options fun y hy => by
      obtain ⟨q, hOk⟩ := exists_stepPiece_of_mem hLowers (List.mem_of_mem_take hy)
      rw [end_alone, hOk]
    have hResult := result_eq_error_iff_stopsAt.mpr ⟨n, hStops⟩
    -- the error is the one that the check gives for that value
    obtain rfl := Except.error.inj (hResult.symm.trans hChecked)
    exact ⟨n, v, hFirst, hStops, hError⟩

/-- **The check of base registers only filters.** What is lowered with it is
lowered without it, to the same. What fails without it fails with it, at the
same step or sooner. What fails with it alone fails at the first value that is
misbased, for that reason. A function without such values is lowered alike. And
with it or without, every address is based on the register that its symbol asks
for: in all code that steps emit, and so in what a function is lowered to. -/
theorem base_check_only_filters (f : Func) (options : Options) :
    (∀ out, (f.lower options.checked).result = .ok out →
      (f.lower options.unchecked).result = .ok out ∧
        (f.lower options.unchecked).marks = (f.lower options.checked).marks) ∧
    (∀ e, (f.lower options.unchecked).result = .error e →
      ∃ n n' e', f.StopsAt options.unchecked (layoutSteps f.blocks) n e ∧
        (f.lower options.checked).result = .error e' ∧
        f.StopsAt options.checked (layoutSteps f.blocks) n' e' ∧ n' ≤ n) ∧
    (∀ out e, (f.lower options.unchecked).result = .ok out →
      (f.lower options.checked).result = .error e →
      ∃ n v, f.FirstMisbased (layoutSteps f.blocks) n v ∧
        f.StopsAt options.checked (layoutSteps f.blocks) n e ∧ f.BaseError v e) ∧
    ((∀ v ∈ f.scheduled, v.op = .movMem → (∀ var, v.aux ≠ .var var) →
        f.HasArgIn v 0 v.symbolBase) →
      (f.lower options.checked).result = (f.lower options.unchecked).result ∧
        (f.lower options.checked).marks = (f.lower options.unchecked).marks) ∧
    (∀ xs, ∀ q ∈ f.codeOf options xs, q.inst.IsBased) ∧
    ∀ out, (f.lower options).result = .ok out → ∀ q ∈ out.code, q.inst.IsBased := by
  refine ⟨fun out hChecked => ?_, fun e hUnchecked => ?_, fun out e => stopsAt_firstMisbased,
    fun hAll => ?_, fun xs q hq => ?_, fun out hOut q hq => ?_⟩
  · -- nothing was refused, so the check had no part in it
    obtain ⟨hResult, hMarks⟩ :=
      lower_checked_of_based options (based_of_result_checked hChecked)
    exact ⟨hResult ▸ hChecked, hMarks.symm⟩
  · obtain ⟨n, hStops⟩ := result_eq_error_iff_stopsAt.mp hUnchecked
    obtain ⟨n', e', hLe, hStops'⟩ := stopsAt_checked hStops
    exact ⟨n, n', e', hStops, result_eq_error_iff_stopsAt.mpr ⟨n', hStops'⟩, hStops', hLe⟩
  · -- steps lower scheduled values only
    refine lower_checked_of_based options ?_
    rintro x hx ⟨v, hv, hOp, hAux, hArg⟩
    have hScheduled : v ∈ f.scheduled := by
      rw [← filterMap_stepValue?_layoutSteps]
      exact List.mem_filterMap.mpr ⟨x, hx, hv⟩
    exact hArg (hAll v hScheduled hOp hAux)
  · rw [codeOf_eq] at hq
    exact isBased_of_mem_runPiece hq
  · obtain ⟨p, hLowers, rfl⟩ := result_eq_ok_iff.mp hOut
    have hPiece : (f.runPiece options (layoutSteps f.blocks)).1 = p := congrArg Prod.fst hLowers
    rw [← hPiece] at hq
    exact isBased_of_mem_runPiece hq

/-- The address of an argument, off a base in some register. -/
def argumentAddress (base : Reg) (offset : Int64) : Func where
  name := "address"
  values := [{ id := 0, op := .sp, ty := .ptr, reg := some base, block := 0 },
    { id := 1, op := .movMem, ty := .ptr, args := [0], auxInt := offset,
      aux := .arg { name := "n", varClass := .param, frameOffset := 8 }, reg := some .t0,
      block := 0 }]
  blocks := [{ id := 0, kind := .ret, values := [0, 1] }]

/-- Off the stack pointer, the address passes the check; off another register, the check refuses
it, also where the lowering without the check finds something else that is wrong with it. -/
theorem base_check_only_filters_address :
    let checked : Options := Options.checked {}
    let unchecked : Options := Options.unchecked {}
    let based := argumentAddress .sp 0
    let misbased := argumentAddress .gp 0
    let overflowing := argumentAddress .gp Int64.maxValue
    (∃ out, (based.lower checked).result = .ok out ∧ (based.lower unchecked).result = .ok out ∧
      ∀ q ∈ out.code, q.inst.IsBased) ∧
    (∃ out e n v, (misbased.lower unchecked).result = .ok out ∧
      (misbased.lower checked).result = .error e ∧
      misbased.FirstMisbased (layoutSteps misbased.blocks) n v ∧ misbased.BaseError v e) ∧
    (∃ e e' n n', (overflowing.lower unchecked).result = .error e ∧
      e.className = "offset-overflow" ∧
      (overflowing.lower checked).result = .error e' ∧
      overflowing.StopsAt unchecked (layoutSteps overflowing.blocks) n e ∧
      overflowing.StopsAt checked (layoutSteps overflowing.blocks) n' e' ∧ n' ≤ n) := by
  intro checked unchecked based misbased overflowing
  refine ⟨⟨_, rfl, ?_, ?_⟩, ?_, ?_⟩
  · -- the stack pointer is what the check asks for
    exact ((base_check_only_filters based {}).1 _ rfl).1
  · exact (base_check_only_filters based {}).2.2.2.2.2 _ rfl
  · obtain ⟨n, v, hFirst, -, hError⟩ := (base_check_only_filters misbased {}).2.2.1 _ _ rfl rfl
    exact ⟨_, _, n, v, rfl, rfl, hFirst, hError⟩
  · obtain ⟨n, n', e', hStops, hResult, hStops', hLe⟩ :=
      (base_check_only_filters overflowing {}).2.1 _ rfl
    exact ⟨_, e', n, n', rfl, rfl, hResult, hStops, hStops', hLe⟩

end Func

end RiscvLowering
