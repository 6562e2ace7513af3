import RiscvLowering.Proofs.Layout
import RiscvLowering.Proofs.Lowerable
import RiscvLowering.Proofs.Steps

/-!
# First errors — when a function is lowered, and which error it ends with

A function is lowered exactly if all that its layout schedules is lowerable.
Otherwise lowering ends with the error of the first thing that is not: block by
block in layout order, in each block the schedule in order and the terminator
behind it. That error is the one which the value or the terminator gives when
nothing else is lowered, so it says nothing of what came before.

Main results:

* `end_lowerValue_iff`, `end_lowerTerminator_iff` — what ends well in any session.
* `end_steps_eq_error_iff` — the steps of a block end with its first error.
* `lower_ends_at_first_error` — when lowering a function succeeds, and how it fails.
-/

namespace RiscvLowering

namespace Session

/-- A decision ends well exactly if it is one to do something. -/
theorem end_ofDecision_eq_ok_iff {line : Line} {d : Except LoweringError (List Action)} :
    (Piece.ofDecision line d).2 = .ok () ↔ ∃ actions, d = .ok actions := by
  cases d <;> simp [Piece.ofDecision]

theorem end_ofDecision_eq_error_iff {line : Line} {d : Except LoweringError (List Action)}
    {e : LoweringError} : (Piece.ofDecision line d).2 = .error e ↔ d = .error e := by
  cases d <;> simp [Piece.ofDecision]

/-- A value is lowered in any session exactly if it is lowerable. -/
theorem end_lowerValue_iff (s : Session) (v : Value) :
    (s.lowerValue v).2 = .ok () ↔ s.func.Lowerable s.options v := by
  rw [(s.lowerValue_adds v).2, end_ofDecision_eq_ok_iff, Func.exists_lowerValue_iff]

/-- A terminator is lowered in any session exactly if it is lowerable. -/
theorem end_lowerTerminator_iff (s : Session) (b : Block) (next : Option BlockId) :
    (s.lowerTerminator b next).2 = .ok () ↔ s.func.TerminatorLowerable b := by
  rw [(s.lowerTerminator_adds b next).2, end_ofDecision_eq_ok_iff,
    Func.exists_lowerTerminator_iff]

end Session

namespace Func

/-- The id is one of the arena, of a value that is lowerable. -/
def EntryLowerable (f : Func) (options : Options) (id : ValueId) : Prop :=
  ∃ v, f.value? id = some v ∧ f.Lowerable options v

/-- All that the block schedules is lowerable, and so is its terminator. -/
structure BlockLowerable (f : Func) (options : Options) (b : Block) : Prop where
  entries : ∀ id ∈ b.values, f.EntryLowerable options id
  terminator : f.TerminatorLowerable b

/-- The error of the first thing in a block that is not lowerable, as that thing
gives it by itself: an entry of no value, a value, or the terminator behind a
schedule that is lowerable throughout. -/
inductive FirstError (f : Func) (options : Options) (b : Block) (next : Option BlockId) :
    LoweringError → Prop
  | missing {j : Nat} {id : ValueId} : b.values[j]? = some id →
      (∀ id' ∈ b.values.take j, f.EntryLowerable options id') → f.value? id = none →
      FirstError f options b next (.missingValue id)
  | value {j : Nat} {id : ValueId} {v : Value} {e : LoweringError} : b.values[j]? = some id →
      (∀ id' ∈ b.values.take j, f.EntryLowerable options id') → f.value? id = some v →
      ¬ f.Lowerable options v → ((Session.fresh f options).lowerValue v).2 = .error e →
      FirstError f options b next e
  | terminator {e : LoweringError} : (∀ id ∈ b.values, f.EntryLowerable options id) →
      ¬ f.TerminatorLowerable b →
      ((Session.fresh f options).lowerTerminator b next).2 = .error e →
      FirstError f options b next e

variable {f : Func} {options : Options} {b : Block} {next : Option BlockId}
  {e : LoweringError}

/-! ## Entries of a schedule -/

/-- The step of a value by itself lowers it in a fresh session, or fails for want of it. -/
theorem alone_value (id : ValueId) :
    f.alone options (.value id) =
      match f.value? id with
      | some v => (Session.fresh f options).lowerValue v
      | none => (Session.fresh f options, .error (.missingValue id)) := by
  rw [alone, Session.step, show (Session.fresh f options).func = f from rfl, resolve]
  cases f.value? id <;> rfl

/-- An entry of a schedule ends well exactly if it leads to a value that is lowerable. -/
theorem end_entry_eq_ok_iff {id : ValueId} :
    (f.alone options (.value id)).2 = .ok () ↔ f.EntryLowerable options id := by
  rw [alone_value, EntryLowerable]
  -- an id of nothing cannot be lowered
  cases f.value? id with
  | none => simp
  | some v =>
    simp only [Option.some.injEq, exists_eq_left']
    exact Session.end_lowerValue_iff _ v

theorem end_entries_eq_ok_iff {ids : List ValueId} :
    (f.runPiece options (ids.map .value)).2 = .ok () ↔
      ∀ id ∈ ids, f.EntryLowerable options id := by
  rw [List.map_eq_flatMap, runPiece_flatMap_eq_ok_iff]
  simp only [end_runPiece_singleton, end_entry_eq_ok_iff]

/-- A schedule fails as the first of its entries that fails. -/
theorem end_entries_eq_error_iff {ids : List ValueId} :
    (f.runPiece options (ids.map .value)).2 = .error e ↔
      ∃ (j : Nat) (id : ValueId), ids[j]? = some id ∧
        (∀ id' ∈ ids.take j, f.EntryLowerable options id') ∧
        (f.alone options (.value id)).2 = .error e := by
  rw [List.map_eq_flatMap, runPiece_flatMap_eq_error_iff]
  simp only [end_runPiece_singleton, end_entry_eq_ok_iff]

/-! ## Blocks -/

/-- The steps of a block end as its schedule and then its terminator do. -/
theorem end_steps (b : Block) (next : Option BlockId) :
    (f.runPiece options (b.steps next)).2 =
      (f.runPiece options (b.values.map .value)).2 >>= fun _ =>
        ((Session.fresh f options).lowerTerminator b next).2 := by
  rw [Block.steps, end_runPiece_append, ← List.singleton_append, end_runPiece_append,
    end_runPiece_singleton, end_runPiece_singleton]
  -- the start of a block never fails
  rfl

/-- The steps of a block end well exactly if all that it needs is lowerable. -/
theorem end_steps_eq_ok_iff :
    (f.runPiece options (b.steps next)).2 = .ok () ↔ f.BlockLowerable options b := by
  rw [end_steps, bind_eq_ok_iff]
  constructor
  · -- the schedule ends well, and then the terminator does
    rintro ⟨_, hEntries, hExit⟩
    exact ⟨end_entries_eq_ok_iff.mp hEntries, (Session.end_lowerTerminator_iff _ b next).mp hExit⟩
  · intro h
    exact ⟨(), end_entries_eq_ok_iff.mpr h.entries,
      (Session.end_lowerTerminator_iff _ b next).mpr h.terminator⟩

/-- The steps of a block end with the first error of the block. -/
theorem end_steps_eq_error_iff :
    (f.runPiece options (b.steps next)).2 = .error e ↔ f.FirstError options b next e := by
  rw [end_steps]
  constructor
  · intro hEnd
    cases hEntries : (f.runPiece options (b.values.map .value)).2 with
    | error e' =>
      -- the schedule fails, at an entry of no value or at a value
      rw [hEntries] at hEnd
      obtain rfl := Except.error.inj hEnd
      obtain ⟨j, id, hId, hBefore, hAlone⟩ := end_entries_eq_error_iff.mp hEntries
      rw [alone_value] at hAlone
      cases hValue : f.value? id with
      | none =>
        rw [hValue] at hAlone
        obtain rfl := Except.error.inj hAlone
        exact .missing hId hBefore hValue
      | some v =>
        rw [hValue] at hAlone
        refine .value hId hBefore hValue (fun hLowerable => ?_) hAlone
        have hOk := (Session.end_lowerValue_iff (.fresh f options) v).mpr hLowerable
        rw [hAlone] at hOk
        simp at hOk
    | ok _ =>
      rw [hEntries, ok_bind] at hEnd
      refine .terminator (end_entries_eq_ok_iff.mp hEntries) (fun hLowerable => ?_) hEnd
      have hOk := (Session.end_lowerTerminator_iff (.fresh f options) b next).mpr hLowerable
      rw [hEnd] at hOk
      simp at hOk
  · intro hFirst
    -- what comes before the first error does not fail
    cases hFirst with
    | missing hId hBefore hValue =>
      rw [end_entries_eq_error_iff.mpr ⟨_, _, hId, hBefore, by rw [alone_value, hValue]⟩]
      rfl
    | value hId hBefore hValue _ hAlone =>
      rw [end_entries_eq_error_iff.mpr ⟨_, _, hId, hBefore, by rw [alone_value, hValue, hAlone]⟩]
      rfl
    | terminator hEntries _ hExit =>
      rw [end_entries_eq_ok_iff.mpr hEntries, ok_bind, hExit]

end Func

/-! ## Functions -/

namespace Func

variable {f : Func} {options : Options} {e : LoweringError}

theorem exists_result_iff :
    (∃ out, (f.lower options).result = .ok out) ↔
      (f.runPiece options (layoutSteps f.blocks)).2 = .ok () := by
  rw [(f.lower_eq_runPiece options).1]
  cases (f.runPiece options (layoutSteps f.blocks)).2 <;> simp [Except.map]

/-- A function fails to be lowered as the steps of its layout fail. -/
theorem result_eq_error_iff :
    (f.lower options).result = .error e ↔
      (f.runPiece options (layoutSteps f.blocks)).2 = .error e := by
  rw [(f.lower_eq_runPiece options).1]
  cases (f.runPiece options (layoutSteps f.blocks)).2 <;> simp [Except.map]

/-- **When a function is lowered, and which error it ends with otherwise.** The
first two clauses say that what is called lowerable is what can be lowered. -/
theorem lower_ends_at_first_error (f : Func) (options : Options) :
    (∀ v, ((Session.fresh f options).lowerValue v).2 = .ok () ↔ f.Lowerable options v) ∧
    (∀ b next, ((Session.fresh f options).lowerTerminator b next).2 = .ok () ↔
      f.TerminatorLowerable b) ∧
    ((∃ out, (f.lower options).result = .ok out) ↔ ∀ b ∈ f.blocks, f.BlockLowerable options b) ∧
    ∀ e, (f.lower options).result = .error e ↔
      ∃ (k : Nat) (b : Block), f.blocks[k]? = some b ∧
        (∀ b' ∈ f.blocks.take k, f.BlockLowerable options b') ∧
        f.FirstError options b (f.blocks[k + 1]?.map (·.id)) e := by
  refine ⟨Session.end_lowerValue_iff _, Session.end_lowerTerminator_iff _, ?_, fun e => ?_⟩
  · rw [exists_result_iff, layoutSteps_eq_flatMap, runPiece_flatMap_eq_ok_iff]
    simp only [end_steps_eq_ok_iff]
    rw [← List.forall_mem_map (f := Prod.fst), map_fst_followed]
  · rw [result_eq_error_iff, layoutSteps_eq_flatMap, runPiece_flatMap_eq_error_iff]
    simp only [end_steps_eq_ok_iff, end_steps_eq_error_iff, getElem?_followed]
    -- a block of the layout stands beside the one that follows it
    constructor
    · rintro ⟨k, x, hx, hBefore, hFirst⟩
      obtain ⟨b, hb, rfl⟩ := Option.map_eq_some_iff.mp hx
      refine ⟨k, b, hb, ?_, hFirst⟩
      rw [← map_fst_followed f.blocks, ← List.map_take]
      exact List.forall_mem_map.mpr hBefore
    · rintro ⟨k, b, hb, hBefore, hFirst⟩
      refine ⟨k, _, by rw [hb, Option.map_some], ?_, hFirst⟩
      rw [← map_fst_followed f.blocks, ← List.map_take] at hBefore
      exact List.forall_mem_map.mp hBefore

end Func

end RiscvLowering
