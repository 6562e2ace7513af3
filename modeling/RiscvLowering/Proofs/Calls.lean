import RiscvLowering.Proofs.Steps

/-!
# Calls — sessions that are driven call by call

The lowering of a function takes its steps in one order and ends with the first
that fails. A session can also be driven from outside: calls come in any order,
lower what need not be of the function, and go on after one that failed.

As a step does, a call adds a piece that does not depend on what the session
holds. Only where an instruction is emitted as it is given, for the current
line, does the piece depend on what was called before.

Main results:

* `call_adds` — the piece that a call adds, and how the call ends.
* `callPiece_eq_of_error` — a call that fails adds the empty piece.
-/

namespace RiscvLowering

/-- A call to a session. -/
inductive Call where
  | value (v : Value)
  | terminator (b : Block) (next : Option BlockId)
  | startBlock (block : BlockId)
  | setLine (line : Line)
  | emit (inst : Inst)
  | emitBranch (inst : Inst) (target : BlockId)
  | gap (gap : Gap)
deriving DecidableEq

namespace Session

/-- Makes a call. Where it emits an instruction, it answers the index. -/
def call (s : Session) : Call → Session × Except LoweringError (Option Nat)
  | .value v => (s.lowerValue v).map id (.map fun _ => none)
  | .terminator b next => (s.lowerTerminator b next).map id (.map fun _ => none)
  | .startBlock block => (s.startBlock block, .ok none)
  | .setLine line => (s.setLine line, .ok none)
  | .emit inst => ((s.emit inst).2, .ok (some (s.emit inst).1))
  | .emitBranch inst target =>
    ((s.emitBranch inst target).2, .ok (some (s.emitBranch inst target).1))
  | .gap g => (s.gap g).map id (.map fun _ => none)

/-- Makes calls one after another, whether they fail or not. -/
def calls (s : Session) : List Call → Session
  | [] => s
  | c :: cs => (s.call c).1.calls cs

end Session

/-- The piece of a call that is made at a line, and how the call ends. -/
def Func.callPiece (f : Func) (options : Options) (line : Line) :
    Call → Piece × Except LoweringError Unit
  | .value v => Piece.ofDecision v.line (f.lowerValue options v)
  | .terminator b next => Piece.ofDecision b.line (f.lowerTerminator b next)
  | .startBlock block => ({ starts := [⟨block, 0⟩] }, .ok ())
  | .setLine _ => ({}, .ok ())
  | .emit inst => (Piece.ofAction line (.emit inst), .ok ())
  | .emitBranch inst target => (Piece.ofAction line (.branch inst target), .ok ())
  | .gap g => Piece.ofDecision line (options.gap g)

/-- A call that fails adds the empty piece. -/
theorem Func.callPiece_eq_of_error {f : Func} {options : Options} {line : Line} {c : Call}
    {e : LoweringError} (h : (f.callPiece options line c).2 = .error e) :
    (f.callPiece options line c).1 = {} := by
  cases c with
  | value | terminator | gap => exact Piece.ofDecision_eq_of_error (Prod.ext rfl h)
  | startBlock | setLine | emit | emitBranch => simp [callPiece] at h

namespace Session

/-- How a call ends, apart from the index that it answers. -/
def callEnd (s : Session) (c : Call) : Except LoweringError Unit :=
  (s.call c).2.map fun _ => ()

/-- How a call ends is told apart from what it answers. -/
theorem callEnd_eq_error_iff {s : Session} {c : Call} {e : LoweringError} :
    s.callEnd c = .error e ↔ (s.call c).2 = .error e := by
  rw [callEnd]
  cases (s.call c).2 <;> simp [Except.map]

/-- A call adds its piece, whatever the session holds. -/
theorem call_adds (s : Session) (c : Call) :
    s.Adds (s.call c).1 (s.func.callPiece s.options s.line c).1 ∧
      s.callEnd c = (s.func.callPiece s.options s.line c).2 := by
  -- calls that lower answer no index, which the end of a call leaves out again
  have hUnit : ∀ r : Except LoweringError Unit,
      ((r.map fun _ => (none : Option Nat)).map fun _ => ()) = r := by
    rintro (e | ⟨⟩) <;> rfl
  -- one case for each call; those that lower are `lowerValue_adds` and `lowerTerminator_adds`
  cases c with
  | value v =>
    obtain ⟨hAdds, hEnd⟩ := s.lowerValue_adds v
    exact ⟨hAdds, (hUnit _).trans hEnd⟩
  | terminator b next =>
    obtain ⟨hAdds, hEnd⟩ := s.lowerTerminator_adds b next
    exact ⟨hAdds, (hUnit _).trans hEnd⟩
  | startBlock block => exact ⟨s.startBlock_adds block, rfl⟩
  | setLine line => exact ⟨s.setLine_adds line, rfl⟩
  | emit inst => exact ⟨(s.perform_adds (.emit inst)).1, rfl⟩
  | emitBranch inst target => exact ⟨(s.perform_adds (.branch inst target)).1, rfl⟩
  | gap g =>
    obtain ⟨hAdds, hEnd⟩ := s.attempt_adds (s.options.gap g)
    rw [← gap_eq] at hAdds hEnd
    exact ⟨hAdds, (hUnit _).trans hEnd⟩

end Session

end RiscvLowering
