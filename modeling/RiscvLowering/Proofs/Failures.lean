import RiscvLowering.Command.Demo
import RiscvLowering.Proofs.Calls

/-!
# Failures — a call that fails leaves nothing behind

An error undoes nothing: what a call had emitted, recorded or stated before it
would stay. But all that a value or a terminator needs is looked up before any of
that (`Foresight`). So a call that fails leaves the session with what it held; only
the current line may be another, and something may have been said. Since a value and
a terminator set the line that they are lowered for, a run of such calls gives what
it gives without the calls that fail.

Main results:

* `call_agrees_of_error` — a call that fails leaves all tables as they were.
* `calls_survivors_agrees` — without the calls that fail a run ends in the same.
* `failures_leave_no_trace` — both.
-/

namespace RiscvLowering

namespace Session

/-- The sessions lower the same function with the same options and hold the
same; they may differ in the current line and in what was said. -/
structure Agrees (s s' : Session) : Prop where
  func : s'.func = s.func
  options : s'.options = s.options
  code : s'.code = s.code
  branches : s'.branches = s.branches
  starts : s'.starts = s.starts
  gaps : s'.gaps = s.gaps
  marks : s'.marks = s.marks

variable {s s' t t' : Session}

/-- Sessions of one function that hold the same pieces agree. -/
theorem agrees_of_piece (hFunc : s'.func = s.func) (hOptions : s'.options = s.options)
    (hPiece : s'.piece = s.piece) : s.Agrees s' where
  func := hFunc
  options := hOptions
  code := Array.toList_inj.mp (congrArg Piece.code hPiece)
  branches := Array.toList_inj.mp (congrArg Piece.branches hPiece)
  starts := Array.toList_inj.mp (congrArg Piece.starts hPiece)
  gaps := Array.toList_inj.mp (congrArg Piece.gaps hPiece)
  marks := Array.toList_inj.mp (congrArg Piece.marks hPiece)

namespace Agrees

theorem refl (s : Session) : s.Agrees s := ⟨rfl, rfl, rfl, rfl, rfl, rfl, rfl⟩

theorem symm (h : s.Agrees s') : s'.Agrees s :=
  ⟨h.func.symm, h.options.symm, h.code.symm, h.branches.symm, h.starts.symm, h.gaps.symm,
    h.marks.symm⟩

theorem trans (h : s.Agrees s') (h' : s'.Agrees t) : s.Agrees t :=
  ⟨h'.func.trans h.func, h'.options.trans h.options, h'.code.trans h.code,
    h'.branches.trans h.branches, h'.starts.trans h.starts, h'.gaps.trans h.gaps,
    h'.marks.trans h.marks⟩

/-- Sessions that agree hold the same piece. -/
theorem piece (h : s.Agrees s') : s'.piece = s.piece := by
  simp only [Session.piece, h.code, h.branches, h.starts, h.gaps, h.marks]

/-- Sessions that agree give the same code and tables in the end. -/
theorem finish (h : s.Agrees s') : s'.finish = s.finish := by
  simp only [Session.finish, h.func, h.code, h.branches, h.starts, h.gaps]

/-- Sessions that agree still do when the same piece is added to both. -/
theorem of_adds {p : Piece} (h : s.Agrees t) (hs : s.Adds s' p) (ht : t.Adds t' p) :
    s'.Agrees t' := by
  refine agrees_of_piece ?_ ?_ ?_
  · rw [ht.func, h.func, hs.func]
  · rw [ht.options, h.options, hs.options]
  · rw [ht.piece, h.piece, hs.piece]

end Agrees

/-! ## One call -/

/-- A call that fails leaves all that the session holds as it was. -/
theorem call_agrees_of_error {c : Call} {e : LoweringError} (h : (s.call c).2 = .error e) :
    s.Agrees (s.call c).1 := by
  obtain ⟨hAdds, hEnd⟩ := s.call_adds c
  rw [callEnd_eq_error_iff.mpr h] at hEnd
  rw [Func.callPiece_eq_of_error hEnd.symm] at hAdds
  exact agrees_of_piece hAdds.func hAdds.options (hAdds.piece.trans (Piece.append_empty _))

end Session

/-- Whether a call emits an instruction for the line that is current. -/
def Call.usesLine : Call → Bool
  | emit _ | emitBranch _ _ => true
  | value _ | terminator _ _ | startBlock _ | setLine _ | gap _ => false

/-- Where no line is used, the current line is nothing to the piece. -/
theorem Func.callPiece_eq_of_not_usesLine (f : Func) (options : Options) {c : Call}
    (h : c.usesLine = false) (line line' : Line) :
    f.callPiece options line c = f.callPiece options line' c := by
  cases c with
  | value | terminator | startBlock | setLine => rfl
  | gap g =>
    -- a gap is recorded without a line
    rw [callPiece, callPiece, Options.gap]
    split <;> rfl
  | emit | emitBranch => simp [Call.usesLine] at h

namespace Session

variable {s t : Session}

/-- In sessions that agree, the same call does the same. -/
theorem Agrees.call {c : Call} (h : s.Agrees t) (hLine : c.usesLine = false) :
    (s.call c).1.Agrees (t.call c).1 := by
  -- both calls add the piece of `c`, whose line is nothing to it
  have hAdds := (t.call_adds c).1
  rw [h.func, h.options, s.func.callPiece_eq_of_not_usesLine s.options hLine t.line s.line]
    at hAdds
  exact h.of_adds (s.call_adds c).1 hAdds

/-! ## Runs -/

/-- The calls that do not fail when all are made. -/
def survivors (s : Session) : List Call → List Call
  | [] => []
  | c :: cs =>
    match (s.call c).2 with
    | .ok _ => c :: (s.call c).1.survivors cs
    | .error _ => (s.call c).1.survivors cs

/-- Without the calls that fail, a run from sessions that agree ends in the same. -/
theorem calls_survivors_agrees {cs : List Call} (h : s.Agrees t)
    (hLine : ∀ c ∈ cs, c.usesLine = false) :
    (s.calls cs).Agrees (t.calls (s.survivors cs)) := by
  -- by the calls: the second run skips those that fail, after which the first
  -- session still agrees with what it was
  induction cs generalizing s t with
  | nil => exact h
  | cons c cs ih =>
    obtain ⟨hFirst, hRest⟩ := List.forall_mem_cons.mp hLine
    rw [survivors]
    split
    · exact ih (h.call hFirst) hRest
    · rename_i e hEnd
      exact ih ((call_agrees_of_error hEnd).symm.trans h) hRest

end Session

/-- **Failures leave no trace.** A call that fails leaves what the session
holds as it was, and a run that starts blocks and lowers values and terminators
gives what it gives without the calls that fail. -/
theorem failures_leave_no_trace :
    (∀ (s : Session) (c : Call) (e : LoweringError), (s.call c).2 = .error e →
      s.Agrees (s.call c).1) ∧
    ∀ (s : Session) (cs : List Call), (∀ c ∈ cs, c.usesLine = false) →
      (s.calls (s.survivors cs)).finish = (s.calls cs).finish ∧
        (s.calls (s.survivors cs)).marks = (s.calls cs).marks := by
  refine ⟨fun s c e => Session.call_agrees_of_error, fun s cs hLine => ?_⟩
  have hAgrees := Session.calls_survivors_agrees (.refl s) hLine
  exact ⟨hAgrees.finish, hAgrees.marks⟩

/-- An exit without a code fails, and the run without it gives the same. -/
theorem failures_leave_no_trace_max :
    let s := Session.fresh Demo.max {}
    let noCode : Call :=
      .value { id := ⟨9⟩, op := .exitProc, ty := .mem, block := ⟨9⟩, line := ⟨7⟩ }
    let exit : Call := .terminator { id := ⟨0⟩, kind := .exit, line := ⟨5⟩ } none
    (∃ e, (s.call noCode).2 = .error e) ∧ s.Agrees (s.call noCode).1 ∧
      s.survivors [noCode, exit] = [exit] ∧
      (s.calls [exit]).finish = (s.calls [noCode, exit]).finish ∧
      (s.calls [exit]).marks = (s.calls [noCode, exit]).marks := by
  intro s noCode exit
  have hSurvivors : s.survivors [noCode, exit] = [exit] := rfl
  have hSame := failures_leave_no_trace.2 s [noCode, exit] (by simp [noCode, exit, Call.usesLine])
  rw [hSurvivors] at hSame
  exact ⟨⟨_, rfl⟩, failures_leave_no_trace.1 s noCode _ rfl, hSurvivors, hSame⟩

-- A call that fails still sets the line of an instruction that is then emitted as given.
example :
    let s := Session.fresh Demo.max {}
    let noCode : Call :=
      .value { id := ⟨9⟩, op := .exitProc, ty := .mem, block := ⟨9⟩, line := ⟨7⟩ }
    (s.calls [noCode, .emit .ret]).code = #[⟨.ret, ⟨7⟩⟩] ∧
      (s.calls [.emit .ret]).code = #[⟨.ret, .unknown⟩] :=
  ⟨rfl, rfl⟩

end RiscvLowering
