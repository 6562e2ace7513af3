import RiscvLowering.Lowering.Function
import RiscvLowering.Proofs.Foresight

/-!
# Pieces — what a stretch of lowering leaves behind

A session threads everything emitted so far through every step, but no step
looks at it. A step therefore leaves behind a `Piece` that does not depend on
the session: code, pending branches, block starts, gaps and marks, with indices
counted from the beginning of the piece. Pieces are put together by `++`, which
moves the indices of the second behind the code of the first.

Main results:

* `run_adds` — a run of steps adds the piece of these steps to the session,
  whatever the session held before, and ends as the piece does.
* `runPiece_append` — the piece of steps after steps is made of both pieces.
* `result_eq_ok_iff` — a lowered function is the piece of its layout.
-/

namespace RiscvLowering

/-- What a stretch of lowering leaves behind, counted from its beginning. -/
structure Piece where
  code : List Placed := []
  branches : List PendingBranch := []
  starts : List BlockStart := []
  gaps : List Gap := []
  marks : List Mark := []
deriving DecidableEq

/-- A branch whose index is counted from further in front. -/
def PendingBranch.shift (n : Nat) (p : PendingBranch) : PendingBranch :=
  { p with index := n + p.index }

/-- A block start whose index is counted from further in front. -/
def BlockStart.shift (n : Nat) (s : BlockStart) : BlockStart :=
  { s with index := n + s.index }

/-- A mark whose index is counted from further in front. -/
def Mark.shift (n : Nat) (m : Mark) : Mark :=
  { m with index := n + m.index }

namespace Piece

/-- The second piece behind the first: its indices move behind the code of the first. -/
def append (p q : Piece) : Piece where
  code := p.code ++ q.code
  branches := p.branches ++ q.branches.map (.shift p.code.length)
  starts := p.starts ++ q.starts.map (.shift p.code.length)
  gaps := p.gaps ++ q.gaps
  marks := p.marks ++ q.marks.map (.shift p.code.length)

instance : Append Piece := ⟨append⟩

@[simp]
theorem code_append (p q : Piece) : (p ++ q).code = p.code ++ q.code := rfl

@[simp]
theorem branches_append (p q : Piece) :
    (p ++ q).branches = p.branches ++ q.branches.map (.shift p.code.length) := rfl

@[simp]
theorem starts_append (p q : Piece) :
    (p ++ q).starts = p.starts ++ q.starts.map (.shift p.code.length) := rfl

@[simp]
theorem gaps_append (p q : Piece) : (p ++ q).gaps = p.gaps ++ q.gaps := rfl

@[simp]
theorem marks_append (p q : Piece) :
    (p ++ q).marks = p.marks ++ q.marks.map (.shift p.code.length) := rfl

@[simp]
theorem append_empty (p : Piece) : p ++ ({} : Piece) = p := by
  show append p {} = p
  simp [append]

/-- Behind nothing, no index moves. -/
@[simp]
theorem empty_append (p : Piece) : ({} : Piece) ++ p = p := by
  -- there is no code to move behind
  have hBranch : PendingBranch.shift 0 = id := funext fun p => by simp [PendingBranch.shift]
  have hStart : BlockStart.shift 0 = id := funext fun s => by simp [BlockStart.shift]
  have hMark : Mark.shift 0 = id := funext fun m => by simp [Mark.shift]
  show append {} p = p
  simp [append, hBranch, hStart, hMark]

/-- Moving behind two pieces is moving behind one and then behind the other. -/
theorem append_assoc (p q r : Piece) : p ++ q ++ r = p ++ (q ++ r) := by
  show append (append p q) r = append p (append q r)
  simp [append, Function.comp_def, PendingBranch.shift, BlockStart.shift, Mark.shift,
    Nat.add_assoc]

/-! ## Pieces of actions and of steps -/

/-- The piece of an action that is performed for a line. -/
def ofAction (line : Line) : Action → Piece
  | .emit inst => { code := [⟨inst, line⟩] }
  | .branch inst target => { code := [⟨inst, line⟩], branches := [⟨0, target⟩] }
  | .gap g => { gaps := [g] }
  | .mark kind var => { marks := [⟨kind, var, 0⟩] }
  | .note _ => {}

/-- What a list of actions leaves behind. -/
def ofActions (line : Line) : List Action → Piece
  | [] => {}
  | a :: as => ofAction line a ++ ofActions line as

/-- The piece of what was decided on: nothing where it is an error. -/
def ofDecision (line : Line) :
    Except LoweringError (List Action) → Piece × Except LoweringError Unit
  | .ok actions => (ofActions line actions, .ok ())
  | .error e => ({}, .error e)

/-- A decision that is an error leaves nothing behind. -/
theorem ofDecision_eq_of_error {line : Line} {d : Except LoweringError (List Action)} {p : Piece}
    {e : LoweringError} (h : ofDecision line d = (p, .error e)) : p = {} := by
  cases d with
  | ok actions => simp [ofDecision] at h
  | error e => exact (Prod.mk.inj h).1.symm

theorem starts_ofActions (line : Line) (actions : List Action) :
    (ofActions line actions).starts = [] := by
  induction actions with
  | nil => rfl
  | cons a as ih => cases a <;> simp [ofActions, ofAction, ih]

/-- No decision starts a block. -/
theorem starts_ofDecision (line : Line) (d : Except LoweringError (List Action)) :
    (ofDecision line d).1.starts = [] := by
  cases d with
  | ok actions => exact starts_ofActions line actions
  | error e => rfl

/-- What is known of a function whose lowering left the piece behind. -/
def output (p : Piece) (name : String) : Output where
  name
  code := p.code
  branches := p.branches
  starts := p.starts
  gaps := p.gaps

end Piece

namespace Func

/-- The piece of a step, and how the step ends. -/
def stepPiece (f : Func) (options : Options) : Step → Piece × Except LoweringError Unit
  | .start b => ({ starts := [⟨b.id, 0⟩] }, .ok ())
  | .value id =>
    match f.resolve id with
    | .ok v => Piece.ofDecision v.line (f.lowerValue options v)
    | .error e => ({}, .error e)
  | .terminator b next => Piece.ofDecision b.line (f.lowerTerminator b next)

/-- The piece of steps up to the first that fails, and how they end. -/
def runPiece (f : Func) (options : Options) :
    List Step → Piece × Except LoweringError Unit
  | [] => ({}, .ok ())
  | x :: xs =>
    match f.stepPiece options x with
    | (p, .ok ()) => (p ++ (f.runPiece options xs).1, (f.runPiece options xs).2)
    | (p, .error e) => (p, .error e)

/-- A run of steps after steps goes on behind the first run, unless that fails. -/
theorem runPiece_append (f : Func) (options : Options) (xs ys : List Step) :
    f.runPiece options (xs ++ ys) =
      match f.runPiece options xs with
      | (p, .ok ()) => (p ++ (f.runPiece options ys).1, (f.runPiece options ys).2)
      | (p, .error e) => (p, .error e) := by
  -- by the steps of the first run
  induction xs with
  | nil => simp [runPiece]
  | cons x xs ih =>
    rw [List.cons_append, runPiece, runPiece, ih]
    rcases f.stepPiece options x with ⟨p, (e | ⟨⟩)⟩
    · -- a first step that fails ends both sides alike
      rfl
    · rcases f.runPiece options xs with ⟨q, (e | ⟨⟩)⟩
      · rfl
      · simp [Piece.append_assoc]

end Func

/-! ## Sessions add pieces -/

namespace Session

/-- All that a session holds, as a piece. -/
def piece (s : Session) : Piece where
  code := s.code.toList
  branches := s.branches.toList
  starts := s.starts.toList
  gaps := s.gaps.toList
  marks := s.marks.toList

/-- `s'` lowers the same function as `s` and holds one piece more. -/
structure Adds (s s' : Session) (p : Piece) : Prop where
  func : s'.func = s.func
  options : s'.options = s.options
  piece : s'.piece = s.piece ++ p

/-- What is added in two turns is both pieces, one behind the other. -/
theorem Adds.trans {s s' s'' : Session} {p q : Piece} (h : s.Adds s' p) (h' : s'.Adds s'' q) :
    s.Adds s'' (p ++ q) where
  func := h'.func.trans h.func
  options := h'.options.trans h.options
  piece := by rw [h'.piece, h.piece, Piece.append_assoc]

theorem say_adds (s : Session) (m : Message) : s.Adds (s.say m) {} :=
  ⟨rfl, rfl, by simp [say, piece]⟩

theorem setLine_adds (s : Session) (line : Line) : s.Adds (s.setLine line) {} :=
  ⟨rfl, rfl, by simp [setLine, piece]⟩

theorem startBlock_adds (s : Session) (block : BlockId) :
    s.Adds (s.startBlock block) { starts := [⟨block, 0⟩] } := by
  refine ⟨rfl, rfl, ?_⟩
  show _ = Piece.append _ _
  simp [startBlock, piece, Piece.append, BlockStart.shift]

/-- An action adds its piece, with the indices behind the code that is there, and keeps the line. -/
theorem perform_adds (s : Session) (a : Action) :
    s.Adds (s.perform a) (.ofAction s.line a) ∧ (s.perform a).line = s.line := by
  refine ⟨⟨?_, ?_, ?_⟩, ?_⟩
  · cases a <;> rfl
  · cases a <;> rfl
  · -- where an index is recorded, the piece counts it from its own beginning
    show _ = Piece.append _ _
    cases a <;>
      simp [perform, emit, emitBranch, Code.emit, say, piece, Piece.ofAction, Piece.append,
        PendingBranch.shift, Mark.shift]
  · cases a <;> rfl

/-- Actions that are performed in a row add their pieces in a row. -/
theorem foldl_perform_adds (s : Session) (actions : List Action) :
    s.Adds (actions.foldl perform s) (.ofActions s.line actions) := by
  -- every action is performed for one line, which no action changes
  induction actions generalizing s with
  | nil => exact ⟨rfl, rfl, by simp [Piece.ofActions]⟩
  | cons a as ih =>
    obtain ⟨hFirst, hLine⟩ := perform_adds s a
    have hRest := ih (s.perform a)
    rw [hLine] at hRest
    exact hFirst.trans hRest

/-- A decision that is an error adds nothing. -/
theorem attempt_adds (s : Session) (d : Except LoweringError (List Action)) :
    s.Adds (s.attempt d).1 (Piece.ofDecision s.line d).1 ∧
      (s.attempt d).2 = (Piece.ofDecision s.line d).2 := by
  rcases d with e | actions
  · cases e with
    | unimplemented g => exact ⟨s.say_adds _, rfl⟩
    | _ => exact ⟨⟨rfl, rfl, by simp [attempt, Piece.ofDecision]⟩, rfl⟩
  · exact ⟨s.foldl_perform_adds actions, rfl⟩

/-- What is decided on for a line is performed for that line. -/
theorem attempt_for_adds (s : Session) (line : Line) (m : Message)
    (d : Except LoweringError (List Action)) :
    s.Adds (((s.setLine line).say m).attempt d).1 (Piece.ofDecision line d).1 ∧
      (((s.setLine line).say m).attempt d).2 = (Piece.ofDecision line d).2 := by
  -- neither the current line nor the log is part of a piece
  have hSaid := (s.setLine_adds line).trans (say_adds _ m)
  obtain ⟨hAdds, hEnd⟩ := attempt_adds ((s.setLine line).say m) d
  have hAll := hSaid.trans hAdds
  rw [Piece.append_empty, Piece.empty_append] at hAll
  exact ⟨hAll, hEnd⟩

/-- Lowering a value adds the piece of what it decides on, and ends as the decision does. -/
theorem lowerValue_adds (s : Session) (v : Value) :
    s.Adds (s.lowerValue v).1 (Piece.ofDecision v.line (s.func.lowerValue s.options v)).1 ∧
      (s.lowerValue v).2 = (Piece.ofDecision v.line (s.func.lowerValue s.options v)).2 := by
  rw [lowerValue_eq]
  exact s.attempt_for_adds v.line (.loweringValue v) _

/-- Lowering a terminator adds the piece of what it decides on, and ends as the decision does. -/
theorem lowerTerminator_adds (s : Session) (b : Block) (next : Option BlockId) :
    s.Adds (s.lowerTerminator b next).1
        (Piece.ofDecision b.line (s.func.lowerTerminator b next)).1 ∧
      (s.lowerTerminator b next).2 =
        (Piece.ofDecision b.line (s.func.lowerTerminator b next)).2 := by
  rw [lowerTerminator_eq]
  exact s.attempt_for_adds b.line (.loweringTerminator b next) _

/-- A step adds its piece and ends as it does, whatever the session held before. -/
theorem step_adds (s : Session) (x : Step) :
    s.Adds (s.step x).1 (s.func.stepPiece s.options x).1 ∧
      (s.step x).2 = (s.func.stepPiece s.options x).2 := by
  cases x with
  | start b =>
    have hStarted := (s.say_adds (.noMoves b.id)).trans (startBlock_adds _ b.id)
    rw [Piece.empty_append] at hStarted
    exact ⟨hStarted, rfl⟩
  | value id =>
    rw [step, Func.stepPiece]
    -- an id of no value fails before anything is said
    cases s.func.resolve id with
    | ok v => exact s.lowerValue_adds v
    | error e => exact ⟨⟨rfl, rfl, by simp⟩, rfl⟩
  | terminator b next => exact s.lowerTerminator_adds b next

/-- **A run adds the piece of its steps**, whatever the session held before. -/
theorem run_adds (s : Session) (xs : List Step) :
    s.Adds (s.run xs).1 (s.func.runPiece s.options xs).1 ∧
      (s.run xs).2 = (s.func.runPiece s.options xs).2 := by
  -- by the steps, for every session: what a step adds, and how it ends,
  -- depends on the function and the options only
  induction xs generalizing s with
  | nil => exact ⟨⟨rfl, rfl, by simp [run, Func.runPiece]⟩, rfl⟩
  | cons x xs ih =>
    obtain ⟨hStep, hEnd⟩ := s.step_adds x
    rw [run, Func.runPiece]
    rcases hPiece : s.func.stepPiece s.options x with ⟨p, r⟩
    rcases hSession : s.step x with ⟨s', r'⟩
    rw [hPiece, hSession] at hStep hEnd
    obtain rfl : r' = r := hEnd
    cases r' with
    | error e => exact ⟨hStep, rfl⟩
    | ok _ =>
      obtain ⟨hRest, hRestEnd⟩ := ih s'
      rw [hStep.func, hStep.options] at hRest hRestEnd
      exact ⟨hStep.trans hRest, hRestEnd⟩

end Session

/-! ## Successful lowerings -/

namespace Func

/-- The steps succeed and leave the piece behind. -/
def Lowers (f : Func) (options : Options) (xs : List Step) (p : Piece) : Prop :=
  f.runPiece options xs = (p, .ok ())

variable {f : Func} {options : Options}

/-- Steps after steps succeed exactly if both do, and leave both pieces behind. -/
theorem lowers_append_iff {xs ys : List Step} {p : Piece} :
    f.Lowers options (xs ++ ys) p ↔
      ∃ q r, f.Lowers options xs q ∧ f.Lowers options ys r ∧ p = q ++ r := by
  simp only [Lowers, runPiece_append]
  rcases f.runPiece options xs with ⟨q, (e | ⟨⟩)⟩
  · -- an error in the first part leaves nothing to succeed
    simp
  · rcases f.runPiece options ys with ⟨r, (e | ⟨⟩)⟩ <;> simp [eq_comm]

@[simp]
theorem lowers_nil_iff {p : Piece} : f.Lowers options [] p ↔ p = {} := by
  simp [Lowers, runPiece, eq_comm]

theorem lowers_singleton_iff {x : Step} {p : Piece} :
    f.Lowers options [x] p ↔ f.stepPiece options x = (p, .ok ()) := by
  rw [Lowers, runPiece]
  rcases f.stepPiece options x with ⟨q, (e | ⟨⟩)⟩ <;> simp [runPiece]

/-- Steps succeed exactly if the first one does, and the others do. -/
theorem lowers_cons_iff {x : Step} {xs : List Step} {p : Piece} :
    f.Lowers options (x :: xs) p ↔
      ∃ q r, f.stepPiece options x = (q, .ok ()) ∧ f.Lowers options xs r ∧ p = q ++ r := by
  -- a step is a run of its own
  rw [← List.singleton_append, lowers_append_iff]
  simp only [lowers_singleton_iff]

theorem ofDecision_eq_ok_iff {line : Line} {d : Except LoweringError (List Action)} {p : Piece} :
    Piece.ofDecision line d = (p, .ok ()) ↔
      ∃ actions, d = .ok actions ∧ p = Piece.ofActions line actions := by
  cases d <;> simp [Piece.ofDecision, eq_comm]

/-- The step of a value succeeds exactly if there is such a value, and it can be lowered. -/
theorem stepPiece_value_eq_ok_iff {id : ValueId} {p : Piece} :
    f.stepPiece options (.value id) = (p, .ok ()) ↔
      ∃ v actions, f.value? id = some v ∧ f.lowerValue options v = .ok actions ∧
        p = Piece.ofActions v.line actions := by
  rw [stepPiece, resolve]
  cases f.value? id <;> simp [ofDecision_eq_ok_iff]

/-- A function is lowered as its layout is run, and its marks are those of the run. -/
theorem lower_eq_runPiece (f : Func) (options : Options) :
    (f.lower options).result =
        (f.runPiece options (layoutSteps f.blocks)).2.map
          (fun _ => (f.runPiece options (layoutSteps f.blocks)).1.output f.name) ∧
      (f.lower options).marks = (f.runPiece options (layoutSteps f.blocks)).1.marks := by
  let start : Session := { func := f, options }
  obtain ⟨hAdds, hEnd⟩ :=
    (start.say (.lowering f.name f.blocks.length)).run_adds (layoutSteps f.blocks)
  -- the session begins with the empty piece
  have hPiece := hAdds.piece
  have hFunc := hAdds.func
  rw [show (start.say (.lowering f.name f.blocks.length)).piece = {} from rfl,
    Piece.empty_append] at hPiece
  change _ = (f.runPiece options (layoutSteps f.blocks)).2 at hEnd
  change _ = (f.runPiece options (layoutSteps f.blocks)).1 at hPiece
  rw [← hEnd, ← hPiece, lower]
  rcases hRun : (start.say (.lowering f.name f.blocks.length)).run (layoutSteps f.blocks)
    with ⟨s, (e | ⟨⟩)⟩
  · exact ⟨rfl, rfl⟩
  · -- what is said at the end is not part of the output
    rw [hRun] at hFunc
    change s.func = f at hFunc
    refine ⟨?_, rfl⟩
    simp [Except.map, Session.finish, Session.say, Piece.output, Session.piece, hFunc]

/-- **A lowered function is the piece of its layout.** -/
theorem result_eq_ok_iff {out : Output} :
    (f.lower options).result = .ok out ↔
      ∃ p, f.Lowers options (layoutSteps f.blocks) p ∧ out = p.output f.name := by
  rw [(f.lower_eq_runPiece options).1]
  simp only [Lowers]
  rcases f.runPiece options (layoutSteps f.blocks) with ⟨p, (e | ⟨⟩)⟩ <;>
    simp [Except.map, eq_comm]

end Func

end RiscvLowering
