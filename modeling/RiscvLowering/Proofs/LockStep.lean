import RiscvLowering.Proofs.Layout
import RiscvLowering.Proofs.Likeness

/-!
# Lock step — two lowerings side by side

Where lowering reads the same of two functions, step by step, both runs do the
same but for names, and both end at the same step. This is said of pieces, so
that runs of parts of two layouts can be compared, too:

* `Piece.Alike` — pieces that are the same but for names;
* `Func.StepAlike`, `Func.BlockAlike` — steps and blocks that go together.

Main results:

* `runPiece_alike_of_steps` — steps that leave alike pieces behind, one by one,
  do so together; steps that go together are such steps (`runPiece_alike`).
* `lower_alike` — functions whose layouts are read alike are lowered alike.
-/

namespace RiscvLowering

/-! ## Pieces that go together -/

/-- Two pieces are the same but for names. -/
structure Piece.Alike (n : Naming) (p q : Piece) : Prop where
  code : p.code = q.code
  branches : List.Forall₂ (fun x y => x.index = y.index ∧ n.block x.target y.target)
    p.branches q.branches
  starts : List.Forall₂ (fun x y => x.index = y.index ∧ n.block x.block y.block) p.starts q.starts
  gaps : List.Forall₂ (fun x y => x.what = y.what ∧ n.text x.value y.value) p.gaps q.gaps
  marks : p.marks = q.marks

namespace Piece

variable {n : Naming}

theorem Alike.empty : ({} : Piece).Alike n {} := ⟨rfl, .nil, .nil, .nil, rfl⟩

/-- Indices are moved alike, as both pieces have the same code. -/
theorem Alike.append {p p' q q' : Piece} (hp : p.Alike n p') (hq : q.Alike n q') :
    (p ++ q).Alike n (p' ++ q') := by
  refine ⟨?_, ?_, ?_, ?_, ?_⟩
  · rw [code_append, code_append, hp.code, hq.code]
  · rw [branches_append, branches_append, ← hp.code]
    -- those of the second piece move by as much on both sides
    refine List.rel_append hp.branches ?_
    rw [List.forall₂_map_left_iff, List.forall₂_map_right_iff]
    refine hq.branches.imp ?_
    rintro x y ⟨hIndex, hName⟩
    exact ⟨congrArg (p.code.length + ·) hIndex, hName⟩
  · rw [starts_append, starts_append, ← hp.code]
    refine List.rel_append hp.starts ?_
    rw [List.forall₂_map_left_iff, List.forall₂_map_right_iff]
    refine hq.starts.imp ?_
    rintro x y ⟨hIndex, hName⟩
    exact ⟨congrArg (p.code.length + ·) hIndex, hName⟩
  · rw [gaps_append, gaps_append]
    exact List.rel_append hp.gaps hq.gaps
  · rw [marks_append, marks_append, hp.marks, hq.marks, hp.code]

/-- Actions that are the same but for names leave such pieces behind. -/
theorem ofAction_alike (line : Line) {a a' : Action} (h : a.Alike n a') :
    (ofAction line a).Alike n (ofAction line a') := by
  -- each action leaves at most one entry behind, at the beginning of its piece
  cases h with
  | emit inst => exact ⟨rfl, .nil, .nil, .nil, rfl⟩
  | branch inst hName => exact ⟨rfl, .cons ⟨rfl, hName⟩ .nil, .nil, .nil, rfl⟩
  | gap what hText => exact ⟨rfl, .nil, .nil, .cons ⟨rfl, hText⟩ .nil, rfl⟩
  | mark kind var => exact ⟨rfl, .nil, .nil, .nil, rfl⟩
  | note x x' => exact .empty

/-- Lists of actions that are the same but for names leave such pieces behind. -/
theorem ofActions_alike (line : Line) {as as' : List Action}
    (h : List.Forall₂ (Action.Alike n) as as') :
    (ofActions line as).Alike n (ofActions line as') := by
  induction h with
  | nil => exact .empty
  | cons hFirst _ ih => exact (ofAction_alike line hFirst).append ih

/-- Decisions that go together leave alike pieces behind and end alike. -/
theorem ofDecision_alike (line : Line) {d d' : Except LoweringError (List Action)}
    (h : DecidedAlike n d d') :
    (ofDecision line d).1.Alike n (ofDecision line d').1 ∧
      Parallel Eq (ofDecision line d).2 (ofDecision line d').2 := by
  cases h with
  | ok hActions => exact ⟨ofActions_alike line hActions, .ok rfl⟩
  | error hClass => exact ⟨.empty, .error hClass⟩

end Piece

/-- Names go with themselves. -/
def Naming.same : Naming where
  block := Eq
  text := Eq

/-- Pieces that are the same but for names are the same where names go with themselves. -/
theorem Piece.Alike.eq {p q : Piece} (h : p.Alike .same q) : p = q := by
  have hBranches : p.branches = q.branches := by
    refine List.forall₂_eq_eq_eq ▸ h.branches.imp ?_
    rintro ⟨i, t⟩ ⟨i', t'⟩ ⟨hIndex, hName⟩
    exact congrArg₂ PendingBranch.mk hIndex hName
  have hStarts : p.starts = q.starts := by
    refine List.forall₂_eq_eq_eq ▸ h.starts.imp ?_
    rintro ⟨b, i⟩ ⟨b', i'⟩ ⟨hIndex, hName⟩
    exact congrArg₂ BlockStart.mk hName hIndex
  have hGaps : p.gaps = q.gaps := by
    refine List.forall₂_eq_eq_eq ▸ h.gaps.imp ?_
    rintro ⟨what, value⟩ ⟨what', value'⟩ ⟨hWhat, hText⟩
    exact congrArg₂ Gap.mk hWhat hText
  -- a piece is its five tables
  obtain ⟨code, branches, starts, gaps, marks⟩ := p
  obtain ⟨code', branches', starts', gaps', marks'⟩ := q
  -- indices go with themselves, and names with names that are the same
  obtain rfl : code = code' := h.code
  obtain rfl : marks = marks' := h.marks
  obtain rfl : branches = branches' := hBranches
  obtain rfl : starts = starts' := hStarts
  obtain rfl : gaps = gaps' := hGaps
  rfl

namespace Func

variable {n : Naming} {f g : Func}

/-- Nothing that is read of a value tells its block, so a value is read alike in
two functions, whatever its block, if its slot and its arguments are. -/
theorem readAlike_owner {v : Value} (owner : BlockId) (hSlot : f.slot? v.id = g.slot? v.id)
    (hArgs : ∀ arg ∈ v.args, Option.Rel (f.SameOperand g) (f.value? arg) (g.value? arg)) :
    f.ReadAlike .same g v { v with block := owner } where
  op := rfl
  ty := rfl
  auxInt := rfl
  aux := rfl
  reg := rfl
  line := rfl
  slot := hSlot
  args := List.forall₂_same.mpr hArgs
  -- not even the description names the block
  text := rfl

/-- A block is left alike in two functions if its control value is read alike,
and belongs to the block in both or in neither. -/
theorem exitAlike_self {b : Block} (next : Option BlockId)
    (h : ∀ id, b.control = some id → Option.Rel
      (fun v v' => f.ReadAlike .same g v v' ∧ (v.block = b.id ↔ v'.block = b.id))
      (f.value? id) (g.value? id)) :
    f.ExitAlike .same g b next b next where
  kind := rfl
  line := rfl
  succs := List.forall₂_same.mpr fun _ _ => ⟨rfl, Iff.rfl⟩
  control := by
    generalize b.control = x at h
    -- what the block has of its own is the same; the control value is looked up on both sides
    cases x with
    | none => exact .none
    | some id => exact .some ⟨h id rfl, Iff.rfl⟩

/-- Steps that go together. An id may be one of no value, on both sides. -/
inductive StepAlike (n : Naming) (f g : Func) : Step → Step → Prop
  | start {b b' : Block} : n.block b.id b'.id → StepAlike n f g (.start b) (.start b')
  | value {id id' : ValueId} : Option.Rel (f.ReadAlike n g) (f.value? id) (g.value? id') →
      StepAlike n f g (.value id) (.value id')
  | terminator {b b' : Block} {next next' : Option BlockId} : f.ExitAlike n g b next b' next' →
      StepAlike n f g (.terminator b next) (.terminator b' next')

/-- Steps that go together leave alike pieces behind and end alike. -/
theorem stepPiece_alike (options : Options) {x y : Step} (h : f.StepAlike n g x y) :
    (f.stepPiece options x).1.Alike n (g.stepPiece options y).1 ∧
      Parallel Eq (f.stepPiece options x).2 (g.stepPiece options y).2 := by
  cases h with
  | start hName => exact ⟨⟨rfl, .nil, .cons ⟨rfl, hName⟩ .nil, .nil, rfl⟩, .ok rfl⟩
  | value hValues =>
    have hResolved := resolve_parallel hValues
    rw [stepPiece, stepPiece]
    generalize f.resolve _ = r, g.resolve _ = r' at hResolved
    -- the values are found on both sides, or on neither
    cases hResolved with
    | ok hRead =>
      simp only [← hRead.line]
      exact Piece.ofDecision_alike _ (lowerValue_parallel options hRead)
    | error hClass => exact ⟨.empty, .error hClass⟩
  | terminator hExit =>
    rw [stepPiece, stepPiece, ← hExit.line]
    exact Piece.ofDecision_alike _ (lowerTerminator_parallel hExit)

/-- **Steps that leave alike pieces behind, one by one, do so together**, and they
end alike: none fails, or the same step fails on both sides. -/
theorem runPiece_alike_of_steps (options : Options) {xs ys : List Step}
    (h : List.Forall₂ (fun x y =>
      (f.stepPiece options x).1.Alike n (g.stepPiece options y).1 ∧
        Parallel Eq (f.stepPiece options x).2 (g.stepPiece options y).2) xs ys) :
    (f.runPiece options xs).1.Alike n (g.runPiece options ys).1 ∧
      Parallel Eq (f.runPiece options xs).2 (g.runPiece options ys).2 := by
  induction h with
  | nil => exact ⟨.empty, .ok rfl⟩
  -- the run goes on behind the step only if that succeeds, which it does on both sides or on
  -- neither
  | @cons x y xs ys hStep _ ih =>
    obtain ⟨hPiece, hEnd⟩ := hStep
    rw [runPiece, runPiece]
    generalize f.stepPiece options x = s, g.stepPiece options y = s' at hPiece hEnd
    obtain ⟨p, r⟩ := s
    obtain ⟨q, r'⟩ := s'
    cases hEnd with
    | ok _ => exact ⟨hPiece.append ih.1, ih.2⟩
    | error hClass => exact ⟨hPiece, .error hClass⟩

/-- Steps that go together leave pieces behind that do, and end alike. -/
theorem runPiece_alike (options : Options) {xs ys : List Step}
    (h : List.Forall₂ (f.StepAlike n g) xs ys) :
    (f.runPiece options xs).1.Alike n (g.runPiece options ys).1 ∧
      Parallel Eq (f.runPiece options xs).2 (g.runPiece options ys).2 :=
  runPiece_alike_of_steps options (h.imp fun _ _ => stepPiece_alike options)

/-- Where names go with themselves, steps that go together leave the same piece behind. -/
theorem Lowers.of_alike {options : Options} {xs ys : List Step} {p : Piece}
    (h : f.Lowers options xs p) (hSteps : List.Forall₂ (f.StepAlike .same g) xs ys) :
    g.Lowers options ys p := by
  obtain ⟨hPiece, hEnd⟩ := runPiece_alike options hSteps
  rw [show f.runPiece options xs = (p, .ok ()) from h] at hPiece hEnd
  exact Prod.ext hPiece.eq.symm (hEnd.eq_ok rfl)

/-! ## Functions that are lowered alike -/

/-- Lowering reads the same of two blocks, each with the one that follows it. -/
structure BlockAlike (n : Naming) (f g : Func) (x y : Block × Option BlockId) : Prop where
  id : n.block x.1.id y.1.id
  values : List.Forall₂ (fun id id' => Option.Rel (f.ReadAlike n g) (f.value? id) (g.value? id'))
    x.1.values y.1.values
  exit : f.ExitAlike n g x.1 x.2 y.1 y.2

/-- The steps of blocks that go together go together one by one. -/
theorem BlockAlike.steps {x y : Block × Option BlockId} (h : f.BlockAlike n g x y) :
    List.Forall₂ (f.StepAlike n g) (x.1.steps x.2) (y.1.steps y.2) := by
  refine .cons (.start h.id) (List.rel_append ?_ (.cons (.terminator h.exit) .nil))
  rw [List.forall₂_map_left_iff, List.forall₂_map_right_iff]
  exact h.values.imp fun _ _ hValues => .value hValues

theorem layoutSteps_alike
    (h : List.Forall₂ (f.BlockAlike n g) (followed f.blocks) (followed g.blocks)) :
    List.Forall₂ (f.StepAlike n g) (layoutSteps f.blocks) (layoutSteps g.blocks) := by
  rw [layoutSteps_eq_flatMap, layoutSteps_eq_flatMap]
  exact List.rel_flatMap h fun _ _ hBlock => hBlock.steps

/-- Functions whose layouts leave alike pieces behind are lowered alike. -/
theorem lower_alike_of_run (options : Options)
    (h : (f.runPiece options (layoutSteps f.blocks)).1.Alike n
        (g.runPiece options (layoutSteps g.blocks)).1 ∧
      Parallel Eq (f.runPiece options (layoutSteps f.blocks)).2
        (g.runPiece options (layoutSteps g.blocks)).2) :
    Parallel
      (fun out out' => ∃ p q : Piece, p.Alike n q ∧ out = p.output f.name ∧ out' = q.output g.name)
      (f.lower options).result (g.lower options).result ∧
    (f.lower options).marks = (g.lower options).marks := by
  obtain ⟨hPiece, hEnd⟩ := h
  obtain ⟨hResult, hMarks⟩ := f.lower_eq_runPiece options
  obtain ⟨hResult', hMarks'⟩ := g.lower_eq_runPiece options
  constructor
  · rw [hResult, hResult']
    generalize (f.runPiece options _).2 = r, (g.runPiece options _).2 = r' at hEnd
    -- both runs succeed, or both fail at the same step
    cases hEnd with
    | ok _ => exact .ok ⟨_, _, hPiece, rfl, rfl⟩
    | error hClass => exact .error hClass
  · rw [hMarks, hMarks', hPiece.marks]

/-- **Functions whose layouts are read alike are lowered alike.** -/
theorem lower_alike (options : Options)
    (h : List.Forall₂ (f.BlockAlike n g) (followed f.blocks) (followed g.blocks)) :
    Parallel
      (fun out out' => ∃ p q : Piece, p.Alike n q ∧ out = p.output f.name ∧ out' = q.output g.name)
      (f.lower options).result (g.lower options).result ∧
    (f.lower options).marks = (g.lower options).marks :=
  lower_alike_of_run options (runPiece_alike options (layoutSteps_alike h))

end Func

end RiscvLowering
