import Mathlib.Data.List.Induction
import RiscvLowering.Proofs.Gaps

/-!
# Accounts — what is on record of gaps and lifetimes

Two things are recorded beside the code: the gaps, and the statements of
lifetimes with the place in the code that they are made at. Both follow from the
schedule: every value that leaves a gap and every marker is accounted for once,
in order.

Main results:

* `mem_actions_mark_iff` — only a marker states something, and of its own
  variable.
* `marks_of_lowers` — steps state what their markers say, each at the end of the
  code before it.
* `records_account` — what is recorded of a function, whether it is lowered or not.
-/

namespace RiscvLowering

/-- What a marker says: the kind of its statement, and of which variable. -/
def Value.marker? (v : Value) : Option (MarkKind × FrameVar) :=
  match v.op, v.aux with
  | .mark kind, .var var => some (kind, var)
  | _, _ => none

/-! ## Actions -/

/-- Actions that state nothing leave no mark behind. -/
theorem Piece.marks_ofActions_eq_nil {line : Line} {actions : List Action}
    (h : ∀ kind var, .mark kind var ∉ actions) : (ofActions line actions).marks = [] := by
  induction actions with
  | nil => rfl
  | cons a as ih =>
    have hRest := ih fun kind var hMem => h kind var (List.mem_cons_of_mem a hMem)
    rw [ofActions, marks_append, hRest]
    -- only a statement leaves a mark
    cases a with
    | mark kind var => exact absurd List.mem_cons_self (h kind var)
    | _ => rfl

namespace Func

variable {f : Func} {options : Options} {v : Value} {actions : List Action}
  {xs : List Step} {p : Piece}

/-- A marker with a variable is decided on as a statement about that, whatever the options are. -/
theorem lowerValue_of_marker? {m : MarkKind × FrameVar} (h : v.marker? = some m) :
    f.lowerValue options v = .ok [.mark m.1 m.2] := by
  unfold Value.marker? at h
  split at h
  · rename_i kind var hOp hAux
    obtain rfl := Option.some.inj h
    rw [lowerValue, hOp]
    exact lowerMark_eq_ok_iff.mpr ⟨var, hAux, rfl⟩
  · simp at h

/-- A value that is decided on as a statement is a marker of that kind and variable. -/
theorem marker?_of_lowerValue {kind : MarkKind} {var : FrameVar}
    (h : f.lowerValue options v = .ok [.mark kind var]) : v.marker? = some (kind, var) := by
  -- what is decided on tells the operation, as only a marker states something
  unfold lowerValue at h
  cases hOp : v.op with
  | mark kind' =>
    simp only [hOp] at h
    obtain ⟨var', hAux, hActions⟩ := lowerMark_eq_ok_iff.mp h
    simp only [List.cons.injEq, Action.mark.injEq, and_true] at hActions
    obtain ⟨rfl, rfl⟩ := hActions
    simp only [Value.marker?, hOp, hAux]
  | copy | movConvert =>
    simp only [hOp, lowerCopy_eq_ok_iff, copyActions] at h
    obtain ⟨-, hActions⟩ | ⟨-, rs, rd, -, -, -, hActions⟩ := h
    · simp at hActions
    · split at hActions <;> simp at hActions
  | _ =>
    -- all other operations decide on something else
    simp [hOp, lowerPhi_eq_ok_iff, lowerReload_eq_ok_iff, lowerSpill_eq_ok_iff,
      lowerAlu_eq_ok_iff, lowerAluImm_eq_ok_iff, lowerConst_eq_ok_iff, lowerAddress_eq_ok_iff,
      lowerLoad_eq_ok_iff, lowerStore_eq_ok_iff, lowerZeroTest_eq_ok_iff, lowerExit_eq_ok_iff,
      gap_eq_ok_iff] at h

/-- Only a marker states something, and of its own variable. -/
theorem mem_actions_mark_iff (h : f.lowerValue options v = .ok actions) {kind : MarkKind}
    {var : FrameVar} : .mark kind var ∈ actions ↔ v.marker? = some (kind, var) := by
  constructor
  · intro hMem
    -- only one kind of decision states anything
    cases lowerValue_valueActions h with
    | mark kind' var' =>
      simp only [List.mem_singleton, Action.mark.injEq] at hMem
      obtain ⟨rfl, rfl⟩ := hMem
      exact marker?_of_lowerValue h
    | _ => simp at hMem
  · intro hMarker
    -- a marker decides on its statement and nothing else
    rw [lowerValue_of_marker? hMarker, Except.ok.injEq] at h
    rw [← h]
    exact List.mem_cons_self

/-- No statement is among the actions that leave a block. -/
theorem Leaves.mark_not_mem {b : Block} {next : Option BlockId} (h : f.Leaves b next actions)
    (kind : MarkKind) (var : FrameVar) : .mark kind var ∉ actions := by
  -- whichever way control goes, there are only instructions, branches and notes
  cases h with
  | goto =>
    rw [gotoActions]
    split <;> simp
  | exit => simp
  | ret => simp
  | branch =>
    rw [branchActions]
    split
    · simp
    · split <;> simp

/-! ## Steps -/

/-- What a step states, if it lowers a marker. -/
def stepMarker? (f : Func) (x : Step) : Option (MarkKind × FrameVar) :=
  (f.stepValue? x).bind Value.marker?

/-- What steps state: for each marker its statement, at the end of the code that
the steps before it leave. -/
def events (f : Func) (options : Options) (xs : List Step) : List Mark :=
  xs.zipIdx.filterMap fun x => (f.stepMarker? x.1).map fun m =>
    ⟨m.1, m.2, (f.codeOf options (xs.take x.2)).length⟩

/-- One more step states what its marker says, at the end of the code of the steps before it. -/
theorem events_concat (xs : List Step) (x : Step) :
    f.events options (xs ++ [x]) = f.events options xs ++
      ((f.stepMarker? x).map fun m => ⟨m.1, m.2, (f.codeOf options xs).length⟩).toList := by
  rw [events, List.zipIdx_append, List.filterMap_append, events]
  congr 1
  · -- the steps before an earlier step are the same
    refine List.filterMap_congr fun y hy => ?_
    obtain ⟨y, n⟩ := y
    have hn : n < xs.length := by
      have := List.snd_lt_of_mem_zipIdx hy
      omega
    rw [List.take_append_of_le_length (Nat.le_of_lt hn)]
  · rw [List.zipIdx_singleton, List.filterMap_cons, List.filterMap_nil, Nat.zero_add,
      List.take_left]
    cases f.stepMarker? x <;> rfl

/-- A step by itself leaves at most one mark, at the beginning of its piece. -/
theorem marks_of_stepPiece {x : Step} (h : f.stepPiece options x = (p, .ok ())) :
    p.marks = ((f.stepMarker? x).map fun m => ⟨m.1, m.2, 0⟩).toList := by
  cases x with
  | start b =>
    obtain ⟨rfl, -⟩ := Prod.mk.inj h
    rfl
  | value id =>
    obtain ⟨v, actions, hv, hLower, rfl⟩ := stepPiece_value_eq_ok_iff.mp h
    rw [stepMarker?, stepValue?, hv, Option.bind_some]
    -- a marker states one thing, and any other value nothing
    cases hMarker : v.marker? with
    | none =>
      exact Piece.marks_ofActions_eq_nil fun kind var hMem => by
        simp [(mem_actions_mark_iff hLower).mp hMem] at hMarker
    | some m =>
      rw [lowerValue_of_marker? hMarker, Except.ok.injEq] at hLower
      rw [← hLower]
      rfl
  | terminator b next =>
    obtain ⟨actions, hLower, rfl⟩ := ofDecision_eq_ok_iff.mp h
    exact Piece.marks_ofActions_eq_nil (lowerTerminator_eq_ok_iff.mp hLower).mark_not_mem

/-- **Steps that succeed state what their markers say**, each at the end of the
code before it. -/
theorem marks_of_lowers (h : f.Lowers options xs p) : p.marks = f.events options xs := by
  induction xs using List.reverseRecOn generalizing p with
  | nil =>
    obtain rfl := lowers_nil_iff.mp h
    rfl
  | append_singleton xs x ih =>
    obtain ⟨q, r, hBefore, hLast, rfl⟩ := lowers_append_iff.mp h
    rw [Piece.marks_append, ih hBefore, events_concat, hBefore.codeOf_eq,
      marks_of_stepPiece (lowers_singleton_iff.mp hLast)]
    cases f.stepMarker? x <;> rfl

/-- What steps state is what their values say, in order. -/
theorem map_events (xs : List Step) :
    (f.events options xs).map (fun m => (m.kind, m.var)) =
      (xs.filterMap f.stepValue?).filterMap Value.marker? := by
  -- a statement keeps what its marker says, and adds the place
  have hPairs : ∀ x : Step × Nat, ((f.stepMarker? x.1).map fun m : MarkKind × FrameVar =>
      (⟨m.1, m.2, (f.codeOf options (xs.take x.2)).length⟩ : Mark)).map
        (fun m => (m.kind, m.var)) = f.stepMarker? x.1 := by
    intro x
    rw [Option.map_map]
    exact Option.map_id'
  rw [events, List.map_filterMap]
  simp only [hPairs]
  rw [← Function.comp_def f.stepMarker? Prod.fst, ← List.filterMap_map, List.zipIdx_map_fst,
    List.filterMap_filterMap]
  rfl

theorem mem_events {n : Nat} {x : Step} {m : MarkKind × FrameVar} (hx : xs[n]? = some x)
    (hm : f.stepMarker? x = some m) :
    ⟨m.1, m.2, (f.codeOf options (xs.take n)).length⟩ ∈ f.events options xs := by
  refine List.mem_filterMap.mpr ⟨(x, n), List.mk_mem_zipIdx_iff_getElem?.mpr hx, ?_⟩
  rw [hm]
  rfl

/-! ## Functions -/

theorem value_mem_layoutSteps {b : Block} {id : ValueId} (hb : b ∈ f.blocks)
    (hId : id ∈ b.values) : .value id ∈ layoutSteps f.blocks := by
  rw [← map_fst_followed f.blocks, List.mem_map] at hb
  obtain ⟨z, hz, rfl⟩ := hb
  rw [layoutSteps_eq_flatMap, List.mem_flatMap]
  exact ⟨z, hz, by simp [Block.steps, hId]⟩

/-- A marker stands in the code behind all that was lowered before it: in its
own block, and in front of some instruction. -/
structure Stands (f : Func) (options : Options) (out : Output) (n k : Nat) : Prop where
  before : out.code.take (f.codeOf options ((layoutSteps f.blocks).take n)).length =
    f.codeOf options ((layoutSteps f.blocks).take n)
  inside : (f.codeOf options ((layoutSteps f.blocks).take n)).length < out.code.length
  own : ∃ s, out.starts[k]? = some s ∧
    s.index ≤ (f.codeOf options ((layoutSteps f.blocks).take n)).length
  next : ∀ s, out.starts[k + 1]? = some s →
    (f.codeOf options ((layoutSteps f.blocks).take n)).length ≤ s.index

/-- What is recorded of a lowered function accounts for its schedule. -/
structure Account (f : Func) (options : Options) (out : Output) (marks : List Mark) : Prop where
  resolves : ∀ b ∈ f.blocks, ∀ id ∈ b.values, ∃ v, f.value? id = some v
  gaps : out.gaps = f.scheduled.filterMap Value.gap?
  complete : out.isComplete = true ↔ ∀ v ∈ f.scheduled, v.gap? = none
  /-- Every marker that is scheduled says something. -/
  markers : ∀ v ∈ f.scheduled, ∀ kind, v.op = .mark kind → ∃ var, v.marker? = some (kind, var)
  statements : marks.map (fun m => (m.kind, m.var)) = f.scheduled.filterMap Value.marker?
  listed : marks = f.events options (layoutSteps f.blocks)
  ascending : marks.Pairwise (·.index ≤ ·.index)
  /-- The `n`-th step, if it is a marker of the `k`-th block, is stated where it stands. -/
  stands : ∀ n k x m, f.places[n]? = some (k, x) → f.stepMarker? x = some m →
    ⟨m.1, m.2, (f.codeOf options ((layoutSteps f.blocks).take n)).length⟩ ∈ marks ∧
      f.Stands options out n k

theorem stands_of_place {n k : Nat} {id : ValueId} (h : f.Lowers options (layoutSteps f.blocks) p)
    (hPlace : f.places[n]? = some (k, .value id)) :
    f.Stands options (p.output f.name) n k := by
  have hStep : n < (layoutSteps f.blocks).length := by
    rw [← map_snd_places, List.length_map]
    exact (List.getElem?_eq_some_iff.mp hPlace).1
  -- the run is cut before the step, so what the first part adds is what the step finds
  have hSplit := h
  rw [← List.take_append_drop n (layoutSteps f.blocks)] at hSplit
  obtain ⟨q, r, hBefore, -, rfl⟩ := lowers_append_iff.mp hSplit
  obtain ⟨hOwn, hNext⟩ := index_between_starts hPlace hBefore r
  have hCode := hBefore.codeOf_eq
  refine ⟨?_, ?_, ?_, ?_⟩ <;> rw [hCode]
  · exact List.take_left
  · exact length_lt_of_lowers h hStep hBefore
  · exact hOwn
  · exact hNext

/-- **A lowered function is accounted for:** its schedule resolves, its gaps are those that its
values leave, and its marks are what its markers say, each in its own block. -/
theorem account_of_result_eq_ok {out : Output} (h : (f.lower options).result = .ok out) :
    f.Account options out (f.lower options).marks := by
  -- everything is read off the piece of the layout, which succeeded
  obtain ⟨p, hLowers, rfl, hMarks⟩ := exists_lowers_of_result_eq_ok h
  have hGaps : p.gaps = f.scheduled.filterMap Value.gap? := by
    rw [gaps_of_lowers hLowers, gapsOf_layoutSteps]
  rw [hMarks]
  refine ⟨fun b hb id hId => ?_, hGaps, ?_, fun v hv kind hOp => ?_, ?_, marks_of_lowers hLowers,
    (orderly_of_lowers hLowers).marks.pairwise, fun n k x m hPlace hm => ?_⟩
  · obtain ⟨q, hStep⟩ := exists_stepPiece_of_mem hLowers (value_mem_layoutSteps hb hId)
    obtain ⟨v, -, hv, -⟩ := stepPiece_value_eq_ok_iff.mp hStep
    exact ⟨v, hv⟩
  · rw [Output.isComplete, List.isEmpty_iff, Piece.output, hGaps, List.filterMap_eq_nil_iff]
  · -- a marker that says nothing cannot be lowered
    obtain ⟨id, hId, hValue⟩ := List.mem_filterMap.mp hv
    obtain ⟨b, hb, hId⟩ := List.mem_flatMap.mp hId
    obtain ⟨q, hStep⟩ := exists_stepPiece_of_mem hLowers (value_mem_layoutSteps hb hId)
    obtain ⟨v', actions, hv', hLower, -⟩ := stepPiece_value_eq_ok_iff.mp hStep
    obtain rfl := Option.some.inj (hValue.symm.trans hv')
    rw [lowerValue, hOp] at hLower
    obtain ⟨var, hAux, -⟩ := lowerMark_eq_ok_iff.mp hLower
    exact ⟨var, by rw [Value.marker?, hOp, hAux]⟩
  · rw [marks_of_lowers hLowers, map_events, filterMap_stepValue?_layoutSteps]
  · have hx : (layoutSteps f.blocks)[n]? = some x := by
      rw [← map_snd_places, List.getElem?_map, hPlace, Option.map_some]
    refine ⟨marks_of_lowers hLowers ▸ mem_events hx hm, ?_⟩
    cases x with
    | value id => exact stands_of_place hLowers hPlace
    | start | terminator => simp [stepMarker?, stepValue?] at hm

end Func

/-- A value that leaves a gap emits nothing, in any session. -/
theorem Session.code_lowerValue_of_gap? (s : Session) {v : Value} {g : Gap}
    (h : v.gap? = some g) : (s.lowerValue v).1.code = s.code := by
  have hPiece := congrArg Piece.code (s.lowerValue_adds v).1.piece
  rw [Func.lowerValue_of_gap? h, Piece.code_append] at hPiece
  -- whether the gap is recorded or an error, no code goes with it
  have hNone : (Piece.ofDecision v.line (s.options.gap g)).1.code = [] := by
    rw [Options.gap]
    split <;> rfl
  rw [hNone, List.append_nil] at hPiece
  exact Array.toList_inj.mp hPiece

/-- **Gaps and lifetimes are accounted for.** A value that leaves a gap emits
nothing. What is recorded of a lowered function accounts for all that it
schedules; and when lowering fails, it has stated what the markers before the
failing step say. -/
theorem records_account :
    (∀ (s : Session) (v : Value) (g : Gap), v.gap? = some g →
      (s.lowerValue v).1.code = s.code) ∧
    (∀ (f : Func) (options : Options) (out : Output), (f.lower options).result = .ok out →
      f.Account options out (f.lower options).marks) ∧
    ∀ (f : Func) (options : Options) (e : LoweringError), (f.lower options).result = .error e →
      ∃ n, f.StopsAt options (layoutSteps f.blocks) n e ∧
        (f.lower options).marks = f.events options ((layoutSteps f.blocks).take n) := by
  refine ⟨fun s v g => s.code_lowerValue_of_gap?, fun f options out =>
    Func.account_of_result_eq_ok, fun f options e h => ?_⟩
  obtain ⟨n, p, hStops, hLowers, hMarks⟩ := Func.exists_lowers_of_result_eq_error h
  exact ⟨n, hStops, hMarks.trans (Func.marks_of_lowers hLowers)⟩

/-- A lifetime, a constant and a check for nil, in a block of some kind. -/
def Func.tracked (kind : BlockKind) : Func where
  name := "tracked"
  values := [
    { id := ⟨0⟩, op := .mark .define, ty := .mem, aux := .var ⟨"x", .auto, 0⟩, block := ⟨0⟩ },
    { id := ⟨1⟩, op := .const .quad, ty := .ptr, reg := some .a0, block := ⟨0⟩ },
    { id := ⟨2⟩, op := .nilCheck, ty := .void, block := ⟨0⟩ },
    { id := ⟨3⟩, op := .mark .kill, ty := .mem, aux := .var ⟨"x", .auto, 0⟩, block := ⟨0⟩ }]
  blocks := [{ id := ⟨0⟩, kind, values := [⟨0⟩, ⟨1⟩, ⟨2⟩, ⟨3⟩] }]

/-- A block with a lifetime around a constant is accounted for, with one kind of exit; with another,
lowering stops at a step. -/
theorem records_account_tracked :
    let check : Value := { id := ⟨2⟩, op := .nilCheck, ty := .void, block := ⟨0⟩ }
    (∃ g, check.gap? = some g ∧
      ((Session.fresh (.tracked .ret) {}).lowerValue check).1.code = #[]) ∧
      (∃ out, ((Func.tracked .ret).lower {}).result = .ok out ∧
        (Func.tracked .ret).Account {} out ((Func.tracked .ret).lower {}).marks) ∧
      ((Func.tracked .ret).lower {}).marks =
        [⟨.define, ⟨"x", .auto, 0⟩, 0⟩, ⟨.kill, ⟨"x", .auto, 0⟩, 1⟩] ∧
      ∃ e, ((Func.tracked .branch).lower {}).result = .error e ∧
        ∃ n, (Func.tracked .branch).StopsAt {} (layoutSteps (Func.tracked .branch).blocks) n e := by
  intro check
  refine ⟨⟨_, rfl, records_account.1 _ check _ rfl⟩, ⟨_, rfl, records_account.2.1 _ _ _ rfl⟩, rfl,
    _, rfl, ?_⟩
  obtain ⟨n, hStops, -⟩ := records_account.2.2 (Func.tracked .branch) {} _ rfl
  exact ⟨n, hStops⟩

end RiscvLowering
