import RiscvLowering.Proofs.Commands
import RiscvLowering.Proofs.Lowerable
import RiscvLowering.Proofs.Schedule

/-!
# Gaps — what becomes of a lowering when gaps are errors

A gap is recorded, or it is an error where the options say so. Which values
leave a gap can be told from their operations and types alone. A lowering that
records gaps and one that takes them for errors do the same up to the first
gap; there the second one stops.

Main results:

* `lowerValue_of_gap?`, `lowerValue_strict_of_gap?_eq_none` — only a value that
  leaves a gap is lowered in another way where gaps are errors.
* `gaps_of_lowers` — steps record the gaps of their values, in order.
* `strict_stops_at_first_gap` — what comes of a function when its gaps are errors.
-/

namespace RiscvLowering

/-! ## Values that leave gaps -/

/-- The gap that a value leaves, if it leaves one: checks for nil and accesses
to flags are not implemented. -/
def Value.gap? (v : Value) : Option Gap :=
  match v.op with
  | .nilCheck => some ⟨"LoweredNilCheck", v.text⟩
  | .loadReg => if v.ty = .flags then some ⟨"load flags", v.text⟩ else none
  | .storeReg => if v.ty = .flags then some ⟨"store flags", v.text⟩ else none
  | _ => none

namespace Options

/-- The options with gaps recorded. -/
def lax (options : Options) : Options := { options with failOnGap := false }

/-- The options with gaps as errors. -/
def strict (options : Options) : Options := { options with failOnGap := true }

theorem gap_lax (options : Options) (g : Gap) : options.lax.gap g = .ok [.gap g] := rfl

theorem gap_strict (options : Options) (g : Gap) :
    options.strict.gap g = .error (.unimplemented g) := rfl

end Options

namespace Func

variable {f : Func} {options : Options} {v : Value} {g : Gap} {xs ys zs : List Step}
  {p : Piece} {e : LoweringError}

/-- A value that leaves a gap is decided on as that gap, whatever else it holds. -/
theorem lowerValue_of_gap? (h : v.gap? = some g) : f.lowerValue options v = options.gap g := by
  unfold Value.gap? at h
  -- a check for nil, or a reload or spill of flags
  split at h
  · rename_i hOp
    obtain rfl := Option.some.inj h
    simp only [lowerValue, hOp]
  · rename_i hOp
    obtain ⟨hFlags, hGap⟩ := Option.ite_none_right_eq_some.mp h
    obtain rfl := Option.some.inj hGap
    simp only [lowerValue, hOp, lowerReload, Ty.isFlags_iff.mpr hFlags, if_true]
  · rename_i hOp
    obtain ⟨hFlags, hGap⟩ := Option.ite_none_right_eq_some.mp h
    obtain rfl := Option.some.inj hGap
    simp only [lowerValue, hOp, lowerSpill, Ty.isFlags_iff.mpr hFlags, if_true]
  · simp at h

/-- A value that leaves no gap is decided on in the same way, whether gaps are errors or not. -/
theorem lowerValue_strict_of_gap?_eq_none (h : v.gap? = none) :
    f.lowerValue options.strict v = f.lowerValue options.lax v := by
  rw [lowerValue, lowerValue]
  -- the option is looked at where there may be a gap, and these values leave none
  cases hOp : v.op with
  | nilCheck => simp [Value.gap?, hOp] at h
  | loadReg =>
    simp only [Value.gap?, hOp, ite_eq_right_iff, reduceCtorEq, imp_false] at h
    simp only [lowerReload, Ty.isFlags_iff, h, if_false]
  | storeReg =>
    simp only [Value.gap?, hOp, ite_eq_right_iff, reduceCtorEq, imp_false] at h
    simp only [lowerSpill, Ty.isFlags_iff, h, if_false]
  | _ => rfl

/-! ## Steps -/

/-- The gap that a step leaves, if it leaves one. -/
def stepGap? (f : Func) (x : Step) : Option Gap := (f.stepValue? x).bind Value.gap?

/-- The gaps that steps leave, in order. -/
def gapsOf (f : Func) (xs : List Step) : List Gap := xs.filterMap f.stepGap?

/-- The steps of a layout pass the gaps of what is scheduled, in order. -/
theorem gapsOf_layoutSteps : f.gapsOf (layoutSteps f.blocks) = f.scheduled.filterMap Value.gap? := by
  rw [← filterMap_stepValue?_layoutSteps, List.filterMap_filterMap]
  rfl

/-- A step that passes a gap lowers a value that leaves it. -/
theorem exists_value_of_stepGap? {x : Step} (h : f.stepGap? x = some g) :
    ∃ id v, x = .value id ∧ f.value? id = some v ∧ v.gap? = some g := by
  obtain ⟨v, hv, hGap⟩ := Option.bind_eq_some_iff.mp h
  cases x with
  | value id => exact ⟨id, v, rfl, hv, hGap⟩
  | start | terminator => simp [stepValue?] at hv

theorem stepPiece_lax_of_gap {x : Step} (h : f.stepGap? x = some g) :
    f.stepPiece options.lax x = ({ gaps := [g] }, .ok ()) := by
  obtain ⟨id, v, rfl, hv, hGap⟩ := exists_value_of_stepGap? h
  rw [stepPiece, resolve_eq_ok_iff.mpr hv]
  simp only [lowerValue_of_gap? hGap, Options.gap_lax, Piece.ofDecision]
  rfl

theorem stepPiece_strict_of_gap {x : Step} (h : f.stepGap? x = some g) :
    f.stepPiece options.strict x = ({}, .error (.unimplemented g)) := by
  obtain ⟨id, v, rfl, hv, hGap⟩ := exists_value_of_stepGap? h
  rw [stepPiece, resolve_eq_ok_iff.mpr hv]
  simp only [lowerValue_of_gap? hGap, Options.gap_strict, Piece.ofDecision]

/-- A step without a gap is the same step, whether gaps are errors or not. -/
theorem stepPiece_strict_of_no_gap {x : Step} (h : f.stepGap? x = none) :
    f.stepPiece options.strict x = f.stepPiece options.lax x := by
  cases x with
  | start | terminator => rfl
  | value id =>
    rw [stepPiece, stepPiece]
    -- a value that is missing is missing under any options
    cases hv : f.value? id with
    -- an id of nothing fails before the options are looked at
    | none => rw [resolve, hv]
    | some v =>
      rw [stepGap?, stepValue?, hv, Option.bind_some] at h
      rw [resolve_eq_ok_iff.mpr hv]
      simp only [lowerValue_strict_of_gap?_eq_none h]

/-- Where there are no gaps, it is nothing to a step whether gaps are errors. -/
theorem stepPiece_eq_of_no_gap {x : Step} (h : f.stepGap? x = none) :
    f.stepPiece options x = f.stepPiece options.strict x := by
  cases hFail : options.failOnGap with
  | true => rw [show options.strict = options from by rw [Options.strict, ← hFail]]
  | false =>
    rw [stepPiece_strict_of_no_gap h,
      show options.lax = options from by rw [Options.lax, ← hFail]]

/-- A step that succeeds records its gap and no other. -/
theorem gaps_of_stepPiece {x : Step} (h : f.stepPiece options x = (p, .ok ())) :
    p.gaps = (f.stepGap? x).toList := by
  cases hGap : f.stepGap? x with
  | none =>
    -- taken for errors, gaps would not be recorded
    have hOrderly := f.orderly_stepPiece options.strict x
    rw [← stepPiece_eq_of_no_gap hGap, h] at hOrderly
    exact hOrderly.gaps rfl
  | some g =>
    cases hFail : options.failOnGap with
    | true =>
      rw [show options = options.strict from by rw [Options.strict, ← hFail],
        stepPiece_strict_of_gap hGap] at h
      simp at h
    | false =>
      rw [show options = options.lax from by rw [Options.lax, ← hFail],
        stepPiece_lax_of_gap hGap] at h
      rw [← (Prod.mk.inj h).1]
      rfl

/-- **Steps that succeed record the gaps of their values, in order.** -/
theorem gaps_of_lowers (h : f.Lowers options xs p) : p.gaps = f.gapsOf xs := by
  induction xs generalizing p with
  | nil =>
    obtain rfl := lowers_nil_iff.mp h
    rfl
  | cons x xs ih =>
    obtain ⟨q, r, hFirst, hRest, rfl⟩ := lowers_cons_iff.mp h
    rw [Piece.gaps_append, gaps_of_stepPiece hFirst, ih hRest, gapsOf, gapsOf, List.filterMap_cons]
    cases f.stepGap? x <;> rfl

/-! ## Runs side by side -/

/-- Steps without gaps do the same whether gaps are errors or not. -/
theorem runPiece_strict_of_no_gaps (h : f.gapsOf xs = []) :
    f.runPiece options.strict xs = f.runPiece options.lax xs := by
  induction xs with
  | nil => rfl
  | cons x xs ih =>
    obtain ⟨hFirst, hRest⟩ := List.forall_mem_cons.mp (List.filterMap_eq_nil_iff.mp h)
    rw [runPiece, runPiece, stepPiece_strict_of_no_gap hFirst,
      ih (List.filterMap_eq_nil_iff.mpr hRest)]

/-- With gaps as errors, steps end at the first gap, and have stated no more
than was stated up to there. -/
theorem runPiece_strict_of_gap {gs : List Gap} (h : f.Lowers options.lax xs p)
    (hGaps : f.gapsOf xs = g :: gs) (ys : List Step) :
    ∃ q, f.runPiece options.strict (xs ++ ys) = (q, .error (.unimplemented g)) ∧
      q.marks <+: p.marks := by
  -- the steps before the first gap run alike, and the step that leaves it fails
  obtain ⟨before, x, after, rfl, hBefore, hGap, -⟩ := List.filterMap_eq_cons_iff.mp hGaps
  obtain ⟨q, r, hLax, -, rfl⟩ := lowers_append_iff.mp h
  have hStrict : f.runPiece options.strict before = (q, .ok ()) :=
    (runPiece_strict_of_no_gaps (List.filterMap_eq_nil_iff.mpr hBefore)).trans hLax
  refine ⟨q, ?_, _, rfl⟩
  rw [List.append_assoc, List.cons_append, runPiece_append, hStrict]
  simp only [runPiece, stepPiece_strict_of_gap hGap, Piece.append_empty]

/-- Steps that fail with no gap before fail alike with gaps as errors. -/
theorem runPiece_strict_of_stopsAt {n : Nat} (hStops : f.StopsAt options.lax xs n e)
    (h : f.Lowers options.lax (xs.take n) p) (hGaps : f.gapsOf (xs.take n) = []) :
    f.runPiece options.strict xs = (p, .error e) := by
  obtain ⟨x, hx, hFails⟩ := hStops.fails
  obtain ⟨hn, rfl⟩ := List.getElem?_eq_some_iff.mp hx
  have hStep : f.stepPiece options.lax xs[n] = ({}, .error e) := by
    rw [end_alone] at hFails
    exact Prod.ext (stepPiece_eq_of_error (Prod.ext rfl hFails)) hFails
  -- a step that leaves a gap would not have failed
  have hNoGap : f.stepGap? xs[n] = none := by
    refine Option.eq_none_iff_forall_ne_some.mpr fun g hGap => ?_
    rw [stepPiece_lax_of_gap hGap] at hStep
    simp at hStep
  have hStrict : f.runPiece options.strict (xs.take n) = (p, .ok ()) :=
    (runPiece_strict_of_no_gaps hGaps).trans h
  rw [← List.take_append_drop n xs, List.drop_eq_getElem_cons hn, runPiece_append, hStrict]
  simp only [runPiece, stepPiece_strict_of_no_gap hNoGap, hStep, Piece.append_empty]

/-! ## Functions -/

variable {out : Output} {gs : List Gap}

/-- If the steps up to some place succeed and pass a gap, then with gaps as errors the first of
these ends the lowering, whatever the later steps are. -/
theorem strict_of_gap {n : Nat} (h : f.Lowers options.lax ((layoutSteps f.blocks).take n) p)
    (hGaps : f.gapsOf ((layoutSteps f.blocks).take n) = g :: gs) :
    (f.lower options.strict).result = .error (.unimplemented g) ∧
      (f.lower options.strict).marks <+: p.marks := by
  obtain ⟨q, hRun, hMarks⟩ := runPiece_strict_of_gap h hGaps ((layoutSteps f.blocks).drop n)
  -- the steps that come later are never taken
  rw [List.take_append_drop] at hRun
  obtain ⟨hResult, hSame⟩ := lower_eq_of_runPiece hRun
  exact ⟨hResult, hSame ▸ hMarks⟩

/-- A function that is lowered without gaps is lowered to the same with gaps as errors. -/
theorem strict_of_complete (h : (f.lower options.lax).result = .ok out) (hGaps : out.gaps = []) :
    (f.lower options.strict).result = .ok out ∧
      (f.lower options.strict).marks = (f.lower options.lax).marks := by
  obtain ⟨p, hLowers, rfl, hMarks⟩ := exists_lowers_of_result_eq_ok h
  have hNone : f.gapsOf (layoutSteps f.blocks) = [] := (gaps_of_lowers hLowers).symm.trans hGaps
  obtain ⟨hResult, hSame⟩ :=
    lower_eq_of_runPiece ((runPiece_strict_of_no_gaps hNone).trans hLowers)
  exact ⟨hResult, hSame.trans hMarks.symm⟩

/-- A function that is lowered with gaps ends, with gaps as errors, at the first of them. -/
theorem strict_of_incomplete (h : (f.lower options.lax).result = .ok out)
    (hGaps : out.gaps = g :: gs) :
    (f.lower options.strict).result = .error (.unimplemented g) ∧
      (f.lower options.strict).marks <+: (f.lower options.lax).marks := by
  obtain ⟨p, hLowers, rfl, hMarks⟩ := exists_lowers_of_result_eq_ok h
  have hSome : f.gapsOf (layoutSteps f.blocks) = g :: gs :=
    (gaps_of_lowers hLowers).symm.trans hGaps
  rw [hMarks]
  -- the steps up to the gap are some of all steps
  rw [← List.take_length (l := layoutSteps f.blocks)] at hLowers hSome
  exact strict_of_gap hLowers hSome

/-- **A lowering that fails at a step fails as well with gaps as errors:** at the same step if no
gap comes before it, and else at the first gap. -/
theorem strict_of_error (h : (f.lower options.lax).result = .error e) :
    ∃ n, f.StopsAt options.lax (layoutSteps f.blocks) n e ∧
      (f.gapsOf ((layoutSteps f.blocks).take n) = [] →
        (f.lower options.strict).result = .error e ∧
          (f.lower options.strict).marks = (f.lower options.lax).marks) ∧
      ∀ g gs, f.gapsOf ((layoutSteps f.blocks).take n) = g :: gs →
        (f.lower options.strict).result = .error (.unimplemented g) ∧
          (f.lower options.strict).marks <+: (f.lower options.lax).marks := by
  obtain ⟨n, p, hStops, hLowers, hMarks⟩ := exists_lowers_of_result_eq_error h
  rw [hMarks]
  -- a gap before the stop is met first; without one the two runs do the same up to it
  refine ⟨n, hStops, fun hGaps => ?_, fun g gs => strict_of_gap hLowers⟩
  exact lower_eq_of_runPiece (runPiece_strict_of_stopsAt hStops hLowers hGaps)

/-- Lowering with gaps as errors succeeds exactly where code without gaps comes of
lowering that records them. -/
theorem exists_result_strict_iff :
    (∃ out, (f.lower options.strict).result = .ok out) ↔
      ∃ out, (f.lower options.lax).result = .ok out ∧ out.gaps = [] := by
  constructor
  · rintro ⟨out, hStrict⟩
    -- by how the lowering that records gaps ends
    cases hLax : (f.lower options.lax).result with
    | ok out' =>
      refine ⟨out', rfl, ?_⟩
      cases hGaps : out'.gaps with
      | nil => rfl
      | cons g gs => simp [(strict_of_incomplete hLax hGaps).1] at hStrict
    | error e =>
      obtain ⟨n, -, hNone, hSome⟩ := strict_of_error hLax
      cases hGaps : f.gapsOf ((layoutSteps f.blocks).take n) with
      | nil => simp [(hNone hGaps).1] at hStrict
      | cons g gs => simp [(hSome g gs hGaps).1] at hStrict
  · rintro ⟨out, hLax, hGaps⟩
    exact ⟨out, (strict_of_complete hLax hGaps).1⟩

/-- With gaps as errors, no more is stated than where they are recorded. -/
theorem marks_strict_prefix (f : Func) (options : Options) :
    (f.lower options.strict).marks <+: (f.lower options.lax).marks := by
  -- by how the lowering that records gaps ends, as for what it gives
  cases hLax : (f.lower options.lax).result with
  | ok out =>
    cases hGaps : out.gaps with
    | nil => exact (strict_of_complete hLax hGaps).2 ▸ List.prefix_rfl
    | cons g gs => exact (strict_of_incomplete hLax hGaps).2
  | error e =>
    obtain ⟨n, -, hNone, hSome⟩ := strict_of_error hLax
    cases hGaps : f.gapsOf ((layoutSteps f.blocks).take n) with
    | nil => exact (hNone hGaps).2 ▸ List.prefix_rfl
    | cons g gs => exact (hSome g gs hGaps).2

/-- The driver takes code without gaps only, unless it is told otherwise. -/
theorem exists_lowerText_iff {flags : LowerFlags} (hFlags : flags.allowGaps = false) :
    (∃ text, Command.lowerText options flags f = .ok text) ↔
      ∃ out, (f.lower options).result = .ok out ∧ out.gaps = [] := by
  simp only [Command.lowerText_eq_ok_iff, Command.Takes, hFlags, Bool.false_eq_true, or_false]
  constructor
  · rintro ⟨_, out, hTakes, -⟩
    exact ⟨out, hTakes⟩
  · rintro ⟨out, hTakes⟩
    exact ⟨_, out, hTakes, rfl⟩

/-- **With gaps as errors, lowering stops at the first gap and is the same
otherwise.** Where gaps are recorded, it gives code with no gaps, code with
gaps, or an error at some step; each time the lowering with gaps as errors ends
as said here, and never has it stated more. So the driver, which refuses code
with gaps, takes a function exactly if it is lowered with gaps as errors. -/
theorem strict_stops_at_first_gap (f : Func) (options : Options) :
    (∀ out, (f.lower options.lax).result = .ok out → out.gaps = [] →
      (f.lower options.strict).result = .ok out ∧
        (f.lower options.strict).marks = (f.lower options.lax).marks) ∧
    (∀ out g gs, (f.lower options.lax).result = .ok out → out.gaps = g :: gs →
      (f.lower options.strict).result = .error (.unimplemented g)) ∧
    (∀ e, (f.lower options.lax).result = .error e →
      ∃ n, f.StopsAt options.lax (layoutSteps f.blocks) n e ∧
        (f.gapsOf ((layoutSteps f.blocks).take n) = [] →
          (f.lower options.strict).result = .error e) ∧
        ∀ g gs, f.gapsOf ((layoutSteps f.blocks).take n) = g :: gs →
          (f.lower options.strict).result = .error (.unimplemented g)) ∧
    (f.lower options.strict).marks <+: (f.lower options.lax).marks ∧
    ∀ flags, flags.allowGaps = false →
      ((∃ text, Command.lowerText options.lax flags f = .ok text) ↔
        ∃ out, (f.lower options.strict).result = .ok out) := by
  refine ⟨fun out => strict_of_complete, fun out g gs hLax hGaps =>
    (strict_of_incomplete hLax hGaps).1, fun e hLax => ?_, f.marks_strict_prefix options,
    fun flags hFlags => (exists_lowerText_iff hFlags).trans exists_result_strict_iff.symm⟩
  -- where an error comes first, it stays the error
  obtain ⟨n, hStops, hNone, hSome⟩ := strict_of_error hLax
  exact ⟨n, hStops, fun hGaps => (hNone hGaps).1, fun g gs hGaps => (hSome g gs hGaps).1⟩

/-- A check for nil, and a block of some kind that schedules it. -/
def checked (kind : BlockKind) : Func where
  name := "checked"
  values := [{ id := ⟨0⟩, op := .nilCheck, ty := .void, block := ⟨0⟩ }]
  blocks := [{ id := ⟨0⟩, kind, values := [⟨0⟩] }]

/-- A check for nil is the only gap of a function that else returns, and comes before the failure of
one that branches on nothing. -/
theorem strict_stops_at_first_gap_checked :
    let g : Gap :=
      ⟨"LoweredNilCheck", ({ id := ⟨0⟩, op := .nilCheck, ty := .void, block := ⟨0⟩ } : Value).text⟩
    let lax : Options := Options.lax {}
    let strict : Options := Options.strict {}
    (∃ out, (Demo.max.lower lax).result = .ok out ∧ (Demo.max.lower strict).result = .ok out) ∧
      (∃ out, ((checked .ret).lower lax).result = .ok out ∧ out.gaps = [g] ∧
        ((checked .ret).lower strict).result = .error (.unimplemented g)) ∧
      (∃ e, ((checked .branch).lower lax).result = .error e ∧
        ∃ n, (checked .branch).StopsAt lax (layoutSteps (checked .branch).blocks) n e) ∧
      ∃ text, Command.lowerText lax {} Demo.max = .ok text := by
  intro g lax strict
  have hMax : (Demo.max.lower strict).result = .ok _ :=
    ((strict_stops_at_first_gap Demo.max {}).1 _ rfl rfl).1
  refine ⟨⟨_, rfl, hMax⟩, ⟨_, rfl, rfl, ?_⟩, ⟨_, rfl, ?_⟩, ?_⟩
  · exact (strict_stops_at_first_gap (checked .ret) {}).2.1 _ g [] rfl rfl
  · obtain ⟨n, hStops, -⟩ := (strict_stops_at_first_gap (checked .branch) {}).2.2.1 _ rfl
    exact ⟨n, hStops⟩
  · exact ((strict_stops_at_first_gap Demo.max {}).2.2.2.2 {} rfl).mpr ⟨_, hMax⟩

end Func

end RiscvLowering
