import RiscvLowering.Proofs.Growth
import RiscvLowering.Proofs.Tables

/-!
# Schedules — what comes before what when a function is lowered

Lowering takes the steps of a layout in order, so whatever it leaves behind can
be told from the steps alone: which values come before a step, how much code
there is when it is reached, in which block it lies, and where lowering stops
if a step fails.

Main results:

* `filterMap_stepValue?_layoutSteps` — the steps of a layout lower the scheduled
  values, in order.
* `exists_stopsAt` — steps that fail stop at the first one that fails by itself,
  and leave behind what the steps before it do.
* `orderly_of_lowers` — what steps leave behind is in order.
* `index_between_starts` — the code of a step lies between the start of its own
  block and the next one.
* `length_lt_of_lowers` — some code follows every step of a layout.
-/

namespace RiscvLowering

/-! ## Values of steps -/

namespace Func

/-- The value that a step lowers, if it lowers one. -/
def stepValue? (f : Func) : Step → Option Value
  | .value id => f.value? id
  | .start _ | .terminator _ _ => none

/-- The code that is there when steps have been taken from the beginning. -/
def codeOf (f : Func) (options : Options) (xs : List Step) : List Placed :=
  ((Session.fresh f options).run xs).1.code.toList

variable {f : Func} {options : Options} {xs ys : List Step} {p : Piece} {e : LoweringError}

/-- The steps of a block lower the values of its schedule, in order. -/
theorem filterMap_stepValue?_steps (b : Block) (next : Option BlockId) :
    (b.steps next).filterMap f.stepValue? = b.values.filterMap f.value? := by
  have hValues : (b.values.map Step.value).filterMap f.stepValue? = b.values.filterMap f.value? :=
    List.filterMap_map
  rw [Block.steps, List.cons_append, List.filterMap_cons_none rfl, List.filterMap_append, hValues,
    List.filterMap_cons_none rfl, List.filterMap_nil, List.append_nil]

/-- The steps of a layout lower the scheduled values, in order. -/
theorem filterMap_stepValue?_layoutSteps :
    (layoutSteps f.blocks).filterMap f.stepValue? = f.scheduled := by
  rw [layoutSteps_eq_flatMap, List.filterMap_flatMap, scheduled, List.filterMap_flatMap]
  simp only [filterMap_stepValue?_steps]
  -- what follows a block is nothing to its values
  rw [← List.flatMap_map Prod.fst (fun b : Block => b.values.filterMap f.value?), map_fst_followed]

/-- The code that a fresh session has after some steps is that of their piece. -/
theorem codeOf_eq (f : Func) (options : Options) (xs : List Step) :
    f.codeOf options xs = (f.runPiece options xs).1.code := by
  have hPiece := ((Session.fresh f options).run_adds xs).1.piece
  rw [Session.piece_fresh, Piece.empty_append] at hPiece
  exact congrArg Piece.code hPiece

theorem Lowers.codeOf_eq (h : f.Lowers options xs p) : f.codeOf options xs = p.code := by
  rw [Func.codeOf_eq, show f.runPiece options xs = _ from h]

/-! ## Where steps stop -/

/-- Steps stop at the `n`-th one with an error: those before it are taken, and
it fails with the error by itself. -/
structure StopsAt (f : Func) (options : Options) (xs : List Step) (n : Nat)
    (e : LoweringError) : Prop where
  before : ∀ y ∈ xs.take n, (f.alone options y).2 = .ok ()
  fails : ∃ x, xs[n]? = some x ∧ (f.alone options x).2 = .error e

/-- A step that fails leaves nothing behind. -/
theorem stepPiece_eq_of_error {x : Step} (h : f.stepPiece options x = (p, .error e)) : p = {} := by
  cases x with
  | start b => simp [stepPiece] at h
  | value id =>
    rw [stepPiece] at h
    split at h
    · exact Piece.ofDecision_eq_of_error h
    · exact (Prod.mk.inj h).1.symm
  | terminator b next => exact Piece.ofDecision_eq_of_error h

/-- **Steps that fail stop at the first one that fails by itself**, and leave
behind what the steps before it do. -/
theorem exists_stopsAt (h : f.runPiece options xs = (p, .error e)) :
    ∃ n, f.StopsAt options xs n e ∧ f.Lowers options (xs.take n) p := by
  induction xs generalizing p with
  | nil => simp [runPiece] at h
  | cons x xs ih =>
    rw [runPiece] at h
    rcases hStep : f.stepPiece options x with ⟨q, (e' | ⟨⟩)⟩
    · -- the first step fails, and nothing is left behind
      rw [hStep] at h
      obtain ⟨rfl, hError⟩ := Prod.mk.inj h
      refine ⟨0, ⟨by simp, x, rfl, ?_⟩, ?_⟩
      · rw [end_alone, hStep]
        exact hError
      · exact lowers_nil_iff.mpr (stepPiece_eq_of_error hStep)
    · rw [hStep] at h
      obtain ⟨rfl, hError⟩ := Prod.mk.inj h
      obtain ⟨n, ⟨hBefore, hFails⟩, hLowers⟩ := ih (Prod.ext rfl hError)
      have hFirst : (f.alone options x).2 = .ok () := by rw [end_alone, hStep]
      exact ⟨n + 1, ⟨List.forall_mem_cons.mpr ⟨hFirst, hBefore⟩, hFails⟩,
        lowers_cons_iff.mpr ⟨q, _, hStep, hLowers, rfl⟩⟩

/-- If steps succeed together, each of them succeeds by itself. -/
theorem exists_stepPiece_of_mem (h : f.Lowers options xs p) {x : Step} (hx : x ∈ xs) :
    ∃ q, f.stepPiece options x = (q, .ok ()) := by
  induction xs generalizing p with
  | nil => simp at hx
  | cons y ys ih =>
    -- the first step succeeded, and so did all behind it
    obtain ⟨q, r, hFirst, hRest, rfl⟩ := lowers_cons_iff.mp h
    rcases List.mem_cons.mp hx with rfl | hx
    · exact ⟨q, hFirst⟩
    · exact ih hRest hx

theorem lower_eq_of_runPiece {r : Except LoweringError Unit}
    (h : f.runPiece options (layoutSteps f.blocks) = (p, r)) :
    (f.lower options).result = r.map (fun _ => p.output f.name) ∧
      (f.lower options).marks = p.marks := by
  obtain ⟨hResult, hMarks⟩ := f.lower_eq_runPiece options
  rw [h] at hResult hMarks
  exact ⟨hResult, hMarks⟩

/-- A lowering that fails stops at some step, and what it stated is what the steps before that
state. -/
theorem exists_lowers_of_result_eq_error (h : (f.lower options).result = .error e) :
    ∃ n p, f.StopsAt options (layoutSteps f.blocks) n e ∧
      f.Lowers options ((layoutSteps f.blocks).take n) p ∧
      (f.lower options).marks = p.marks := by
  rw [(f.lower_eq_runPiece options).1] at h
  rw [(f.lower_eq_runPiece options).2]
  -- a run that ends well would be a result
  rcases hRun : f.runPiece options (layoutSteps f.blocks) with ⟨p, (e' | ⟨⟩)⟩
  · rw [hRun] at h
    obtain rfl := Except.error.inj h
    obtain ⟨n, hStops, hLowers⟩ := exists_stopsAt hRun
    exact ⟨n, p, hStops, hLowers, rfl⟩
  · simp [hRun, Except.map] at h

/-- A lowering that succeeds takes all steps of the layout. -/
theorem exists_lowers_of_result_eq_ok {out : Output} (h : (f.lower options).result = .ok out) :
    ∃ p, f.Lowers options (layoutSteps f.blocks) p ∧ out = p.output f.name ∧
      (f.lower options).marks = p.marks := by
  obtain ⟨p, hLowers, hOut⟩ := result_eq_ok_iff.mp h
  refine ⟨p, hLowers, hOut, ?_⟩
  rw [(f.lower_eq_runPiece options).2, show f.runPiece options _ = _ from hLowers]

/-! ## What steps leave behind is in order -/

/-- What a single step leaves behind is in order. -/
theorem orderly_stepPiece (f : Func) (options : Options) (x : Step) :
    (f.stepPiece options x).1.Orderly options := by
  -- every step is a call, which has its own piece in order
  cases x with
  | start b => exact f.orderly_callPiece options .unknown (.startBlock b.id)
  | value id =>
    rw [stepPiece]
    split
    · rename_i v _
      exact f.orderly_callPiece options .unknown (.value v)
    · exact Piece.orderly_empty
  | terminator b next => exact f.orderly_callPiece options .unknown (.terminator b next)

/-- **What steps leave behind is in order:** branches and marks ascend, and stay within the code. -/
theorem orderly_of_lowers (h : f.Lowers options xs p) : p.Orderly options := by
  induction xs generalizing p with
  | nil =>
    obtain rfl := lowers_nil_iff.mp h
    exact Piece.orderly_empty
  | cons x xs ih =>
    obtain ⟨q, r, hFirst, hRest, rfl⟩ := lowers_cons_iff.mp h
    -- both the step and the rest are in order, and the rest moves behind the step
    have hStep := f.orderly_stepPiece options x
    rw [hFirst] at hStep
    exact hStep.append (ih hRest)

/-! ## The block of a step -/

end Func

/-- The block that a step starts, if it starts one. -/
def Step.start? : Step → Option BlockId
  | start b => some b.id
  | value _ | terminator _ _ => none

/-- The steps of blocks, each with the index of its block, counted from `i`. -/
def placesFrom (i : Nat) (zs : List (Block × Option BlockId)) : List (Nat × Step) :=
  (zs.zipIdx i).flatMap fun z => (z.1.1.steps z.1.2).map (z.2, ·)

theorem placesFrom_cons (i : Nat) (z : Block × Option BlockId) (zs : List (Block × Option BlockId)) :
    placesFrom i (z :: zs) = (z.1.steps z.2).map (i, ·) ++ placesFrom (i + 1) zs := by
  rw [placesFrom, List.zipIdx_cons, List.flatMap_cons, placesFrom]

theorem Block.start?_of_mem_tail {b : Block} {next : Option BlockId} {x : Step}
    (h : x ∈ (b.steps next).tail) : x.start? = none := by
  rw [steps, List.cons_append, List.tail_cons, List.mem_append, List.mem_map,
    List.mem_singleton] at h
  rcases h with ⟨id, -, rfl⟩ | rfl <;> rfl

/-- However far the steps of a block are taken, they start that block and no other. -/
theorem Block.filterMap_start?_take_steps (b : Block) (next : Option BlockId) (m : Nat) :
    ((b.steps next).take (m + 1)).filterMap Step.start? = [b.id] := by
  have hTail : ((b.steps next).tail.take m).filterMap Step.start? = [] :=
    List.filterMap_eq_nil_iff.mpr fun x hx => start?_of_mem_tail (List.mem_of_mem_take hx)
  rw [show b.steps next = .start b :: (b.steps next).tail from rfl, List.take_succ_cons,
    List.filterMap_cons_some (show Step.start? (.start b) = some b.id from rfl), hTail]

/-- The steps of a layout start its blocks, in order. -/
theorem filterMap_start?_stepsUpTo (next : Option BlockId) (bs : List Block) :
    (stepsUpTo next bs).filterMap Step.start? = bs.map (·.id) := by
  induction bs with
  | nil => rfl
  | cons b bs ih =>
    have hHere := b.filterMap_start?_take_steps ((bs.head?.map (·.id)).or next) b.values.length.succ
    -- all steps of the block are taken
    rw [List.take_of_length_le (by simp [Block.steps])] at hHere
    rw [stepsUpTo, List.filterMap_append, hHere, ih, List.map_cons, List.singleton_append]

/-- As many blocks are started before a value as stand before its own, and its own. -/
theorem length_starts_before {zs : List (Block × Option BlockId)} {i n k : Nat} {id : ValueId}
    (h : (placesFrom i zs)[n]? = some (k, .value id)) :
    ((((placesFrom i zs).map Prod.snd).take n).filterMap Step.start?).length + i = k + 1 := by
  induction zs generalizing i n with
  | nil => simp [placesFrom] at h
  | cons z zs ih =>
    have hSteps : ((z.1.steps z.2).map (i, ·)).map Prod.snd = z.1.steps z.2 := by
      rw [List.map_map]
      exact List.map_id _
    rw [placesFrom_cons] at h
    rw [placesFrom_cons, List.map_append, hSteps]
    rcases Nat.lt_or_ge n (z.1.steps z.2).length with hlt | hge
    · -- the value is one of the first block, so it does not stand first
      rw [List.getElem?_append_left (by simpa using hlt), List.getElem?_map,
        Option.map_eq_some_iff] at h
      obtain ⟨x, hx, hPair⟩ := h
      obtain ⟨rfl, rfl⟩ := Prod.mk.inj hPair
      cases n with
      | zero => simp [Block.steps] at hx
      | succ m =>
        rw [List.take_append_of_le_length (by omega), Block.filterMap_start?_take_steps]
        simp only [List.length_singleton]
        omega
    · -- the first block lies all before it, with its one start
      rw [List.getElem?_append_right (by simpa using hge), List.length_map] at h
      have hRest := ih h
      obtain ⟨m, hm⟩ : ∃ m, (z.1.steps z.2).length = m + 1 := ⟨_, rfl⟩
      have hAll := z.1.filterMap_start?_take_steps z.2 m
      rw [← hm, List.take_length] at hAll
      rw [List.take_append, List.take_of_length_le hge, List.filterMap_append, hAll,
        List.length_append, List.length_singleton]
      omega

namespace Func

variable {f : Func} {options : Options} {xs : List Step} {p q : Piece}

/-- The steps of the layout, each with the index of its block. -/
def places (f : Func) : List (Nat × Step) := placesFrom 0 (followed f.blocks)

/-- Without the numbers of their blocks, the places are the steps of the layout. -/
theorem map_snd_places (f : Func) : f.places.map Prod.snd = layoutSteps f.blocks := by
  -- at any number for the first block, so that the induction goes through
  have hSnd : ∀ (zs : List (Block × Option BlockId)) (i : Nat),
      (placesFrom i zs).map Prod.snd = zs.flatMap fun z => z.1.steps z.2 := by
    intro zs
    induction zs with
    | nil => intro i; rfl
    | cons z zs ih =>
      intro i
      rw [placesFrom_cons, List.map_append, ih, List.map_map, List.flatMap_cons]
      exact congrArg (· ++ _) (List.map_id _)
  rw [layoutSteps_eq_flatMap, places, hSnd]

/-- The starts on record are those of the blocks that the steps start. -/
theorem map_starts_of_lowers (h : f.Lowers options xs p) :
    p.starts.map (·.block) = xs.filterMap Step.start? := by
  -- moving a start changes where it is, not whose it is
  have hShift : ∀ (n : Nat) (ss : List BlockStart),
      (ss.map (BlockStart.shift n)).map (·.block) = ss.map (·.block) := by
    intro n ss
    rw [List.map_map]
    rfl
  induction xs generalizing p with
  | nil =>
    obtain rfl := lowers_nil_iff.mp h
    rfl
  | cons x xs ih =>
    obtain ⟨q, r, hFirst, hRest, rfl⟩ := lowers_cons_iff.mp h
    rw [Piece.starts_append, List.map_append, hShift, ih hRest]
    -- only the start of a block leaves a start behind
    cases x with
    | start b =>
      obtain ⟨rfl, -⟩ := Prod.mk.inj hFirst
      rfl
    | value id =>
      obtain ⟨v, actions, -, -, rfl⟩ := stepPiece_value_eq_ok_iff.mp hFirst
      rw [Piece.starts_ofActions]
      rfl
    | terminator b next =>
      obtain ⟨actions, -, rfl⟩ := ofDecision_eq_ok_iff.mp hFirst
      rw [Piece.starts_ofActions]
      rfl

/-- **The code of a value lies between the start of its own block and the next one.** -/
theorem index_between_starts {n k : Nat} {id : ValueId}
    (hPlace : f.places[n]? = some (k, .value id))
    (h : f.Lowers options ((layoutSteps f.blocks).take n) p) (q : Piece) :
    (∃ s, (p ++ q).starts[k]? = some s ∧ s.index ≤ p.code.length) ∧
      ∀ s, (p ++ q).starts[k + 1]? = some s → p.code.length ≤ s.index := by
  have hLength : p.starts.length = k + 1 := by
    have hCount := length_starts_before hPlace
    rw [show (placesFrom 0 (followed f.blocks)).map Prod.snd = _ from f.map_snd_places,
      ← map_starts_of_lowers h, List.length_map] at hCount
    omega
  rw [Piece.starts_append]
  constructor
  · -- its own block was the last to start
    have hk : k < p.starts.length := by omega
    refine ⟨p.starts[k], ?_, (orderly_of_lowers h).starts.before _ (List.getElem_mem hk)⟩
    rw [List.getElem?_append_left hk, List.getElem?_eq_getElem hk]
  · -- the next one has not started yet
    intro s hs
    rw [List.getElem?_append_right (by omega), List.getElem?_map] at hs
    obtain ⟨s', -, rfl⟩ := Option.map_eq_some_iff.mp hs
    exact Nat.le_add_right _ _

/-! ## Code behind every step -/

/-- The last step of a layout is a terminator that nothing follows. -/
theorem exists_layoutSteps_eq_concat {bs : List Block} (h : layoutSteps bs ≠ []) :
    ∃ xs b, layoutSteps bs = xs ++ [.terminator b none] := by
  induction bs with
  | nil => exact absurd rfl h
  | cons b bs ih =>
    rw [layoutSteps]
    -- this block is the last, or the last is among the others
    cases bs with
    | nil => exact ⟨_, b, List.append_nil _⟩
    | cons b' bs =>
      obtain ⟨xs, last, hLast⟩ := ih (by simp [layoutSteps, Block.steps])
      exact ⟨_, last, by rw [hLast, ← List.append_assoc]⟩

/-- **Some code follows every step of a layout**, since its last block is left by an instruction. -/
theorem length_lt_of_lowers {n : Nat} (h : f.Lowers options (layoutSteps f.blocks) p)
    (hn : n < (layoutSteps f.blocks).length)
    (hBefore : f.Lowers options ((layoutSteps f.blocks).take n) q) :
    q.code.length < p.code.length := by
  obtain ⟨xs, b, hLast⟩ :=
    exists_layoutSteps_eq_concat (List.ne_nil_of_length_pos (Nat.zero_lt_of_lt hn))
  rw [hLast] at h hBefore hn
  rw [List.length_append, List.length_singleton] at hn
  rw [List.take_append_of_le_length (by omega)] at hBefore
  -- the steps before are some of those before the last
  obtain ⟨r, t, hRest, hExit, rfl⟩ := lowers_append_iff.mp h
  rw [← List.take_append_drop n xs] at hRest
  obtain ⟨q', r', hq', -, rfl⟩ := lowers_append_iff.mp hRest
  obtain rfl : q' = q := (Prod.mk.inj (hq'.symm.trans hBefore)).1
  obtain ⟨actions, hActions, rfl⟩ := ofDecision_eq_ok_iff.mp (lowers_singleton_iff.mp hExit)
  have hEmits := (lowerTerminator_eq_ok_iff.mp hActions).emits_of_last
  rw [← Piece.insts_ofActions b.line, List.length_map] at hEmits
  rw [Piece.code_append, Piece.code_append, List.length_append, List.length_append]
  omega

end Func

end RiscvLowering
