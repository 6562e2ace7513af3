import Mathlib.Data.List.Forall2
import RiscvLowering.Proofs.Decisions
import RiscvLowering.Proofs.Pieces

/-!
# Layout — the code of a lowered function, block by block

The code of a lowered function is made of one piece for each block, in layout
order, and the piece of a block is made of the code of its values and the code
that leaves it. A block begins at the sum of the lengths of the pieces before
its own.

Main results:

* `result_eq_ok_iff_pieces` — a lowered function is the join of the pieces of
  its blocks.
* `exists_sits` — every block of a lowered function sits somewhere in its code:
  `Sits` says where, and what stands there.
* `sits_of_mem_branches` — every pending branch leaves some block.
-/

namespace RiscvLowering

/-! ## Joined pieces -/

namespace Piece

/-- Pieces one after another. -/
def join : List Piece → Piece
  | [] => {}
  | p :: ps => p ++ join ps

/-- Where the `k`-th of some joined pieces begins. -/
def offset (ps : List Piece) (k : Nat) : Nat := (join (ps.take k)).code.length

variable {ps : List Piece} {p : Piece} {k : Nat}

@[simp]
theorem offset_zero : offset ps 0 = 0 := rfl

@[simp]
theorem offset_cons_succ : offset (p :: ps) (k + 1) = p.code.length + offset ps k := by
  simp [offset, join]

/-- The piece behind one begins where that one ends. -/
theorem offset_succ (h : ps[k]? = some p) : offset ps (k + 1) = offset ps k + p.code.length := by
  induction ps generalizing k with
  | nil => simp at h
  | cons q ps ih =>
    -- the place is the first, or one behind it
    cases k with
    | zero =>
      obtain rfl := Option.some.inj h
      simp
    | succ k =>
      rw [offset_cons_succ, offset_cons_succ, ih (by simpa using h)]
      omega

/-- Pieces further behind do not begin further in front. -/
theorem offset_le_offset {k' : Nat} (h : k ≤ k') : offset ps k ≤ offset ps k' := by
  induction ps generalizing k k' with
  | nil => simp [offset]
  | cons p ps ih =>
    cases k with
    | zero => simp
    | succ k =>
      -- the first piece lies before both places
      cases k' with
      | zero => omega
      | succ k' =>
        have := ih (Nat.le_of_succ_le_succ h)
        rw [offset_cons_succ, offset_cons_succ]
        omega

theorem offset_length : offset ps ps.length = (join ps).code.length := by
  rw [offset, List.take_length]

/-- What stands in a piece stands in the joined code, behind where the piece begins. -/
theorem getElem?_code_join (h : ps[k]? = some p) {j : Nat} (hj : j < p.code.length) :
    (join ps).code[offset ps k + j]? = p.code[j]? := by
  induction ps generalizing k with
  | nil => simp at h
  | cons q ps ih =>
    cases k with
    | zero =>
      obtain rfl := Option.some.inj h
      simp only [join, code_append, offset_zero, Nat.zero_add]
      exact List.getElem?_append_left hj
    | succ k =>
      -- the first piece is all behind the place
      rw [offset_cons_succ, Nat.add_assoc, join, code_append,
        List.getElem?_append_right (by omega), Nat.add_sub_cancel_left]
      exact ih (by simpa using h)

/-- The branches of joined pieces are those of the pieces, moved to where the
pieces begin. -/
theorem mem_branches_join {q : PendingBranch} :
    q ∈ (join ps).branches ↔
      ∃ (k : Nat) (p : Piece), ps[k]? = some p ∧
        ∃ r ∈ p.branches, q = r.shift (offset ps k) := by
  induction ps generalizing q with
  | nil => simp [join]
  | cons p ps ih =>
    rw [join, branches_append, List.mem_append, List.mem_map]
    constructor
    · -- a branch of the first piece is not moved, one of the others is moved
      -- by the first piece once more
      rintro (hq | ⟨r, hr, rfl⟩)
      · exact ⟨0, p, rfl, q, hq, by simp [PendingBranch.shift]⟩
      · obtain ⟨k, p', hk, r', hr', rfl⟩ := ih.mp hr
        exact ⟨k + 1, p', hk, r', hr', by simp [PendingBranch.shift, Nat.add_assoc]⟩
    · rintro ⟨k, p', hk, r, hr, rfl⟩
      cases k with
      | zero =>
        obtain rfl := Option.some.inj hk
        exact Or.inl (by simpa [PendingBranch.shift] using hr)
      | succ k =>
        refine Or.inr ⟨r.shift (offset ps k), ih.mpr ⟨k, p', hk, r, hr, rfl⟩, ?_⟩
        simp [PendingBranch.shift, Nat.add_assoc]

/-- Joined pieces with one start each, at their beginning, start where the pieces begin. -/
theorem getElem?_starts_join {ids : List BlockId}
    (h : List.Forall₂ (fun id (p : Piece) => p.starts = [⟨id, 0⟩]) ids ps) :
    (join ps).starts[k]? = ids[k]?.map fun id => ⟨id, offset ps k⟩ := by
  -- by the pieces: each gives the table one start, its own beginning
  induction h generalizing k with
  | nil => simp [join]
  | cons hp _ ih =>
    rw [join, starts_append, hp]
    cases k with
    | zero => simp
    | succ k =>
      simp [ih, BlockStart.shift, Function.comp_def]

end Piece

/-! ## Pieces of values and of ways out -/

namespace Piece

/-- The code of actions is the instructions they emit. -/
theorem insts_ofActions (line : Line) (actions : List Action) :
    (ofActions line actions).code.map (·.inst) = actions.filterMap Action.inst? := by
  induction actions with
  | nil => rfl
  | cons a as ih =>
    rw [ofActions, code_append, List.map_append, ih, List.filterMap_cons]
    -- each action emits one instruction or none
    cases a <;> rfl

/-- Actions that are straight leave no branch behind. -/
theorem branches_ofActions_of_straight {line : Line} {actions : List Action}
    (h : ∀ a ∈ actions, a.IsStraight) : (ofActions line actions).branches = [] := by
  induction actions with
  | nil => rfl
  | cons a as ih =>
    obtain ⟨hFirst, hRest⟩ := List.forall_mem_cons.mp h
    cases a with
    -- an action that goes to a block is not straight
    | branch inst target => exact hFirst.elim
    | _ => simp [ofActions, ofAction, ih hRest]

/-! What leaves a block, by the block that follows: its instructions and the
branches among them. -/

/-- Going on takes a jump, unless the block follows. -/
theorem insts_gotoActions (succ : BlockId) (next : Option BlockId) :
    (Func.gotoActions succ next).filterMap Action.inst? =
      if next = some succ then [] else [.jump] := by
  rw [Func.gotoActions]
  split <;> rfl

theorem branches_gotoActions (line : Line) (succ : BlockId) (next : Option BlockId) :
    (ofActions line (Func.gotoActions succ next)).branches =
      if next = some succ then [] else [⟨0, succ⟩] := by
  rw [Func.gotoActions]
  split <;> rfl

/-- A branch takes one instruction if one of its successors follows, inverted if that is the first,
and else two. -/
theorem insts_branchActions (cond : Cond) (rs1 rs2 : Reg) (yes no : BlockId)
    (next : Option BlockId) :
    (branchActions cond rs1 rs2 yes no next).filterMap Action.inst? =
      if next = some yes then [.branch cond.invert rs1 rs2]
      else if next = some no then [.branch cond rs1 rs2]
      else [.branch cond rs1 rs2, .jump] := by
  -- by which of the successors follows, if one does
  rw [branchActions]
  split
  · rfl
  · split <;> rfl

/-- The branch goes to the successor that does not follow, or both instructions go to one each. -/
theorem branches_branchActions (line : Line) (cond : Cond) (rs1 rs2 : Reg) (yes no : BlockId)
    (next : Option BlockId) :
    (ofActions line (branchActions cond rs1 rs2 yes no next)).branches =
      if next = some yes then [⟨0, no⟩]
      else if next = some no then [⟨0, yes⟩]
      else [⟨0, yes⟩, ⟨1, no⟩] := by
  rw [branchActions]
  split
  · rfl
  · split <;> rfl

/-- A pending branch is an instruction of its piece. -/
theorem index_lt_of_mem_branches_ofActions {line : Line} {actions : List Action}
    {r : PendingBranch} (h : r ∈ (ofActions line actions).branches) :
    r.index < (ofActions line actions).code.length := by
  induction actions generalizing r with
  | nil => simp [ofActions] at h
  | cons a as ih =>
    rw [ofActions, branches_append, List.mem_append, List.mem_map] at h
    rw [ofActions, code_append, List.length_append]
    rcases h with h | ⟨r', hr', rfl⟩
    · -- a branch of the first action stands at its only instruction
      cases a with
      | branch inst target =>
        obtain rfl := List.mem_singleton.mp h
        simp only [ofAction, List.length_singleton]
        omega
      | _ => simp [ofAction] at h
    · have := ih hr'
      simp only [PendingBranch.shift]
      omega

end Piece

/-- Actions that are straight emit no instruction that transfers control. -/
theorem isStraight_of_mem_insts {actions : List Action} (h : ∀ a ∈ actions, a.IsStraight)
    {i : Inst} (hi : i ∈ actions.filterMap Action.inst?) : i.isStraight = true := by
  obtain ⟨a, ha, hInst⟩ := List.mem_filterMap.mp hi
  have hStraight := h a ha
  cases a with
  | emit inst =>
    obtain rfl := Option.some.inj hInst
    exact hStraight
  | branch inst target => exact hStraight.elim
  | _ => simp [Action.inst?] at hInst

namespace Func

variable {f : Func} {options : Options}

/-- The instructions that lowering a value by itself gives; none where it fails. -/
def valueCode (f : Func) (options : Options) (id : ValueId) : List Inst :=
  match f.resolve id >>= f.lowerValue options with
  | .ok actions => actions.filterMap Action.inst?
  | .error _ => []

/-- The instructions of the values that a block schedules. -/
def bodyCode (f : Func) (options : Options) (b : Block) : List Inst :=
  b.values.flatMap (f.valueCode options)

/-- The piece of some values is their code, and no more of the layout. -/
theorem lowers_values {ids : List ValueId} {p : Piece}
    (h : f.Lowers options (ids.map .value) p) :
    p.branches = [] ∧ p.starts = [] ∧
      p.code.map (·.inst) = ids.flatMap (f.valueCode options) ∧
      ∀ i ∈ ids.flatMap (f.valueCode options), i.isStraight = true := by
  -- by the schedule: the piece of each value is straight, and so has neither
  -- branches nor starts
  induction ids generalizing p with
  | nil =>
    obtain rfl := lowers_nil_iff.mp h
    simp
  | cons id ids ih =>
    obtain ⟨q, r, hFirst, hRest, rfl⟩ := lowers_cons_iff.mp h
    obtain ⟨v, actions, hv, hLower, rfl⟩ := stepPiece_value_eq_ok_iff.mp hFirst
    obtain ⟨hBranches, hStarts, hInsts, hStraight⟩ := ih hRest
    have hActions := lowerValue_straight hLower
    have hCode : f.valueCode options id = actions.filterMap Action.inst? := by
      have hBoth : f.resolve id >>= f.lowerValue options = .ok actions :=
        bind_eq_ok_iff.mpr ⟨v, resolve_eq_ok_iff.mpr hv, hLower⟩
      rw [valueCode, hBoth]
    refine ⟨?_, ?_, ?_, ?_⟩
    · simp [Piece.branches_ofActions_of_straight hActions, hBranches]
    · simp [Piece.starts_ofActions, hStarts]
    · simp [Piece.insts_ofActions, hInsts, hCode]
    · intro i hi
      rw [List.flatMap_cons, List.mem_append, hCode] at hi
      rcases hi with hi | hi
      · exact isStraight_of_mem_insts hActions hi
      · exact hStraight i hi

/-- What the piece of a block holds, when `actions` leave the block. -/
structure BlockPiece (f : Func) (options : Options) (b : Block) (next : Option BlockId)
    (actions : List Action) (p : Piece) : Prop where
  starts : p.starts = [⟨b.id, 0⟩]
  straight : ∀ i ∈ f.bodyCode options b, i.isStraight = true
  leaves : f.Leaves b next actions
  insts : p.code.map (·.inst) = f.bodyCode options b ++ actions.filterMap Action.inst?
  branches : p.branches = (Piece.ofActions b.line actions).branches.map
    (.shift (f.bodyCode options b).length)

/-- A block that is lowered leaves its start, the code of its values and its way out behind. -/
theorem exists_blockPiece {b : Block} {next : Option BlockId} {p : Piece}
    (h : f.Lowers options (b.steps next) p) :
    ∃ actions, f.BlockPiece options b next actions p := by
  rw [Block.steps, List.cons_append] at h
  -- the steps are the start, the schedule and the way out
  obtain ⟨q, r, hStart, hRest, rfl⟩ := lowers_cons_iff.mp h
  obtain ⟨body, exit, hBody, hExit, rfl⟩ := lowers_append_iff.mp hRest
  obtain ⟨actions, hActions, rfl⟩ := ofDecision_eq_ok_iff.mp (lowers_singleton_iff.mp hExit)
  obtain ⟨rfl, -⟩ := Prod.mk.inj hStart
  obtain ⟨hBranches, hStarts, hInsts, hStraight⟩ := lowers_values hBody
  -- the way out is moved behind the schedule
  have hLength : body.code.length = (f.bodyCode options b).length := by
    rw [bodyCode, ← hInsts, List.length_map]
  refine ⟨actions, ⟨?_, hStraight, lowerTerminator_eq_ok_iff.mp hActions, ?_, ?_⟩⟩
  · simp [hStarts, Piece.starts_ofActions]
  · simp [hInsts, Piece.insts_ofActions, bodyCode]
  · simp [hBranches, hLength, PendingBranch.shift, Function.comp_def]

namespace BlockPiece

variable {b : Block} {next : Option BlockId} {actions : List Action} {p : Piece}

/-- The code of a block is as long as its values and its way out together. -/
theorem length_code (h : f.BlockPiece options b next actions p) :
    p.code.length =
      (f.bodyCode options b).length + (actions.filterMap Action.inst?).length := by
  have := congrArg List.length h.insts
  simpa using this

theorem index_lt (h : f.BlockPiece options b next actions p) {r : PendingBranch}
    (hr : r ∈ p.branches) : r.index < p.code.length := by
  rw [h.branches] at hr
  obtain ⟨r', hr', rfl⟩ := List.mem_map.mp hr
  have hLt := Piece.index_lt_of_mem_branches_ofActions hr'
  have hInsts := congrArg List.length (Piece.insts_ofActions b.line actions)
  rw [List.length_map] at hInsts
  rw [h.length_code]
  simp only [PendingBranch.shift]
  omega

end BlockPiece

/-! ## Blocks of the layout -/

end Func

/-- The blocks of a layout, each with the one that follows it. -/
def followed : List Block → List (Block × Option BlockId)
  | [] => []
  | b :: bs => (b, bs.head?.map (·.id)) :: followed bs

/-- Each block is followed by the one at the next place, if there is one. -/
theorem getElem?_followed (bs : List Block) (k : Nat) :
    (followed bs)[k]? = bs[k]?.map fun b => (b, bs[k + 1]?.map (·.id)) := by
  induction bs generalizing k with
  | nil => simp [followed]
  | cons b bs ih =>
    -- the follower of a block is the head of the rest
    cases k with
    | zero => simp [followed, List.head?_eq_getElem?]
    | succ k => simp [followed, ih]

theorem map_fst_followed (bs : List Block) : (followed bs).map (·.1) = bs := by
  induction bs with
  | nil => rfl
  | cons b bs ih => rw [followed, List.map_cons, ih]

theorem map_followed (bs : List Block) : (followed bs).map (·.1.id) = bs.map (·.id) := by
  rw [← Function.comp_def Block.id Prod.fst, ← List.map_map, map_fst_followed]

/-- The steps of a layout are those of its blocks, of which each knows what follows. -/
theorem layoutSteps_eq_flatMap (bs : List Block) :
    layoutSteps bs = (followed bs).flatMap fun x => x.1.steps x.2 := by
  induction bs with
  | nil => rfl
  | cons b bs ih => rw [layoutSteps, followed, List.flatMap_cons, ih]

/-- The steps of blocks that `next` follows in the layout. -/
def stepsUpTo (next : Option BlockId) : List Block → List Step
  | [] => []
  | b :: bs => b.steps ((bs.head?.map (·.id)).or next) ++ stepsUpTo next bs

/-- Of the blocks that follow, only the id of the first matters to those before. -/
theorem layoutSteps_append (bs cs : List Block) :
    layoutSteps (bs ++ cs) = stepsUpTo (cs.head?.map (·.id)) bs ++ layoutSteps cs := by
  induction bs with
  | nil => rfl
  | cons b bs ih =>
    rw [List.cons_append, layoutSteps, stepsUpTo, ih, List.head?_append, Option.map_or,
      List.append_assoc]

/-- Each step of a layout starts a block, lowers a value of its schedule, or leaves it. -/
theorem exists_block_of_mem_stepsUpTo {next : Option BlockId} {bs : List Block} {x : Step}
    (h : x ∈ stepsUpTo next bs) :
    ∃ b ∈ bs, x = .start b ∨ (∃ id ∈ b.values, x = .value id) ∨
      ∃ next, x = .terminator b next := by
  induction bs with
  | nil => exact absurd h List.not_mem_nil
  | cons b bs ih =>
    rw [stepsUpTo, List.mem_append] at h
    rcases h with hHere | hLater
    · refine ⟨b, List.mem_cons_self, ?_⟩
      simp only [Block.steps, List.cons_append, List.mem_cons, List.mem_append, List.mem_map,
        List.not_mem_nil, or_false] at hHere
      -- its start, an entry of its schedule, or its terminator
      rcases hHere with rfl | ⟨id, hId, rfl⟩ | rfl
      · exact .inl rfl
      · exact .inr (.inl ⟨id, hId, rfl⟩)
      · exact .inr (.inr ⟨_, rfl⟩)
    · obtain ⟨c, hc, hx⟩ := ih hLater
      exact ⟨c, List.mem_cons_of_mem b hc, hx⟩

/-- A step of a layout belongs to one of its blocks. -/
theorem exists_block_of_mem_layoutSteps {bs : List Block} {x : Step} (h : x ∈ layoutSteps bs) :
    ∃ b ∈ bs, x = .start b ∨ (∃ id ∈ b.values, x = .value id) ∨
      ∃ next, x = .terminator b next := by
  have hAll := layoutSteps_append bs []
  rw [List.append_nil, show layoutSteps [] = [] from rfl, List.append_nil] at hAll
  rw [hAll] at h
  exact exists_block_of_mem_stepsUpTo h

namespace Func

variable {f : Func} {options : Options}

/-- Steps in groups leave a piece for each group. -/
theorem lowers_flatMap_iff {α : Type} {xs : List α} {steps : α → List Step} {p : Piece} :
    f.Lowers options (xs.flatMap steps) p ↔
      ∃ ps, List.Forall₂ (fun x q => f.Lowers options (steps x) q) xs ps ∧ p = .join ps := by
  induction xs generalizing p with
  | nil => simp [Piece.join]
  | cons x xs ih =>
    rw [List.flatMap_cons, lowers_append_iff]
    -- the first group leaves a piece, and the other groups leave theirs
    constructor
    · rintro ⟨q, r, hFirst, hRest, rfl⟩
      obtain ⟨ps, hPieces, rfl⟩ := ih.mp hRest
      exact ⟨q :: ps, .cons hFirst hPieces, rfl⟩
    · rintro ⟨ps, hPieces, rfl⟩
      cases hPieces with
      | cons hFirst hRest => exact ⟨_, _, hFirst, ih.mpr ⟨_, hRest, rfl⟩, rfl⟩

/-- **A lowered function is the join of the pieces of its blocks.** -/
theorem result_eq_ok_iff_pieces {out : Output} :
    (f.lower options).result = .ok out ↔
      ∃ ps, List.Forall₂ (fun x q => f.Lowers options (x.1.steps x.2) q) (followed f.blocks) ps ∧
        out = (Piece.join ps).output f.name := by
  -- the layout is one run; its piece is cut where its blocks are
  rw [result_eq_ok_iff, layoutSteps_eq_flatMap]
  simp only [lowers_flatMap_iff]
  constructor
  · rintro ⟨p, ⟨ps, hPieces, rfl⟩, hOut⟩
    exact ⟨ps, hPieces, hOut⟩
  · rintro ⟨ps, hPieces, hOut⟩
    exact ⟨_, ⟨ps, hPieces, rfl⟩, hOut⟩

/-- The `k`-th block `b` of a lowered function begins at `start`: there stands
the code of its schedule, and behind it what the actions emit that leave it. -/
structure Sits (f : Func) (options : Options) (out : Output) (k : Nat) (b : Block)
    (start : Nat) (actions : List Action) : Prop where
  block : f.blocks[k]? = some b
  begins : out.starts[k]? = some ⟨b.id, start⟩
  straight : ∀ i ∈ f.bodyCode options b, i.isStraight = true
  leaves : f.Leaves b (f.blocks[k + 1]?.map (·.id)) actions
  code : ∀ j < (f.bodyCode options b).length + (actions.filterMap Action.inst?).length,
    out.code[start + j]?.map (·.inst) =
      (f.bodyCode options b ++ actions.filterMap Action.inst?)[j]?
  /-- The pending branches in the code of the block. -/
  branches : ∀ q, (q ∈ out.branches ∧ start ≤ q.index ∧
      q.index < start + ((f.bodyCode options b).length +
        (actions.filterMap Action.inst?).length)) ↔
    ∃ r ∈ (Piece.ofActions b.line actions).branches,
      q = r.shift (start + (f.bodyCode options b).length)
  /-- The next block begins where the code ends. -/
  ends : (out.starts[k + 1]?.map (·.index)).getD out.code.length =
    start + ((f.bodyCode options b).length + (actions.filterMap Action.inst?).length)

/-- The pieces of the blocks of a lowered function, by their places. -/
structure Pieces (f : Func) (options : Options) (out : Output) (ps : List Piece) : Prop where
  output : out = (Piece.join ps).output f.name
  starts : List.Forall₂ (fun id (p : Piece) => p.starts = [⟨id, 0⟩]) (f.blocks.map (·.id)) ps
  piece : ∀ (k : Nat) (p : Piece), ps[k]? = some p → ∃ b actions, f.blocks[k]? = some b ∧
    f.BlockPiece options b (f.blocks[k + 1]?.map (·.id)) actions p

/-- A lowered function is made of pieces, one for each of its blocks. -/
theorem exists_pieces {out : Output} (h : (f.lower options).result = .ok out) :
    ∃ ps, f.Pieces options out ps := by
  obtain ⟨ps, hPieces, hOut⟩ := result_eq_ok_iff_pieces.mp h
  refine ⟨ps, hOut, ?_, ?_⟩
  · rw [← map_followed, List.forall₂_map_left_iff]
    refine hPieces.imp fun x p hp => ?_
    obtain ⟨actions, hPiece⟩ := exists_blockPiece hp
    exact hPiece.starts
  · intro k p hp
    obtain ⟨hk, rfl⟩ := List.getElem?_eq_some_iff.mp hp
    have hkLayout : k < (followed f.blocks).length := by rwa [hPieces.length_eq]
    have hLowers := hPieces.get hkLayout hk
    -- the `k`-th pair of the layout is the `k`-th block, with its follower
    have hHere := getElem?_followed f.blocks k
    rw [List.getElem?_eq_getElem hkLayout] at hHere
    obtain ⟨b, hb, hPair⟩ := Option.map_eq_some_iff.mp hHere.symm
    rw [List.get_eq_getElem, List.get_eq_getElem, ← hPair] at hLowers
    obtain ⟨actions, hPiece⟩ := exists_blockPiece hLowers
    exact ⟨b, actions, hb, hPiece⟩

namespace Pieces

variable {out : Output} {ps : List Piece}

theorem length (h : f.Pieces options out ps) : ps.length = f.blocks.length := by
  rw [← h.starts.length_eq, List.length_map]

/-- Blocks start where their pieces begin. -/
theorem getElem?_starts (h : f.Pieces options out ps) (k : Nat) :
    out.starts[k]? = f.blocks[k]?.map fun b => ⟨b.id, Piece.offset ps k⟩ := by
  rw [h.output, Piece.output, Piece.getElem?_starts_join h.starts, List.getElem?_map,
    Option.map_map]
  rfl

/-- A block ends where the next one starts, and the last one with the code. -/
theorem end_eq (h : f.Pieces options out ps) {k : Nat} (hk : k < f.blocks.length) :
    (out.starts[k + 1]?.map (·.index)).getD out.code.length = Piece.offset ps (k + 1) := by
  rw [h.getElem?_starts]
  cases hNext : f.blocks[k + 1]? with
  | some b => simp
  | none =>
    -- the last block ends where all the joined code does
    have hLast := List.getElem?_eq_none_iff.mp hNext
    rw [show k + 1 = ps.length by rw [h.length]; omega, Piece.offset_length, h.output]
    rfl

/-- A branch in the code of a block is one of the piece of the block. -/
theorem mem_branches_iff (h : f.Pieces options out ps) {k : Nat} {p : Piece}
    (hp : ps[k]? = some p) {q : PendingBranch} :
    (q ∈ out.branches ∧ Piece.offset ps k ≤ q.index ∧
        q.index < Piece.offset ps k + p.code.length) ↔
      ∃ r ∈ p.branches, q = r.shift (Piece.offset ps k) := by
  -- every branch lies in the code of its own piece
  have hBound : ∀ (k' : Nat) (p' : Piece), ps[k']? = some p' →
      ∀ r ∈ p'.branches, r.index < p'.code.length := by
    intro k' p' hp' r hr
    obtain ⟨b, actions, -, hPiece⟩ := h.piece k' p' hp'
    exact hPiece.index_lt hr
  rw [h.output]
  show q ∈ (Piece.join ps).branches ∧ _ ↔ _
  rw [Piece.mem_branches_join]
  constructor
  · rintro ⟨⟨k', p', hp', r, hr, rfl⟩, hLo, hHi⟩
    have hr' := hBound k' p' hp' r hr
    have hEnd := Piece.offset_succ hp
    have hEnd' := Piece.offset_succ hp'
    simp only [PendingBranch.shift] at hLo hHi
    -- the code of two blocks does not overlap
    rcases Nat.lt_trichotomy k' k with hlt | rfl | hgt
    · have := @Piece.offset_le_offset ps (k' + 1) k hlt
      omega
    · obtain rfl := Option.some.inj (hp.symm.trans hp')
      exact ⟨r, hr, rfl⟩
    · have := @Piece.offset_le_offset ps (k + 1) k' hgt
      omega
  · rintro ⟨r, hr, rfl⟩
    have hr' := hBound k p hp r hr
    refine ⟨⟨k, p, hp, r, hr, rfl⟩, ?_, ?_⟩ <;> simp only [PendingBranch.shift] <;> omega

/-- At the place of a piece its block sits, with the branches of its way out moved there. -/
theorem sits (h : f.Pieces options out ps) {k : Nat} {p : Piece} (hp : ps[k]? = some p) :
    ∃ b actions, f.Sits options out k b (Piece.offset ps k) actions ∧
      p.code.length = (f.bodyCode options b).length + (actions.filterMap Action.inst?).length := by
  obtain ⟨b, actions, hb, hPiece⟩ := h.piece k p hp
  have hk : k < f.blocks.length := (List.getElem?_eq_some_iff.mp hb).1
  refine ⟨b, actions, ⟨hb, ?_, hPiece.straight, hPiece.leaves, ?_, ?_, ?_⟩, hPiece.length_code⟩
  · rw [h.getElem?_starts, hb, Option.map_some]
  · -- the code of the joined pieces is, at the place, that of the piece
    intro j hj
    rw [← hPiece.length_code] at hj
    rw [← hPiece.insts, List.getElem?_map, ← Piece.getElem?_code_join hp hj, h.output]
    rfl
  · -- its branches are those of the way out, counted from the start of the block
    intro q
    rw [← hPiece.length_code, h.mem_branches_iff hp, hPiece.branches]
    simp only [List.mem_map]
    constructor
    · rintro ⟨r, ⟨r', hr', rfl⟩, rfl⟩
      exact ⟨r', hr', by simp [PendingBranch.shift, Nat.add_assoc]⟩
    · rintro ⟨r', hr', rfl⟩
      exact ⟨_, ⟨r', hr', rfl⟩, by simp [PendingBranch.shift, Nat.add_assoc]⟩
  · rw [h.end_eq hk, Piece.offset_succ hp, hPiece.length_code]

end Pieces

variable {out : Output}

/-- The starts of a lowered function are those of its blocks, in layout order. -/
theorem map_starts (h : (f.lower options).result = .ok out) :
    out.starts.map (·.block) = f.blocks.map (·.id) := by
  obtain ⟨ps, hPieces⟩ := exists_pieces h
  apply List.ext_getElem?
  intro k
  rw [List.getElem?_map, List.getElem?_map, hPieces.getElem?_starts, Option.map_map]
  rfl

/-- **Every block of a lowered function sits somewhere in its code.** -/
theorem exists_sits (h : (f.lower options).result = .ok out) {k : Nat} {b : Block}
    (hb : f.blocks[k]? = some b) :
    ∃ start actions, f.Sits options out k b start actions := by
  obtain ⟨ps, hPieces⟩ := exists_pieces h
  have hk : k < ps.length := by
    rw [hPieces.length]
    exact (List.getElem?_eq_some_iff.mp hb).1
  obtain ⟨b', actions, hSits, -⟩ := hPieces.sits (List.getElem?_eq_getElem hk)
  obtain rfl := Option.some.inj (hb.symm.trans hSits.block)
  exact ⟨_, actions, hSits⟩

/-- **Every pending branch leaves some block.** -/
theorem sits_of_mem_branches (h : (f.lower options).result = .ok out) {q : PendingBranch}
    (hq : q ∈ out.branches) :
    ∃ k b start actions, f.Sits options out k b start actions ∧
      ∃ r ∈ (Piece.ofActions b.line actions).branches,
        q = r.shift (start + (f.bodyCode options b).length) := by
  obtain ⟨ps, hPieces⟩ := exists_pieces h
  have hJoin := hq
  rw [hPieces.output] at hJoin
  obtain ⟨k, p, hp, r, hr, rfl⟩ := Piece.mem_branches_join.mp hJoin
  obtain ⟨b, actions, hSits, hLength⟩ := hPieces.sits hp
  -- the branch lies in the piece of the block, hence in its code
  refine ⟨k, b, _, actions, hSits, (hSits.branches _).mp ?_⟩
  have hHere := (hPieces.mem_branches_iff hp).mpr ⟨r, hr, rfl⟩
  rwa [hLength] at hHere

end Func

end RiscvLowering
