import RiscvLowering.Proofs.Machine
import RiscvLowering.Proofs.Tables

/-!
# Control flow — lowered code runs as its blocks do

A run of the lowered code of a sound function follows the run over its blocks:
a block is entered at its start and nowhere else, its code runs in order, and
control leaves it for the block, or the stop, that the block itself says.

The two runs do not keep the same pace. To fall through into the next block
costs the machine nothing, and a branch with neither successor next may cost it
a jump besides. So the runs agree at times that `pace` adds up.

Main results:

* `exists_pace` — a step over blocks is some steps of the machine; where it is
  none, fewer blocks are left to fall through to.
* `agrees_of_pace` — steps that keep two runs related keep them related for good.
* `run_agrees` — the run of the code agrees with the run over blocks, throughout.
-/

namespace RiscvLowering

/-! ## Where a block is entered -/

/-- The run of the code stands where the run over blocks does: as far behind the
start of the block as it has come in the code of the block. -/
inductive Matches (f : Func) (options : Options) (out : Output) {σ : Type} :
    BlockPoint σ → CodePoint σ → Prop
  | inside {b : Block} {start : Nat} {done todo : List Inst} {s : σ} :
      b ∈ f.blocks → (⟨b.id, start⟩ : BlockStart) ∈ out.starts →
      f.bodyCode options b = done ++ todo →
      Matches f options out (.inside b todo s) (.running (start + done.length) s)
  | stopped {inst : Inst} {s : σ} : Matches f options out (.stopped inst s) (.stopped inst s)

namespace Func

variable {f : Func} {options : Options} {out : Output}

theorem Sound.block?_eq (hSound : f.Sound) {b : Block} (hb : b ∈ f.blocks) :
    f.block? b.id = some b :=
  find?_key hSound.blockIds hb

/-- A pending branch goes to the start of its target. -/
theorem destination_eq (hSound : f.Sound) (hLower : (f.lower options).result = .ok out)
    {q : PendingBranch} (hq : q ∈ out.branches) {start : Nat}
    (hStart : (⟨q.target, start⟩ : BlockStart) ∈ out.starts) :
    out.destination q.index = some start := by
  -- neither the branches nor the starts repeat a key
  have hBranch := find?_key (nodup_branches hLower) hq
  have hBlock := find?_key (nodup_starts hSound hLower) hStart
  simp only [Output.destination, hBranch, hBlock, Option.bind_eq_bind, Option.bind_some,
    Option.pure_def]

/-- Each successor of a block starts somewhere in the code. -/
theorem exists_start (hSound : f.Sound) (hLower : (f.lower options).result = .ok out)
    {b : Block} (hb : b ∈ f.blocks) {succ : BlockId} (hSucc : succ ∈ b.succs) :
    ∃ start, (⟨succ, start⟩ : BlockStart) ∈ out.starts := by
  have hListed : succ ∈ out.starts.map (·.block) := by
    rw [map_starts hLower]
    exact List.mem_map.mpr (hSound.succs b hb succ hSucc)
  obtain ⟨found, hFound, rfl⟩ := List.mem_map.mp hListed
  exact ⟨found.index, hFound⟩

/-- To enter a block is to stand at its start. -/
theorem matches_enter (hSound : f.Sound) (hLower : (f.lower options).result = .ok out)
    {id : BlockId} {start : Nat} (hStart : (⟨id, start⟩ : BlockStart) ∈ out.starts)
    {σ : Type} (s : σ) : Matches f options out (f.enter options id s) (.running start s) := by
  have hListed : id ∈ f.blocks.map (·.id) := by
    rw [← map_starts hLower]
    exact List.mem_map.mpr ⟨_, hStart, rfl⟩
  obtain ⟨b, hb, rfl⟩ := List.mem_map.mp hListed
  rw [enter, hSound.block?_eq hb]
  exact .inside hb hStart (List.nil_append _).symm

/-! ## The end of a block -/

namespace Sits

variable {k : Nat} {b : Block} {start : Nat} {actions : List Action}

/-- The instructions of a block stand behind its start, in order. -/
theorem inst?_body (h : f.Sits options out k b start actions) {done todo : List Inst} {inst : Inst}
    (hBody : f.bodyCode options b = done ++ inst :: todo) :
    out.inst? (start + done.length) = some inst := by
  have hHere := h.code done.length (by rw [hBody]; simp; omega)
  rw [hBody, List.append_assoc, List.getElem?_append_right (Nat.le_refl _), Nat.sub_self] at hHere
  exact hHere

/-- What stands behind the code of the schedule. -/
theorem inst?_exit (h : f.Sits options out k b start actions) {j : Nat} {inst : Inst}
    (hInst : (actions.filterMap Action.inst?)[j]? = some inst) :
    out.inst? (start + (f.bodyCode options b).length + j) = some inst := by
  have hj := (List.getElem?_eq_some_iff.mp hInst).1
  -- the schedule lies in front
  have hHere := h.code ((f.bodyCode options b).length + j) (by omega)
  rw [List.getElem?_append_right (Nat.le_add_right _ _), Nat.add_sub_cancel_left, hInst,
    ← Nat.add_assoc] at hHere
  exact hHere

/-- A branch or jump behind the code of the schedule goes to the start of its target. -/
theorem goes_to (h : f.Sits options out k b start actions) (hSound : f.Sound)
    (hLower : (f.lower options).result = .ok out) {j dest : Nat} {inst : Inst} {target : BlockId}
    (hInst : (actions.filterMap Action.inst?)[j]? = some inst)
    (hBranch : ⟨j, target⟩ ∈ (Piece.ofActions b.line actions).branches)
    (hDest : (⟨target, dest⟩ : BlockStart) ∈ out.starts) :
    out.inst? (start + (f.bodyCode options b).length + j) = some inst ∧
      out.destination (start + (f.bodyCode options b).length + j) = some dest := by
  have hMem := ((h.branches _).mpr ⟨_, hBranch, rfl⟩).1
  exact ⟨h.inst?_exit hInst, destination_eq hSound hLower hMem hDest⟩

/-- The next block starts behind what leaves the block. -/
theorem start_next (h : f.Sits options out k b start actions) {b' : Block}
    (hNext : f.blocks[k + 1]? = some b') (hLower : (f.lower options).result = .ok out) :
    (⟨b'.id, start + (f.bodyCode options b).length +
      (actions.filterMap Action.inst?).length⟩ : BlockStart) ∈ out.starts := by
  obtain ⟨start', actions', hSits'⟩ := exists_sits hLower hNext
  have hEnds := h.ends
  rw [hSits'.begins, Option.map_some, Option.getD_some] at hEnds
  rw [Nat.add_assoc, ← hEnds]
  exact List.mem_of_getElem? hSits'.begins

end Sits

/-! ## One step -/

variable {σ : Type} {m : Machine σ}

/-- The number of blocks laid out behind the one that a run is in. -/
def ahead (f : Func) : BlockPoint σ → Nat
  | .inside b _ _ => f.blocks.length - ((f.blocks.map (·.id)).idxOf b.id + 1)
  | .stopped _ _ | .lost => 0

/-- Inside a block, the blocks ahead are those behind it in the layout. -/
theorem ahead_inside (hSound : f.Sound) {k : Nat} {b : Block} (hb : f.blocks[k]? = some b)
    {todo : List Inst} {s : σ} : f.ahead (.inside b todo s) = f.blocks.length - (k + 1) := by
  obtain ⟨hk, rfl⟩ := List.getElem?_eq_some_iff.mp hb
  -- ids do not repeat, so a block is found where it is laid out
  have hIndex := hSound.blockIds.idxOf_getElem k (by rwa [List.length_map])
  rw [List.getElem_map] at hIndex
  rw [ahead, hIndex]

/-- There are fewer blocks ahead than blocks. -/
theorem ahead_lt (hBlocks : 0 < f.blocks.length) (c : BlockPoint σ) :
    f.ahead c < f.blocks.length := by
  cases c with
  | inside b todo s =>
    rw [ahead]
    omega
  | stopped | lost => exact hBlocks

end Func

/-- The machine stands at a jump. -/
def CodePoint.AtJump {σ : Type} (out : Output) : CodePoint σ → Prop
  | .running pc _ => out.inst? pc = some .jump
  | .stopped _ _ | .lost => False

/-- A step of a run over blocks is `pace` steps of the machine. -/
structure KeepsPace {σ : Type} (f : Func) (options : Options) (out : Output) (m : Machine σ)
    (c : BlockPoint σ) (d : CodePoint σ) (pace : Nat) : Prop where
  related : Matches f options out (f.blockStep options m c) ((m.step out)^[pace] d)
  pace_le : pace ≤ 2
  ahead_lt : pace = 0 → f.ahead (f.blockStep options m c) < f.ahead c
  atJump : pace = 2 → (m.step out d).AtJump out

namespace Func

variable {f : Func} {options : Options} {out : Output} {σ : Type} {m : Machine σ}

theorem keepsPace_one {c : BlockPoint σ} {d : CodePoint σ}
    (h : Matches f options out (f.blockStep options m c) (m.step out d)) :
    KeepsPace f options out m c d 1 :=
  ⟨h, by omega, by omega, by omega⟩

section Leaving

variable {k : Nat} {b : Block} {start : Nat} {s : σ}

/-- To leave a block for its only successor takes a jump, unless it follows. -/
theorem exists_pace_goto (hSound : f.Sound) (hLower : (f.lower options).result = .ok out)
    {succ : BlockId}
    (hSits : f.Sits options out k b start (gotoActions succ (f.blocks[k + 1]?.map (·.id))))
    (hKind : b.kind = .plain ∨ b.kind = .call ∨ b.kind = .check) (hSuccs : b.succs = [succ]) :
    ∃ pace, KeepsPace f options out m (.inside b [] s)
      (.running (start + (f.bodyCode options b).length) s) pace := by
  have hLeave : f.leave options m b s = f.enter options succ s := leave_goto hKind hSuccs
  by_cases hNext : f.blocks[k + 1]?.map (·.id) = some succ
  · -- control falls through, into a block that has fewer blocks behind it
    obtain ⟨b', hb', rfl⟩ := Option.map_eq_some_iff.mp hNext
    have hStart := hSits.start_next hb' hLower
    rw [Piece.insts_gotoActions, if_pos hNext] at hStart
    refine ⟨0, ?_, by omega, fun _ => ?_, by omega⟩
    · show Matches f options out (f.leave options m b s) _
      rw [hLeave]
      exact matches_enter hSound hLower hStart s
    · show f.ahead (f.leave options m b s) < _
      rw [hLeave, enter, hSound.block?_eq (List.mem_of_getElem? hb'), ahead_inside hSound hb',
        ahead_inside hSound hSits.block]
      have hk := (List.getElem?_eq_some_iff.mp hb').1
      omega
  · -- a jump goes to the start of the successor
    have hSucc : succ ∈ b.succs := by simp [hSuccs]
    obtain ⟨dest, hDest⟩ := exists_start hSound hLower (List.mem_of_getElem? hSits.block) hSucc
    have hInsts := Piece.insts_gotoActions succ (f.blocks[k + 1]?.map (·.id))
    have hBranches := Piece.branches_gotoActions b.line succ (f.blocks[k + 1]?.map (·.id))
    rw [if_neg hNext] at hInsts hBranches
    obtain ⟨hInst, hGoes⟩ := hSits.goes_to (j := 0) hSound hLower (by rw [hInsts]; rfl)
      (by rw [hBranches]; exact List.mem_singleton.mpr rfl) hDest
    rw [Nat.add_zero] at hInst hGoes
    refine ⟨1, keepsPace_one ?_⟩
    show Matches f options out (f.leave options m b s) _
    rw [hLeave, Machine.step_jump hInst hGoes]
    exact matches_enter hSound hLower hDest s

/-- A branch to the one successor in front of the block of the other leaves for either. -/
theorem exists_pace_in_front (hSound : f.Sound) (hLower : (f.lower options).result = .ok out)
    {actions : List Action} (hSits : f.Sits options out k b start actions) {cond : Cond}
    {rs1 rs2 : Reg} {target other : BlockId}
    (hInsts : actions.filterMap Action.inst? = [.branch cond rs1 rs2])
    (hBranches : (Piece.ofActions b.line actions).branches = [⟨0, target⟩])
    (hTarget : target ∈ b.succs) (hNext : f.blocks[k + 1]?.map (·.id) = some other)
    (hLeave : f.leave options m b s =
      f.enter options (if cond.holds (m.read s rs1) (m.read s rs2) then target else other) s) :
    ∃ pace, KeepsPace f options out m (.inside b [] s)
      (.running (start + (f.bodyCode options b).length) s) pace := by
  obtain ⟨dest, hDest⟩ := exists_start hSound hLower (List.mem_of_getElem? hSits.block) hTarget
  obtain ⟨hInst, hGoes⟩ := hSits.goes_to (j := 0) hSound hLower (by rw [hInsts]; rfl)
    (by rw [hBranches]; exact List.mem_singleton.mpr rfl) hDest
  rw [Nat.add_zero] at hInst hGoes
  -- behind the branch stands the other block
  obtain ⟨b', hb', rfl⟩ := Option.map_eq_some_iff.mp hNext
  have hOther := hSits.start_next hb' hLower
  rw [hInsts, List.length_singleton] at hOther
  refine ⟨1, keepsPace_one ?_⟩
  show Matches f options out (f.leave options m b s) _
  rw [hLeave, Machine.step_branch hInst hGoes]
  cases cond.holds (m.read s rs1) (m.read s rs2) with
  | true => exact matches_enter hSound hLower hDest s
  | false => exact matches_enter hSound hLower hOther s

/-- To leave a block for one of two successors takes a branch, and a jump
besides where the branch is not taken and neither successor follows. -/
theorem exists_pace_branch (hSound : f.Sound) (hLower : (f.lower options).result = .ok out)
    {cond : Cond} {rs1 rs2 : Reg} {yes no : BlockId}
    (hSits : f.Sits options out k b start
      (branchActions cond rs1 rs2 yes no (f.blocks[k + 1]?.map (·.id))))
    (hKind : b.kind = .branch) (hSuccs : b.succs = [yes, no])
    (hComparison : f.comparison? b = some (cond, rs1, rs2)) :
    ∃ pace, KeepsPace f options out m (.inside b [] s)
      (.running (start + (f.bodyCode options b).length) s) pace := by
  have hLeave : f.leave options m b s =
      f.enter options (if cond.holds (m.read s rs1) (m.read s rs2) then yes else no) s :=
    leave_branch hKind hSuccs hComparison
  have hYesSucc : yes ∈ b.succs := by simp [hSuccs]
  have hNoSucc : no ∈ b.succs := by simp [hSuccs]
  have hInsts := Piece.insts_branchActions cond rs1 rs2 yes no (f.blocks[k + 1]?.map (·.id))
  have hBranches :=
    Piece.branches_branchActions b.line cond rs1 rs2 yes no (f.blocks[k + 1]?.map (·.id))
  -- the cases are those of the layout: which successor follows, if any
  by_cases hYes : f.blocks[k + 1]?.map (·.id) = some yes
  · rw [if_pos hYes] at hInsts hBranches
    -- the branch is the inverted one, so it goes to the second successor
    have hInverted : f.leave options m b s =
        f.enter options (if cond.invert.holds (m.read s rs1) (m.read s rs2) then no else yes) s := by
      rw [hLeave, Cond.holds_invert]
      cases cond.holds (m.read s rs1) (m.read s rs2) <;> rfl
    exact exists_pace_in_front hSound hLower hSits hInsts hBranches hNoSucc hYes hInverted
  rw [if_neg hYes] at hInsts hBranches
  by_cases hNo : f.blocks[k + 1]?.map (·.id) = some no
  · rw [if_pos hNo] at hInsts hBranches
    exact exists_pace_in_front hSound hLower hSits hInsts hBranches hYesSucc hNo hLeave
  -- neither follows: the branch goes to the first, a jump behind it to the second
  rw [if_neg hNo] at hInsts hBranches
  have hb := List.mem_of_getElem? hSits.block
  obtain ⟨destYes, hYesStart⟩ := exists_start hSound hLower hb hYesSucc
  obtain ⟨destNo, hNoStart⟩ := exists_start hSound hLower hb hNoSucc
  obtain ⟨hInst, hGoes⟩ := hSits.goes_to (j := 0) hSound hLower (by rw [hInsts]; rfl)
    (by rw [hBranches]; exact List.mem_cons_self) hYesStart
  rw [Nat.add_zero] at hInst hGoes
  obtain ⟨hJump, hJumps⟩ := hSits.goes_to (j := 1) hSound hLower (by rw [hInsts]; rfl)
    (by rw [hBranches]; exact List.mem_cons_of_mem _ List.mem_cons_self) hNoStart
  have hStep := Machine.step_branch (m := m) (s := s) hInst hGoes
  cases hHolds : cond.holds (m.read s rs1) (m.read s rs2) with
  | true =>
    rw [hHolds, if_pos rfl] at hStep hLeave
    refine ⟨1, keepsPace_one ?_⟩
    show Matches f options out (f.leave options m b s) _
    rw [hLeave, hStep]
    exact matches_enter hSound hLower hYesStart s
  | false =>
    -- the only two steps: past the branch, and the jump
    rw [hHolds, if_neg Bool.false_ne_true] at hStep hLeave
    refine ⟨2, ?_, by omega, by omega, fun _ => ?_⟩
    · show Matches f options out (f.leave options m b s) (m.step out (m.step out _))
      rw [hLeave, hStep]
      rw [Machine.step_jump hJump hJumps]
      exact matches_enter hSound hLower hNoStart s
    · rw [hStep]
      exact hJump

/-- Where a block ends the run, its last instruction does so. -/
theorem exists_pace_stop {inst : Inst} (hSits : f.Sits options out k b start [.emit inst])
    (hStop : b.kind = .ret ∧ inst = .ret ∨ b.kind = .exit ∧ inst = .undef) :
    ∃ pace, KeepsPace f options out m (.inside b [] s)
      (.running (start + (f.bodyCode options b).length) s) pace := by
  have hInst : out.inst? (start + (f.bodyCode options b).length) = some inst :=
    hSits.inst?_exit (j := 0) rfl
  refine ⟨1, keepsPace_one ?_⟩
  rw [Machine.step_stop hInst (hStop.imp And.right And.right), blockStep, leave_stop hStop]
  exact .stopped

end Leaving

/-- **A step over blocks is some steps of the machine.** Where it is none, fewer
blocks are left to fall through to. -/
theorem exists_pace (hSound : f.Sound) (hLower : (f.lower options).result = .ok out)
    {c : BlockPoint σ} {d : CodePoint σ} (h : Matches f options out c d) :
    ∃ pace, KeepsPace f options out m c d pace := by
  cases h with
  | stopped => exact ⟨1, keepsPace_one .stopped⟩
  | @inside b start done todo s hb hStart hBody =>
    -- the block sits where the run has entered it
    obtain ⟨k, hk⟩ := List.mem_iff_getElem?.mp hb
    obtain ⟨start', actions, hSits⟩ := exists_sits hLower hk
    have hSame := List.inj_on_of_nodup_map (nodup_starts hSound hLower) hStart
      (List.mem_of_getElem? hSits.begins) rfl
    obtain rfl : start = start' := congrArg BlockStart.index hSame
    cases todo with
    | cons inst todo =>
      -- the next instruction of the schedule
      have hStraight : inst.isStraight = true := hSits.straight inst (by simp [hBody])
      refine ⟨1, keepsPace_one ?_⟩
      rw [Machine.step_straight (hSits.inst?_body hBody) hStraight, blockStep]
      have hDone : f.bodyCode options b = (done ++ [inst]) ++ todo := by
        rw [hBody, List.append_assoc, List.singleton_append]
      have hMatches := Matches.inside hb hStart hDone (s := m.effect inst s)
      rwa [List.length_append, List.length_singleton, ← Nat.add_assoc] at hMatches
    | nil =>
      -- the end of the schedule, and a way out for each kind of block
      rw [List.append_nil] at hBody
      rw [← hBody]
      have hLeaves := hSits.leaves
      cases hLeaves with
      | goto hKind hSuccs => exact exists_pace_goto hSound hLower hSits hKind hSuccs
      | branch hKind hControl hOp hSuccs h1 h2 =>
        exact exists_pace_branch hSound hLower hSits hKind hSuccs
          (comparison?_eq_some hControl hOp h1 h2)
      | ret hKind => exact exists_pace_stop hSits (.inl ⟨hKind, rfl⟩)
      | exit hKind => exact exists_pace_stop hSits (.inr ⟨hKind, rfl⟩)

end Func

/-! ## Whole runs -/

/-- How long one run takes to keep up with so many steps of another, when it
takes `pace` steps for each. -/
def pacedTime {α β : Type} (lead : α → α) (follow : β → β) (pace : α → β → Nat) (c : α) (d : β) :
    Nat → Nat
  | 0 => 0
  | n + 1 =>
    pacedTime lead follow pace c d n +
      pace (lead^[n] c) (follow^[pacedTime lead follow pace c d n] d)

/-- Time does not go back. -/
theorem pacedTime_le_add {α β : Type} (lead : α → α) (follow : β → β) (pace : α → β → Nat) (c : α)
    (d : β) (n r : Nat) :
    pacedTime lead follow pace c d n ≤ pacedTime lead follow pace c d (n + r) := by
  induction r with
  | zero => exact Nat.le_refl _
  | succ r ih =>
    rw [← Nat.add_assoc, pacedTime]
    omega

/-- Times that begin at 0 and do not stand still for good pass every point. -/
theorem exists_step_over {time : Nat → Nat} {r : Nat} (hStart : time 0 = 0)
    (hAdvances : ∀ n, time n < time (n + r)) (k : Nat) :
    ∃ n, time n ≤ k ∧ k < time (n + 1) := by
  have hPast : ∃ n, k < time n := by
    induction k with
    | zero => exact ⟨_, Nat.lt_of_le_of_lt (Nat.zero_le _) (hAdvances 0)⟩
    | succ k ih =>
      obtain ⟨n, hn⟩ := ih
      exact ⟨_, Nat.lt_of_le_of_lt hn (hAdvances n)⟩
  obtain ⟨n, hn⟩ := hPast
  -- back from a time past the point to the step with which it is passed
  induction n with
  | zero => omega
  | succ n ih =>
    rcases Nat.lt_or_ge k (time n) with hlt | hge
    · exact ih hlt
    · exact ⟨n, hge, hn⟩

/-- The run of the code from `d` agrees with the run over blocks from `c`, whose
`n`-th point the machine reaches at `time n`. -/
structure Agrees {σ : Type} (f : Func) (options : Options) (out : Output) (m : Machine σ)
    (c : BlockPoint σ) (d : CodePoint σ) (time : Nat → Nat) : Prop where
  start : time 0 = 0
  related : ∀ n, Matches f options out ((f.blockStep options m)^[n] c) ((m.step out)^[time n] d)
  ascending : ∀ n, time n ≤ time (n + 1)
  /-- The run over blocks does not get ahead for good. -/
  advances : ∀ n, time n < time (n + f.blocks.length)
  /-- The machine is nowhere that the run over blocks is not, but at the jump
  behind a branch that is not taken. -/
  covers : ∀ k, ∃ n, time n = k ∨
    (time n + 1 = k ∧ k < time (n + 1) ∧ ((m.step out)^[k] d).AtJump out)

section Runs

variable {f : Func} {options : Options} {out : Output} {σ : Type} {m : Machine σ}
  {pace : BlockPoint σ → CodePoint σ → Nat} {c : BlockPoint σ} {d : CodePoint σ}

/-- At the paced times the runs are related, if each step keeps the pace. -/
theorem matches_pacedTime
    (hPace : ∀ c d, Matches f options out c d → KeepsPace f options out m c d (pace c d))
    (h : Matches f options out c d) (n : Nat) :
    Matches f options out ((f.blockStep options m)^[n] c)
      ((m.step out)^[pacedTime (f.blockStep options m) (m.step out) pace c d n] d) := by
  -- by the steps over blocks; the iterates of the machine add up
  induction n with
  | zero => exact h
  | succ n ih =>
    have hNext := (hPace _ _ ih).related
    rw [← Function.iterate_succ_apply' (f.blockStep options m), ← Function.iterate_add_apply,
      Nat.add_comm (pace _ _)] at hNext
    exact hNext

/-- The machine takes a step before the run over blocks falls through more blocks
than are left. -/
theorem pacedTime_lt_add
    (hPace : ∀ c d, Matches f options out c d → KeepsPace f options out m c d (pace c d))
    (h : Matches f options out c d) {n r : Nat}
    (hAhead : f.ahead ((f.blockStep options m)^[n] c) < r) :
    pacedTime (f.blockStep options m) (m.step out) pace c d n <
      pacedTime (f.blockStep options m) (m.step out) pace c d (n + r) := by
  -- by the blocks that control may still fall through
  induction r generalizing n with
  | zero => omega
  | succ r ih =>
    have hKeeps := hPace _ _ (matches_pacedTime hPace h n)
    have hLater := pacedTime_le_add (f.blockStep options m) (m.step out) pace c d (n + 1) r
    rw [show n + (r + 1) = n + 1 + r by omega]
    rcases Nat.eq_zero_or_pos (pace ((f.blockStep options m)^[n] c)
      ((m.step out)^[pacedTime (f.blockStep options m) (m.step out) pace c d n] d)) with hZero | hPos
    · -- control fell through, so the bound on what is left has come down
      have hFewer := hKeeps.ahead_lt hZero
      rw [← Function.iterate_succ_apply' (f.blockStep options m)] at hFewer
      have hLt := ih (show f.ahead ((f.blockStep options m)^[n + 1] c) < r by
        exact Nat.lt_of_lt_of_le hFewer (by omega))
      rw [pacedTime, hZero, Nat.add_zero] at hLt
      exact hLt
    · -- the machine took a step
      rw [pacedTime] at hLater
      omega

/-- **Steps that keep two runs related keep them related for good.** -/
theorem agrees_of_pace (hBlocks : 0 < f.blocks.length)
    (hPace : ∀ c d, Matches f options out c d → KeepsPace f options out m c d (pace c d))
    (h : Matches f options out c d) :
    Agrees f options out m c d (pacedTime (f.blockStep options m) (m.step out) pace c d) := by
  have hAdvances : ∀ n, pacedTime (f.blockStep options m) (m.step out) pace c d n <
      pacedTime (f.blockStep options m) (m.step out) pace c d (n + f.blocks.length) :=
    fun n => pacedTime_lt_add hPace h (Func.ahead_lt hBlocks _)
  refine ⟨rfl, matches_pacedTime hPace h, fun n => pacedTime_le_add _ _ _ _ _ n 1, hAdvances, ?_⟩
  intro k
  obtain ⟨n, hFrom, hTo⟩ := exists_step_over rfl hAdvances k
  have hKeeps := hPace _ _ (matches_pacedTime hPace h n)
  have hAtMost := hKeeps.pace_le
  have hNext : pacedTime (f.blockStep options m) (m.step out) pace c d (n + 1) =
      pacedTime (f.blockStep options m) (m.step out) pace c d n + pace _ _ := rfl
  refine ⟨n, ?_⟩
  -- a step takes two at most, so there is one point in between at most
  rcases Nat.eq_or_lt_of_le hFrom with hHere | hBehind
  · exact .inl hHere
  · obtain rfl : pacedTime (f.blockStep options m) (m.step out) pace c d n + 1 = k := by omega
    refine .inr ⟨rfl, hTo, ?_⟩
    rw [Function.iterate_succ_apply']
    exact hKeeps.atJump (by omega)

end Runs

/-- **The run of lowered code agrees with the run over blocks, throughout.** -/
theorem run_agrees {f : Func} {options : Options} {out : Output} (hCheck : f.check = .ok ())
    (hLower : (f.lower options).result = .ok out) {entry : Block}
    (hEntry : f.blocks.head? = some entry) {σ : Type} (m : Machine σ) (s : σ) :
    ∃ time, Agrees f options out m (.inside entry (f.bodyCode options entry) s) (.running 0 s)
      time := by
  have hSound := Func.check_eq_ok_iff.mp hCheck
  have hPace : ∀ (c : BlockPoint σ) (d : CodePoint σ), ∃ pace, Matches f options out c d →
      KeepsPace f options out m c d pace := by
    intro c d
    by_cases h : Matches f options out c d
    · obtain ⟨pace, hKeeps⟩ := Func.exists_pace (m := m) hSound hLower h
      exact ⟨pace, fun _ => hKeeps⟩
    · exact ⟨0, fun h' => absurd h' h⟩
  -- a pace for every pair of points that match
  choose pace hPace using hPace
  have hBlocks : 0 < f.blocks.length := List.length_pos_iff_exists_mem.mpr
    ⟨entry, List.mem_of_head? hEntry⟩
  refine ⟨_, agrees_of_pace hBlocks hPace ?_⟩
  -- the entry block starts at index 0
  have hHead := congrArg List.head? (Func.map_starts hLower)
  rw [List.head?_map, List.head?_map, hEntry, Option.map_some] at hHead
  obtain ⟨first, hFirst, hBlock⟩ := Option.map_eq_some_iff.mp hHead
  have hIndex := Func.first_start hLower hFirst
  have hStart : (⟨entry.id, 0⟩ : BlockStart) ∈ out.starts := by
    rw [← hBlock, ← hIndex]
    exact List.mem_of_head? hFirst
  exact .inside (List.mem_of_head? hEntry) hStart (List.nil_append _).symm

/-- From the entry of the function that computes a maximum, with all registers zero, both runs
agree. -/
theorem run_agrees_max :
    ∃ out entry, (Demo.max.lower {}).result = .ok out ∧ Demo.max.blocks.head? = some entry ∧
      ∃ time, Agrees Demo.max {} out
        (⟨fun regs r => regs r, fun _ regs => regs⟩ : Machine (Reg → BitVec 64))
        (.inside entry (Demo.max.bodyCode {} entry) fun _ => 0) (.running 0 fun _ => 0) time := by
  have hCheck : Demo.max.check = .ok () := rfl
  exact ⟨_, _, rfl, rfl, run_agrees hCheck rfl rfl _ _⟩

end RiscvLowering
