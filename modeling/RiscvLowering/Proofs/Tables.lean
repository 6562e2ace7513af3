import RiscvLowering.Command.Demo
import RiscvLowering.Proofs.Integrity
import RiscvLowering.Proofs.Layout

/-!
# Tables — pending branches and block starts of a lowered function

The code of a lowered function comes with two tables: the branches whose
distance is still open, and the places where the blocks begin. The patcher that
comes later can only do its work if the two fit the code and each other.

Main results:

* `map_index_branches` — whatever is lowered, the pending branches are the
  branches and jumps of the code, in order.
* `tables_exact` — for a sound function both tables are exact and every
  pending branch can be resolved, to a successor of the block that it leaves.
-/

namespace RiscvLowering

/-! ## Pending branches are the branches and jumps -/

/-- The indices of the branches and jumps of a code. -/
def transfers : List Placed → List Nat
  | [] => []
  | p :: ps => (if p.inst.isTransfer then [0] else []) ++ (transfers ps).map (1 + ·)

/-- The transfers of code behind code are those of both, the second moved behind the first. -/
theorem transfers_append (xs ys : List Placed) :
    transfers (xs ++ ys) = transfers xs ++ (transfers ys).map (xs.length + ·) := by
  induction xs with
  | nil => simp [transfers]
  | cons x xs ih =>
    rw [List.cons_append, transfers, transfers, ih]
    simp only [List.map_append, List.map_map, List.append_assoc, List.length_cons]
    -- one place more in front moves all transfers by one
    have hShift : ((1 + ·) ∘ (xs.length + ·) : Nat → Nat) = (xs.length + 1 + ·) :=
      funext fun i => by simp only [Function.comp_apply]; omega
    rw [hShift]

/-- A place is a transfer exactly if a branch or a jump stands there. -/
theorem mem_transfers_iff {code : List Placed} {i : Nat} :
    i ∈ transfers code ↔ ∃ p, code[i]? = some p ∧ p.inst.isTransfer = true := by
  induction code generalizing i with
  | nil => simp [transfers]
  | cons x xs ih =>
    rw [transfers, List.mem_append, List.mem_map]
    -- a place is the first, or one of the rest moved by one
    cases i with
    | zero => by_cases hx : x.inst.isTransfer = true <;> simp [hx]
    | succ i =>
      have hNo : i + 1 ∉ (if x.inst.isTransfer = true then [0] else [] : List Nat) := by
        split <;> simp
      rw [List.getElem?_cons_succ, ← ih, or_iff_right hNo]
      constructor
      · rintro ⟨j, hj, hEq⟩
        rwa [show i = j by omega]
      · intro hi
        exact ⟨i, hi, by omega⟩

/-- No place is listed twice, and they ascend. -/
theorem transfers_increasing (code : List Placed) : (transfers code).Pairwise (· < ·) := by
  induction code with
  | nil => exact .nil
  | cons x xs ih =>
    rw [transfers]
    refine List.pairwise_append.mpr ⟨?_, ?_, ?_⟩
    · split <;> simp
    · exact List.pairwise_map.mpr (ih.imp fun h => by omega)
    · -- the first stands before all the rest
      intro i hi j hj
      obtain ⟨j', -, rfl⟩ := List.mem_map.mp hj
      split at hi
      · obtain rfl := List.mem_singleton.mp hi
        omega
      · simp at hi

/-- Performing the action records a target exactly for an instruction that needs one. -/
def Action.IsPatchable : Action → Prop
  | emit inst => inst.isTransfer = false
  | branch inst _ => inst.isTransfer = true
  | gap _ | mark _ _ | note _ => True

/-- Straight actions leave no branch and emit none, so there is nothing to patch. -/
theorem Action.IsStraight.isPatchable {a : Action} (h : a.IsStraight) : a.IsPatchable := by
  cases a with
  | emit inst => cases inst <;> simp_all [IsStraight, IsPatchable, Inst.isStraight, Inst.isTransfer]
  | branch inst target => exact h.elim
  | _ => trivial

/-- The ways out of a block emit their branches with a place to patch, and nothing else that
transfers. -/
theorem Func.Leaves.isPatchable {f : Func} {b : Block} {next : Option BlockId}
    {actions : List Action} (h : f.Leaves b next actions) : ∀ a ∈ actions, a.IsPatchable := by
  -- one case for each way out, by what follows the block
  cases h with
  | goto =>
    rw [gotoActions]
    split <;> simp [Action.IsPatchable, Inst.isTransfer]
  | exit => simp [Action.IsPatchable, Inst.isTransfer]
  | ret => simp [Action.IsPatchable, Inst.isTransfer]
  | branch =>
    rw [branchActions]
    split
    · simp [Action.IsPatchable, Inst.isTransfer]
    · split <;> simp [Action.IsPatchable, Inst.isTransfer]

/-- A piece names its branches and jumps, in order. -/
def Piece.Exact (p : Piece) : Prop := p.branches.map (·.index) = transfers p.code

namespace Piece

/-- Exact pieces are exact together, as both tables move by the same amount. -/
theorem Exact.append {p q : Piece} (hp : p.Exact) (hq : q.Exact) : (p ++ q).Exact := by
  have hMoved : (q.branches.map (PendingBranch.shift p.code.length)).map (·.index) =
      (transfers q.code).map (p.code.length + ·) := by
    rw [← hq, List.map_map, List.map_map]
    rfl
  show ((p ++ q).branches).map (·.index) = transfers (p ++ q).code
  rw [branches_append, code_append, List.map_append, transfers_append, hMoved, hp]

/-- Actions whose branches are patchable leave an exact piece behind. -/
theorem exact_ofActions {line : Line} {actions : List Action}
    (h : ∀ a ∈ actions, a.IsPatchable) : (ofActions line actions).Exact := by
  induction actions with
  | nil => rfl
  | cons a as ih =>
    obtain ⟨hFirst, hRest⟩ := List.forall_mem_cons.mp h
    refine Exact.append ?_ (ih hRest)
    -- only two actions put an instruction into the piece
    cases a with
    | emit inst =>
      have hNot : inst.isTransfer = false := hFirst
      simp [Exact, ofAction, transfers, hNot]
    | branch inst target =>
      have hIs : inst.isTransfer = true := hFirst
      simp [Exact, ofAction, transfers, hIs]
    | _ => rfl

end Piece

namespace Func

variable {f : Func} {options : Options}

/-- Each step leaves an exact piece behind. -/
theorem exact_of_stepPiece {x : Step} {p : Piece}
    (h : f.stepPiece options x = (p, .ok ())) : p.Exact := by
  -- values emit no branch; only a terminator does
  cases x with
  | start b =>
    obtain ⟨rfl, -⟩ := Prod.mk.inj h
    rfl
  | value id =>
    obtain ⟨v, actions, -, hLower, rfl⟩ := stepPiece_value_eq_ok_iff.mp h
    exact Piece.exact_ofActions fun a ha => (lowerValue_straight hLower a ha).isPatchable
  | terminator b next =>
    obtain ⟨actions, hLower, rfl⟩ := ofDecision_eq_ok_iff.mp h
    exact Piece.exact_ofActions (lowerTerminator_eq_ok_iff.mp hLower).isPatchable

/-- **Whatever is lowered, the pending branches are the branches and jumps of
the code, in order.** -/
theorem map_index_branches {xs : List Step} {p : Piece} (h : f.Lowers options xs p) :
    p.branches.map (·.index) = transfers p.code := by
  -- by the steps: each leaves an exact piece, and exact pieces join to one
  show p.Exact
  induction xs generalizing p with
  | nil =>
    obtain rfl := lowers_nil_iff.mp h
    rfl
  | cons x xs ih =>
    obtain ⟨q, r, hFirst, hRest, rfl⟩ := lowers_cons_iff.mp h
    exact (exact_of_stepPiece hFirst).append (ih hRest)

end Func

/-! ## The branches of a block -/

namespace Func

variable {f : Func} {options : Options} {b : Block} {next : Option BlockId}
  {actions : List Action}

/-- A branch that leaves a block goes to a successor, and to the block that
follows only where it is a comparison between that block and itself. -/
theorem Leaves.branch_spec (h : f.Leaves b next actions) {line : Line} {r : PendingBranch}
    (hr : r ∈ (Piece.ofActions line actions).branches) :
    ∃ inst, (actions.filterMap Action.inst?)[r.index]? = some inst ∧ r.target ∈ b.succs ∧
      (next = some r.target → inst ≠ .jump ∧ b.succs = [r.target, r.target]) := by
  cases h with
  | @goto succ hKind hSuccs =>
    rw [Piece.branches_gotoActions] at hr
    rw [Piece.insts_gotoActions]
    by_cases hNext : next = some succ
    · -- control falls through, by no branch at all
      simp [hNext] at hr
    · rw [if_neg hNext, List.mem_singleton] at hr
      rw [if_neg hNext]
      subst hr
      exact ⟨.jump, rfl, by simp [hSuccs], fun h => absurd h hNext⟩
  | exit => simp [Piece.ofActions, Piece.ofAction] at hr
  | ret => simp [Piece.ofActions, Piece.ofAction] at hr
  | @branch v cond yes no rs1 rs2 hKind hControl hOp hSuccs h1 h2 =>
    rw [Piece.branches_branchActions] at hr
    rw [Piece.insts_branchActions]
    by_cases hYes : next = some yes
    · rw [if_pos hYes, List.mem_singleton] at hr
      rw [if_pos hYes]
      subst hr
      refine ⟨.branch cond.invert rs1 rs2, rfl, by simp [hSuccs], fun hNo => ?_⟩
      -- the block that follows is the one and the other
      obtain rfl := Option.some.inj (hYes.symm.trans hNo)
      exact ⟨by simp, hSuccs⟩
    · rw [if_neg hYes] at hr ⊢
      by_cases hNo : next = some no
      · rw [if_pos hNo, List.mem_singleton] at hr
        rw [if_pos hNo]
        subst hr
        exact ⟨.branch cond rs1 rs2, rfl, by simp [hSuccs], fun h => absurd h hYes⟩
      · rw [if_neg hNo] at hr ⊢
        rcases List.mem_pair.mp hr with rfl | rfl
        · exact ⟨.branch cond rs1 rs2, rfl, by simp [hSuccs], fun h => absurd h hYes⟩
        · exact ⟨.jump, rfl, by simp [hSuccs], fun h => absurd h hNo⟩

/-- The last block never falls off the end of the code. -/
theorem Leaves.emits_of_last (h : f.Leaves b none actions) :
    0 < (actions.filterMap Action.inst?).length := by
  cases h with
  | goto => simp [Piece.insts_gotoActions]
  | exit => simp [Action.inst?]
  | ret => simp [Action.inst?]
  | branch => simp [Piece.insts_branchActions]

end Func

/-! ## Both tables -/

/-- The instruction lies in the code of the `n`-th block: not before its start,
and before the start of the next block or the end of the code. -/
def Output.CodeOf (out : Output) (n i : Nat) : Prop :=
  ∃ s, out.starts[n]? = some s ∧ s.index ≤ i ∧
    i < (out.starts[n + 1]?.map (·.index)).getD out.code.length

namespace Func

/-- The tables of a lowered function fit the function, its code and each other. -/
structure ExactTables (f : Func) (out : Output) : Prop where
  layout : out.starts.map (·.block) = f.blocks.map (·.id)
  ascending : out.starts.Pairwise (·.index ≤ ·.index)
  first : ∀ s, out.starts.head? = some s → s.index = 0
  inside : ∀ s ∈ out.starts, s.index < out.code.length
  /-- The branches and jumps are what the pending branches name, once each. -/
  transfers : ∀ i, (∃ p, out.code[i]? = some p ∧ p.inst.isTransfer = true) ↔
    out.branches.countP (·.index = i) = 1
  increasing : out.branches.Pairwise (·.index < ·.index)
  resolves : ∀ q ∈ out.branches, (out.starts.map (·.block)).count q.target = 1
  /-- A pending branch lies in the code of one block. -/
  owner : ∀ q ∈ out.branches, ∃! n, out.CodeOf n q.index
  succs : ∀ q ∈ out.branches, ∀ n b, out.CodeOf n q.index → f.blocks[n]? = some b →
    q.target ∈ b.succs
  /-- The block that follows is not jumped to, and is branched to only where
  both successors are that block. -/
  following : ∀ q ∈ out.branches, ∀ n b b', out.CodeOf n q.index → f.blocks[n]? = some b →
    f.blocks[n + 1]? = some b' → q.target = b'.id →
      (∀ p, out.code[q.index]? = some p → p.inst ≠ .jump) ∧ b.succs = [b'.id, b'.id]

variable {f : Func} {options : Options} {out : Output}

/-- Blocks start in layout order, as no piece has less than nothing. -/
theorem starts_ascending (h : (f.lower options).result = .ok out) :
    out.starts.Pairwise (·.index ≤ ·.index) := by
  obtain ⟨ps, hPieces⟩ := exists_pieces h
  refine List.pairwise_iff_getElem.mpr fun i j hi hj hlt => ?_
  -- the starts are the offsets of the pieces
  have hGet : ∀ k (hk : k < out.starts.length), out.starts[k].index = Piece.offset ps k := by
    intro k hk
    have hHere := hPieces.getElem?_starts k
    rw [List.getElem?_eq_getElem hk] at hHere
    obtain ⟨b, -, hEq⟩ := Option.map_eq_some_iff.mp hHere.symm
    rw [← hEq]
  rw [hGet i hi, hGet j hj]
  exact Piece.offset_le_offset (Nat.le_of_lt hlt)

/-- A place of the code belongs to one block at most. -/
theorem codeOf_unique (h : (f.lower options).result = .ok out) {n m i : Nat}
    (hn : out.CodeOf n i) (hm : out.CodeOf m i) : n = m := by
  -- the later block begins no sooner than the earlier one ends
  have hApart : ∀ {n m : Nat}, out.CodeOf n i → out.CodeOf m i → ¬ n < m := by
    rintro n m ⟨s, -, -, hBefore⟩ ⟨s', hs', hFrom, -⟩ hlt
    obtain ⟨hm, rfl⟩ := List.getElem?_eq_some_iff.mp hs'
    have hNext : n + 1 < out.starts.length := by omega
    rw [List.getElem?_eq_getElem hNext, Option.map_some, Option.getD_some] at hBefore
    rcases Nat.lt_or_ge (n + 1) m with hlt' | hge
    · have := List.pairwise_iff_getElem.mp (starts_ascending h) (n + 1) m hNext hm hlt'
      omega
    · obtain rfl : n + 1 = m := by omega
      omega
  have := hApart hn hm
  have := hApart hm hn
  omega

/-- Every start is the place of an instruction, since the last block emits one. -/
theorem start_lt_length (h : (f.lower options).result = .ok out) {s : BlockStart}
    (hs : s ∈ out.starts) : s.index < out.code.length := by
  have hLength : out.starts.length = f.blocks.length := by
    have := congrArg List.length (map_starts h)
    simpa using this
  obtain ⟨k, hk, rfl⟩ := List.getElem_of_mem hs
  -- no start lies behind that of the last block
  have hLast : f.blocks.length - 1 < f.blocks.length := by omega
  obtain ⟨start, actions, hSits⟩ := exists_sits h (List.getElem?_eq_getElem hLast)
  obtain ⟨hLast', hBegins⟩ := List.getElem?_eq_some_iff.mp hSits.begins
  -- nothing follows it, so its code goes on to the end
  have hNoNext : f.blocks[f.blocks.length - 1 + 1]? = none :=
    List.getElem?_eq_none_iff.mpr (by omega)
  have hNoStart : out.starts[f.blocks.length - 1 + 1]? = none :=
    List.getElem?_eq_none_iff.mpr (by omega)
  have hEmits := hSits.leaves
  rw [hNoNext] at hEmits
  have hEnds := hSits.ends
  rw [hNoStart, Option.map_none, Option.getD_none] at hEnds
  have hUpTo : out.starts[k].index ≤ start := by
    rcases Nat.lt_or_ge k (f.blocks.length - 1) with hlt | hge
    · have := List.pairwise_iff_getElem.mp (starts_ascending h) k _ hk hLast' hlt
      rwa [hBegins] at this
    · have hSame : k = f.blocks.length - 1 := by omega
      subst hSame
      exact Nat.le_of_eq (congrArg BlockStart.index hBegins)
  have := hEmits.emits_of_last
  omega

/-- All places from the start of a block up to its end are of its code. -/
theorem Sits.codeOf {k : Nat} {b : Block} {start : Nat} {actions : List Action}
    (h : f.Sits options out k b start actions) {i : Nat} (hLo : start ≤ i)
    (hHi : i < start + ((f.bodyCode options b).length +
      (actions.filterMap Action.inst?).length)) : out.CodeOf k i :=
  ⟨_, h.begins, hLo, by rw [h.ends]; exact hHi⟩

/-- Where a pending branch lies, which instruction it is, and where it goes. -/
theorem branch_spec (h : (f.lower options).result = .ok out) {q : PendingBranch}
    (hq : q ∈ out.branches) :
    ∃ n b, f.blocks[n]? = some b ∧ out.CodeOf n q.index ∧ q.target ∈ b.succs ∧
      (f.blocks[n + 1]?.map (·.id) = some q.target →
        (∀ p, out.code[q.index]? = some p → p.inst ≠ .jump) ∧
          b.succs = [q.target, q.target]) := by
  obtain ⟨n, b, start, actions, hSits, r, hr, rfl⟩ := sits_of_mem_branches h hq
  obtain ⟨inst, hInst, hSucc, hNext⟩ := hSits.leaves.branch_spec hr
  have hLt := (List.getElem?_eq_some_iff.mp hInst).1
  refine ⟨n, b, hSits.block, ?_, hSucc, fun hFollows => ?_⟩
  · apply hSits.codeOf <;> simp only [PendingBranch.shift] <;> omega
  · obtain ⟨hNotJump, hSuccs⟩ := hNext hFollows
    refine ⟨fun p hp => ?_, hSuccs⟩
    -- the instruction at the index is the one that leaves the block
    have hCode := hSits.code ((f.bodyCode options b).length + r.index) (by omega)
    rw [List.getElem?_append_right (by omega), Nat.add_sub_cancel_left, hInst,
      ← Nat.add_assoc] at hCode
    simp only [PendingBranch.shift] at hp
    rw [hp, Option.map_some, Option.some.injEq] at hCode
    rwa [hCode]

/-- The first block starts at the beginning. -/
theorem first_start (h : (f.lower options).result = .ok out) {s : BlockStart}
    (hs : out.starts.head? = some s) : s.index = 0 := by
  obtain ⟨ps, hPieces⟩ := exists_pieces h
  -- in front of the first piece there is no code
  rw [List.head?_eq_getElem?, hPieces.getElem?_starts] at hs
  obtain ⟨b, -, rfl⟩ := Option.map_eq_some_iff.mp hs
  rfl

theorem map_index_branches_out (h : (f.lower options).result = .ok out) :
    out.branches.map (·.index) = RiscvLowering.transfers out.code := by
  obtain ⟨p, hLowers, hOut⟩ := result_eq_ok_iff.mp h
  rw [hOut]
  exact map_index_branches hLowers

theorem branches_increasing (h : (f.lower options).result = .ok out) :
    (out.branches.map (·.index)).Pairwise (· < ·) := by
  rw [map_index_branches_out h]
  exact transfers_increasing out.code

theorem nodup_branches (h : (f.lower options).result = .ok out) :
    (out.branches.map (·.index)).Nodup :=
  (branches_increasing h).imp Nat.ne_of_lt

theorem nodup_starts (hSound : f.Sound) (h : (f.lower options).result = .ok out) :
    (out.starts.map (·.block)).Nodup := by
  rw [map_starts h]
  exact hSound.blockIds

/-- **The tables of a sound function are exact and can be resolved.** -/
theorem tables_exact (hCheck : f.check = .ok ())
    (hLower : (f.lower options).result = .ok out) : f.ExactTables out := by
  have hSound := check_eq_ok_iff.mp hCheck
  refine ⟨map_starts hLower, starts_ascending hLower, fun s => first_start hLower,
    fun s => start_lt_length hLower, ?_, List.pairwise_map.mp (branches_increasing hLower),
    ?_, ?_, ?_, ?_⟩
  · -- the indices do not repeat, so each is named at most once
    intro i
    have hCount : out.branches.countP (·.index = i) = (out.branches.map (·.index)).count i := by
      rw [List.count, List.countP_map]
      exact List.countP_congr fun q _ => by simp
    rw [← mem_transfers_iff, ← map_index_branches_out hLower, hCount]
    constructor
    · exact List.count_eq_one_of_mem (nodup_branches hLower)
    · intro hOne
      exact List.count_pos_iff.mp (by omega)
  · -- a target is a successor, and soundness has a block for it
    intro q hq
    obtain ⟨n, b, hb, -, hSucc, -⟩ := branch_spec hLower hq
    obtain ⟨b', hb', hTarget⟩ := hSound.succs b (List.mem_of_getElem? hb) _ hSucc
    refine List.count_eq_one_of_mem (nodup_starts hSound hLower) ?_
    rw [map_starts hLower]
    exact List.mem_map.mpr ⟨b', hb', hTarget⟩
  · intro q hq
    obtain ⟨n, b, -, hCode, -⟩ := branch_spec hLower hq
    exact ⟨n, hCode, fun m hm => codeOf_unique hLower hm hCode⟩
  · -- the block that holds the branch is the one that it leaves
    intro q hq n b hCode hb
    obtain ⟨m, b', hb', hCode', hSucc, -⟩ := branch_spec hLower hq
    obtain rfl := codeOf_unique hLower hCode hCode'
    obtain rfl := Option.some.inj (hb.symm.trans hb')
    exact hSucc
  · intro q hq n b b'' hCode hb hNext hTarget
    obtain ⟨m, b', hb', hCode', -, hFollowing⟩ := branch_spec hLower hq
    obtain rfl := codeOf_unique hLower hCode hCode'
    obtain rfl := Option.some.inj (hb.symm.trans hb')
    rw [← hTarget]
    exact hFollowing (by rw [hNext, hTarget, Option.map_some])

/-- The tables of the function that computes a maximum are exact. -/
theorem tables_exact_max :
    ∃ out, (Demo.max.lower {}).result = .ok out ∧ Demo.max.ExactTables out := by
  have hCheck : Demo.max.check = .ok () := rfl
  exact ⟨_, rfl, tables_exact hCheck rfl⟩

end Func

end RiscvLowering
