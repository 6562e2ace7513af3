import Mathlib.Algebra.GroupWithZero.Nat
import RiscvLowering.Command.Demo
import RiscvLowering.Proofs.Layout
import RiscvLowering.Proofs.Steps

/-!
# Composition — code put together from parts that are lowered separately

No lowering looks at what was lowered before. So a value or a terminator gives
in any session what it gives in a fresh one, put behind what is there already;
and a lowered function is its parts, each lowered in a session of its own, one
behind the other.

Main results:

* `lowerValue_continues`, `lowerTerminator_continues` — what is lowered in a
  session is what is lowered in a fresh one, moved behind the code.
* `gather_join` — what joined pieces hold is what each holds, moved behind the
  pieces before it.
* `lowering_composes` — both, and what follows for whole functions.
-/

namespace RiscvLowering

/-! ## Sessions -/

namespace Session

/-- `s'` holds what `s` holds and behind it what `alone` holds, with indices
moved behind the code of `s`; all that is added was lowered for `line`. -/
structure Continues (s alone s' : Session) (line : Line) : Prop where
  code : s'.code.toList = s.code.toList ++ alone.code.toList
  lines : ∀ p ∈ alone.code.toList, p.line = line
  branches : s'.branches.toList =
    s.branches.toList ++ alone.branches.toList.map (.shift s.code.size)
  starts : s'.starts = s.starts
  gaps : s'.gaps.toList = s.gaps.toList ++ alone.gaps.toList
  marks : s'.marks.toList = s.marks.toList ++ alone.marks.toList.map (.shift s.code.size)

end Session

namespace Piece

/-- All code of a decision carries the line it was made for. -/
theorem line_of_mem_ofActions {line : Line} {actions : List Action} {p : Placed}
    (h : p ∈ (ofActions line actions).code) : p.line = line := by
  induction actions with
  | nil => simp [ofActions] at h
  | cons a as ih =>
    rw [ofActions, code_append, List.mem_append] at h
    rcases h with h | h
    · cases a with
      | emit inst | branch inst target => rw [List.mem_singleton.mp h]
      | _ => simp [ofAction] at h
    · exact ih h

/-- All the code of a decision is for its line. -/
theorem line_of_mem_ofDecision {line : Line} {d : Except LoweringError (List Action)}
    {p : Placed} (h : p ∈ (ofDecision line d).1.code) : p.line = line := by
  cases d with
  | ok actions => exact line_of_mem_ofActions h
  | error e => simp [ofDecision] at h

end Piece

namespace Session

/-- The same decision continues any session as it fills a fresh one. -/
theorem continues_of_adds {s s' alone : Session} {f : Func} {options : Options} {line : Line}
    {d : Except LoweringError (List Action)} (h : s.Adds s' (Piece.ofDecision line d).1)
    (hAlone : (fresh f options).Adds alone (Piece.ofDecision line d).1) :
    s.Continues alone s' line := by
  -- the fresh session is empty, so all that it holds in the end is the piece
  have hPiece := hAlone.piece
  rw [piece_fresh, Piece.empty_append] at hPiece
  have hAll := h.piece
  rw [← hPiece] at hAll
  refine ⟨congrArg Piece.code hAll, fun p hp => ?_, congrArg Piece.branches hAll, ?_,
    congrArg Piece.gaps hAll, congrArg Piece.marks hAll⟩
  · change p ∈ alone.piece.code at hp
    rw [hPiece] at hp
    exact Piece.line_of_mem_ofDecision hp
  · -- a decision starts no block
    have hStarts := congrArg Piece.starts hAll
    rw [hPiece, Piece.starts_append, Piece.starts_ofDecision, List.map_nil,
      List.append_nil] at hStarts
    exact Array.toList_inj.mp hStarts

/-- **A value gives in any session what it gives in a fresh one,** behind the code that is there. -/
theorem lowerValue_continues (s : Session) (v : Value) :
    (s.lowerValue v).2 = ((fresh s.func s.options).lowerValue v).2 ∧
      s.Continues ((fresh s.func s.options).lowerValue v).1 (s.lowerValue v).1 v.line := by
  obtain ⟨hAdds, hEnd⟩ := s.lowerValue_adds v
  obtain ⟨hAlone, hAloneEnd⟩ := (fresh s.func s.options).lowerValue_adds v
  exact ⟨hEnd.trans hAloneEnd.symm, continues_of_adds hAdds hAlone⟩

/-- **So does a terminator.** -/
theorem lowerTerminator_continues (s : Session) (b : Block) (next : Option BlockId) :
    (s.lowerTerminator b next).2 = ((fresh s.func s.options).lowerTerminator b next).2 ∧
      s.Continues ((fresh s.func s.options).lowerTerminator b next).1
        (s.lowerTerminator b next).1 b.line := by
  obtain ⟨hAdds, hEnd⟩ := s.lowerTerminator_adds b next
  obtain ⟨hAlone, hAloneEnd⟩ := (fresh s.func s.options).lowerTerminator_adds b next
  exact ⟨hEnd.trans hAloneEnd.symm, continues_of_adds hAdds hAlone⟩

end Session

/-! ## Joined pieces -/

namespace Piece

/-- What `get` finds in pieces, one after another, each moved behind the code of
the pieces before it. -/
def gather {α : Type} (get : Piece → List α) (shift : Nat → α → α) (ps : List Piece) : List α :=
  (ps.mapIdx fun k p => (get p).map (shift (offset ps k))).flatten

/-- **What joined pieces hold is what each holds, moved.** -/
theorem gather_join {α : Type} {get : Piece → List α} {shift : Nat → α → α}
    (hEmpty : get {} = [])
    (hAppend : ∀ p q : Piece, get (p ++ q) = get p ++ (get q).map (shift p.code.length))
    (hZero : ∀ x, shift 0 x = x) (hAdd : ∀ m n x, shift m (shift n x) = shift (m + n) x)
    (ps : List Piece) : get (join ps) = gather get shift ps := by
  induction ps with
  | nil => exact hEmpty
  | cons p ps ih =>
    rw [join, hAppend, ih, gather, gather, List.mapIdx_cons, List.flatten_cons, offset_zero,
      show shift 0 = id from funext hZero, List.map_id, List.map_flatten]
    -- the pieces behind the first are moved by its code once more
    congr 2
    apply List.ext_getElem?
    intro k
    simp only [List.getElem?_map, List.getElem?_mapIdx, Option.map_map, Function.comp_def,
      List.map_map, offset_cons_succ, hAdd]

/-- The branches of joined pieces are those of each, moved behind the pieces before it. -/
theorem branches_join (ps : List Piece) :
    (join ps).branches = gather (·.branches) .shift ps :=
  gather_join rfl branches_append (fun _ => by simp [PendingBranch.shift])
    (fun _ _ _ => by simp [PendingBranch.shift, Nat.add_assoc]) ps

theorem marks_join (ps : List Piece) : (join ps).marks = gather (·.marks) .shift ps :=
  gather_join rfl marks_append (fun _ => by simp [Mark.shift])
    (fun _ _ _ => by simp [Mark.shift, Nat.add_assoc]) ps

/-- The code of joined pieces is that of each, one behind the other. -/
theorem code_join (ps : List Piece) : (join ps).code = ps.flatMap (·.code) := by
  induction ps with
  | nil => rfl
  | cons p ps ih => rw [join, code_append, ih, List.flatMap_cons]

theorem gaps_join (ps : List Piece) : (join ps).gaps = ps.flatMap (·.gaps) := by
  induction ps with
  | nil => rfl
  | cons p ps ih => rw [join, gaps_append, ih, List.flatMap_cons]

/-- Joined pieces are as long as all of them together. -/
theorem length_code_join (ps : List Piece) :
    (join ps).code.length = (ps.map (·.code.length)).sum := by
  rw [code_join, List.length_flatMap]

/-- A piece begins at the sum of the lengths of those before it. -/
theorem offset_eq_sum (ps : List Piece) (k : Nat) :
    offset ps k = ((ps.map (·.code.length)).take k).sum := by
  rw [offset, length_code_join, List.map_take]

theorem join_append (ps qs : List Piece) : join (ps ++ qs) = join ps ++ join qs := by
  induction ps with
  | nil => rw [List.nil_append, join, empty_append]
  | cons p ps ih => rw [List.cons_append, join, join, ih, append_assoc]

/-- Joining groups of pieces is joining what each group joins to. -/
theorem join_flatMap {α : Type} (g : α → List Piece) (xs : List α) :
    join (xs.flatMap g) = join (xs.map fun x => join (g x)) := by
  induction xs with
  | nil => rfl
  | cons x xs ih => rw [List.flatMap_cons, join_append, ih, List.map_cons, join]

/-- The piece without its starts. -/
def body (p : Piece) : Piece := { p with starts := [] }

theorem body_append (p q : Piece) : (p ++ q).body = p.body ++ q.body := rfl

theorem body_join (ps : List Piece) : (join ps).body = join (ps.map body) := by
  induction ps with
  | nil => rfl
  | cons p ps ih => rw [join, body_append, ih, List.map_cons, join]

end Piece

/-! ## Functions -/

namespace Func

/-- The parts of a block that `next` follows, each as it is lowered by itself:
its values, and its terminator behind them. -/
def parts (f : Func) (options : Options) (b : Block) (next : Option BlockId) : List Piece :=
  b.values.map (fun id => (f.alone options (.value id)).1.piece) ++
    [(f.alone options (.terminator b next)).1.piece]

/-- The parts of all blocks, in layout order. -/
def layoutParts (f : Func) (options : Options) : List Piece :=
  (followed f.blocks).flatMap fun x => f.parts options x.1 x.2

/-- The lengths of the code of the blocks, in layout order. -/
def blockLengths (f : Func) (options : Options) : List Nat :=
  (followed f.blocks).map fun x => ((f.parts options x.1 x.2).map (·.code.length)).sum

/-- What lowering gives is what the parts give, one behind the other, and a
block starts where the code of the blocks before it ends. -/
structure Composed (f : Func) (options : Options) (out : Output) (marks : List Mark) : Prop where
  code : out.code = (f.layoutParts options).flatMap (·.code)
  branches : out.branches = Piece.gather (·.branches) .shift (f.layoutParts options)
  gaps : out.gaps = (f.layoutParts options).flatMap (·.gaps)
  marks : marks = Piece.gather (·.marks) .shift (f.layoutParts options)
  starts : out.starts =
    f.blocks.mapIdx fun k b => ⟨b.id, ((f.blockLengths options).take k).sum⟩

variable {f : Func} {options : Options}

/-- What steps leave behind is what each leaves behind by itself. -/
theorem Lowers.eq_join {xs : List Step} {p : Piece} (h : f.Lowers options xs p) :
    p = .join (xs.map fun x => (f.alone options x).1.piece) := by
  induction xs generalizing p with
  | nil => exact lowers_nil_iff.mp h
  | cons x xs ih =>
    obtain ⟨q, r, hFirst, hRest, rfl⟩ := lowers_cons_iff.mp h
    rw [List.map_cons, Piece.join, piece_alone, hFirst, ← ih hRest]

/-- No part of a block starts one: the start is a step of its own. -/
theorem starts_of_mem_parts {b : Block} {next : Option BlockId} {p : Piece}
    (h : p ∈ f.parts options b next) : p.starts = [] := by
  rw [parts, List.mem_append, List.mem_map, List.mem_singleton] at h
  -- a part is a value of the schedule or the terminator
  rcases h with ⟨id, -, rfl⟩ | rfl
  · rw [piece_alone, stepPiece]
    -- an id of no value leaves nothing behind
    split
    · exact Piece.starts_ofDecision _ _
    · rfl
  · rw [piece_alone]
    exact Piece.starts_ofDecision _ _

theorem body_join_parts (b : Block) (next : Option BlockId) :
    (Piece.join (f.parts options b next)).body = .join (f.parts options b next) := by
  rw [Piece.body_join]
  -- no part has a start to leave out
  have hSame : ∀ p ∈ f.parts options b next, p.body = p := fun p hp => by
    simp only [Piece.body, ← starts_of_mem_parts hp]
  rw [List.map_congr_left hSame, List.map_id']

/-- What a block leaves behind: its start, and its parts behind it. -/
def wholeBlock (f : Func) (options : Options) (x : Block × Option BlockId) : Piece :=
  ({ starts := [⟨x.1.id, 0⟩] } : Piece) ++ .join (f.parts options x.1 x.2)

/-- A block with its parts starts once, at its beginning. -/
theorem starts_wholeBlock (x : Block × Option BlockId) :
    (f.wholeBlock options x).starts = [⟨x.1.id, 0⟩] := by
  -- the parts have no start, so the only one is that of the block
  rw [wholeBlock, Piece.starts_append, ← body_join_parts]
  rfl

/-- But for the start, a block is its parts. -/
theorem body_wholeBlock (x : Block × Option BlockId) :
    (f.wholeBlock options x).body = .join (f.parts options x.1 x.2) := by
  rw [wholeBlock, Piece.body_append, body_join_parts]
  exact Piece.empty_append _

theorem length_wholeBlock (x : Block × Option BlockId) :
    (f.wholeBlock options x).code.length =
      ((f.parts options x.1 x.2).map (·.code.length)).sum :=
  Piece.length_code_join _

/-- The steps of a block, each in a session of its own, make the block with its parts. -/
theorem join_steps (x : Block × Option BlockId) :
    Piece.join ((x.1.steps x.2).map fun y => (f.alone options y).1.piece) =
      f.wholeBlock options x := by
  have hStart : (f.alone options (.start x.1)).1.piece = { starts := [⟨x.1.id, 0⟩] } :=
    f.piece_alone options (.start x.1)
  -- behind the start come the values and the terminator, each by itself
  rw [Block.steps, List.cons_append, List.map_cons, Piece.join, hStart, wholeBlock, parts,
    List.map_append, List.map_map]
  rfl

/-- A lowered layout is its blocks, one behind the other. -/
theorem Lowers.eq_join_blocks {p : Piece} (h : f.Lowers options (layoutSteps f.blocks) p) :
    p = .join ((followed f.blocks).map (f.wholeBlock options)) := by
  rw [h.eq_join, layoutSteps_eq_flatMap, List.map_flatMap, Piece.join_flatMap]
  simp only [join_steps]

/-- But for the starts, a lowered layout is the parts of its blocks. -/
theorem Lowers.body_eq {p : Piece} (h : f.Lowers options (layoutSteps f.blocks) p) :
    p.body = .join (f.layoutParts options) := by
  rw [h.eq_join_blocks, Piece.body_join, List.map_map, layoutParts, Piece.join_flatMap]
  exact congrArg Piece.join (List.map_congr_left fun x _ => body_wholeBlock x)

/-- A block of a lowered layout starts behind the code of the blocks before it. -/
theorem Lowers.starts_eq {p : Piece} (h : f.Lowers options (layoutSteps f.blocks) p) :
    p.starts = f.blocks.mapIdx fun k b => ⟨b.id, ((f.blockLengths options).take k).sum⟩ := by
  -- each block has its own start at the beginning of its piece, which the join moves
  have hStarts : List.Forall₂ (fun id (p : Piece) => p.starts = [⟨id, 0⟩]) (f.blocks.map (·.id))
      ((followed f.blocks).map (f.wholeBlock options)) := by
    rw [← map_followed, List.forall₂_map_left_iff, List.forall₂_map_right_iff]
    exact List.forall₂_same.mpr fun x _ => starts_wholeBlock x
  have hLengths : ((followed f.blocks).map (f.wholeBlock options)).map (·.code.length) =
      f.blockLengths options := by
    rw [List.map_map]
    exact List.map_congr_left fun x _ => length_wholeBlock x
  rw [h.eq_join_blocks]
  apply List.ext_getElem?
  intro k
  rw [Piece.getElem?_starts_join hStarts, Piece.offset_eq_sum, hLengths, List.getElem?_map,
    List.getElem?_mapIdx, Option.map_map]
  rfl

end Func

/-- **Lowering composes.** In any session, whatever it has lowered before, a
value and a terminator end as in a fresh session of the same function and
options, and add what they give there. So a lowered function is its parts,
lowered separately and put one behind the other. -/
theorem lowering_composes :
    (∀ (s : Session) (v : Value),
      (s.lowerValue v).2 = ((Session.fresh s.func s.options).lowerValue v).2 ∧
      s.Continues ((Session.fresh s.func s.options).lowerValue v).1 (s.lowerValue v).1 v.line) ∧
    (∀ (s : Session) (b : Block) (next : Option BlockId),
      (s.lowerTerminator b next).2 = ((Session.fresh s.func s.options).lowerTerminator b next).2 ∧
      s.Continues ((Session.fresh s.func s.options).lowerTerminator b next).1
        (s.lowerTerminator b next).1 b.line) ∧
    ∀ (f : Func) (options : Options) (out : Output), (f.lower options).result = .ok out →
      f.Composed options out (f.lower options).marks := by
  refine ⟨Session.lowerValue_continues, Session.lowerTerminator_continues, ?_⟩
  -- for whole functions: the piece of the layout is the join of its parts
  intro f options out h
  obtain ⟨p, hLowers, rfl⟩ := Func.result_eq_ok_iff.mp h
  -- all but the starts is the join of the parts, and each field of that is gathered from them
  have hBody := hLowers.body_eq
  have hMarks : (f.lower options).marks = p.marks := by
    rw [(f.lower_eq_runPiece options).2, show f.runPiece options _ = _ from hLowers]
  refine ⟨?_, ?_, ?_, ?_, hLowers.starts_eq⟩
  · exact (congrArg Piece.code hBody).trans (Piece.code_join _)
  · exact (congrArg Piece.branches hBody).trans (Piece.branches_join _)
  · exact (congrArg Piece.gaps hBody).trans (Piece.gaps_join _)
  · exact hMarks.trans ((congrArg Piece.marks hBody).trans (Piece.marks_join _))

/-- The function that computes a maximum is composed of its parts. -/
theorem lowering_composes_max :
    ∃ out, (Demo.max.lower {}).result = .ok out ∧
      Demo.max.Composed {} out (Demo.max.lower {}).marks :=
  ⟨_, rfl, lowering_composes.2.2 _ _ _ rfl⟩

end RiscvLowering
