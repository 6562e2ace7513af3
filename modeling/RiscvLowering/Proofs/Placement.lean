import RiscvLowering.Proofs.Listings

/-!
# Placement — where a listing shows what

A listing goes through code and labels with one cursor for each. A label whose
turn has not come holds back those behind it, so a label stands where the
largest start up to its own is reached: before the instruction of that index, or
behind all of the code. For starts in order that is its own start; but a listing
can be asked for with any starts, and with any branches.

* `raised` — the starts of the labels as they come out;
* `instructionText`, `labelText` — what stands for an instruction and for labels.

Main results:

* `raisedFrom_eq_append` — the labels whose turn has come stand here, and the
  rest is as if the listing began behind this instruction.
* `text_places` — the text of a listing, for any code and tables.
-/

namespace RiscvLowering

namespace Listing

/-- The starts of labels as a listing shows them: each is raised to the largest
up to it in the list, so that no label stands before an earlier one. -/
def raised (starts : List BlockStart) : List BlockStart :=
  starts.mapIdx fun j s => ⟨s.block, ((starts.take (j + 1)).map (·.index)).foldr max 0⟩

/-- The lines of labels. -/
def labelText (starts : List BlockStart) : String :=
  String.join (starts.map fun s => s.block.name ++ ":\n")

/-- The line of an instruction: of the branches that name its index, the last
tells the target. -/
def instructionText (branches : List PendingBranch) (withLines : Bool) (i : Nat) (p : Placed) :
    String :=
  "    " ++ p.inst.text ++
    ((branches.filter (·.index = i)).getLast?.elim "" fun q =>
      (if p.inst = .jump then " -> " else ", -> ") ++ q.target.name) ++
    (if withLines = true ∧ p.line.number ≠ 0 then "    ; line " ++ p.line.number.toNat.repr
      else "") ++ "\n"

/-- What a row shows of the code, with nothing added. -/
def Row.bare : Row → String
  | label _ => ""
  | code p _ => p.inst.text ++ "\n"

/-! ## Starts -/

/-- The starts of labels when all up to `m` is reached: a running maximum. -/
def raisedFrom (m : Nat) : List BlockStart → List BlockStart
  | [] => []
  | s :: ss => ⟨s.block, max m s.index⟩ :: raisedFrom (max m s.index) ss

variable {i m : Nat} {starts : List BlockStart} {code : List Placed}
  {branches : List PendingBranch} {withLines : Bool}

/-- The running maximum is the maximum of what is passed. -/
theorem raisedFrom_eq_mapIdx (m : Nat) (starts : List BlockStart) :
    raisedFrom m starts = starts.mapIdx fun j s =>
      ⟨s.block, max m (((starts.take (j + 1)).map (·.index)).foldr max 0)⟩ := by
  induction starts generalizing m with
  | nil => rfl
  | cons s ss ih =>
    -- what the first start adds to the maximum, all later ones have passed
    rw [raisedFrom, ih, List.mapIdx_cons]
    simp [Nat.max_assoc]

theorem raisedFrom_zero (starts : List BlockStart) : raisedFrom 0 starts = raised starts := by
  rw [raisedFrom_eq_mapIdx, raised]
  simp only [Nat.zero_max]

/-- No start is left behind the one that raises it. -/
theorem le_of_mem_raisedFrom {s : BlockStart} (h : s ∈ raisedFrom m starts) : m ≤ s.index := by
  -- the first is raised to this at least, and those behind it further still
  induction starts generalizing m with
  | nil => exact absurd h List.not_mem_nil
  | cons t ss ih =>
    rcases List.mem_cons.mp h with rfl | hLater
    · exact Nat.le_max_left ..
    · exact Nat.le_trans (Nat.le_max_left ..) (ih hLater)

/-- Only the places of labels change. -/
theorem map_raisedFrom {α : Type} (g : BlockId → α) (m : Nat) (starts : List BlockStart) :
    (raisedFrom m starts).map (g ·.block) = starts.map (g ·.block) := by
  induction starts generalizing m with
  | nil => rfl
  | cons s ss ih => rw [raisedFrom, List.map_cons, List.map_cons, ih]

/-- **Labels whose turn has come stand here, and the rest is as if the listing
began behind this instruction.** -/
theorem raisedFrom_eq_append (i : Nat) (starts : List BlockStart) :
    raisedFrom i starts = (starts.takeWhile (·.index ≤ i)).map (⟨·.block, i⟩) ++
      raisedFrom (i + 1) (starts.dropWhile (·.index ≤ i)) := by
  induction starts with
  | nil => rfl
  | cons s ss ih =>
    by_cases hHere : s.index ≤ i
    · rw [List.takeWhile_cons_of_pos (by simpa using hHere),
        List.dropWhile_cons_of_pos (by simpa using hHere), raisedFrom, Nat.max_eq_left hHere, ih]
      rfl
    · -- the first that is not reached holds back all the others
      have hLater : max i s.index = max (i + 1) s.index := by omega
      rw [List.takeWhile_cons_of_neg (by simpa using hHere),
        List.dropWhile_cons_of_neg (by simpa using hHere), raisedFrom, raisedFrom, hLater]
      rfl

/-- Here stand the labels that come first and are not further behind. -/
theorem filter_raisedFrom_here :
    (raisedFrom i starts).filter (·.index = i) =
      (starts.takeWhile (·.index ≤ i)).map (⟨·.block, i⟩) := by
  -- labels further behind are raised beyond this place
  have hLater :
      (raisedFrom (i + 1) (starts.dropWhile (·.index ≤ i))).filter (·.index = i) = [] := by
    refine List.filter_eq_nil_iff.mpr fun s hs => ?_
    have := le_of_mem_raisedFrom hs
    simp only [decide_eq_true_eq]
    omega
  rw [raisedFrom_eq_append, List.filter_append, hLater, List.append_nil, List.filter_eq_self]
  intro s hs
  obtain ⟨t, -, rfl⟩ := List.mem_map.mp hs
  exact decide_eq_true rfl

/-- Labels that stand here stand nowhere else. -/
theorem filter_raisedFrom_later {P : Nat → Prop} [DecidablePred P] (hP : ¬ P i) :
    (raisedFrom i starts).filter (P ·.index) =
      (raisedFrom (i + 1) (starts.dropWhile (·.index ≤ i))).filter (P ·.index) := by
  have hHere : ((starts.takeWhile (·.index ≤ i)).map fun s => (⟨s.block, i⟩ : BlockStart)).filter
      (P ·.index) = [] := by
    refine List.filter_eq_nil_iff.mpr fun s hs => ?_
    obtain ⟨t, -, rfl⟩ := List.mem_map.mp hs
    simpa using hP
  conv_lhs => rw [raisedFrom_eq_append]
  rw [List.filter_append, hHere, List.nil_append]

/-! ## Rows -/

/-- The row of an instruction is printed with the last branch at its index and with its line. -/
theorem text_code_eq_instructionText (i : Nat) (p : Placed) :
    Row.text withLines (.code p (target? branches i)) =
      instructionText branches withLines i p := by
  have hTarget : (target? branches i).elim "" (Row.arrow p.inst) =
      (branches.filter (·.index = i)).getLast?.elim "" fun q =>
        (if p.inst = .jump then " -> " else ", -> ") ++ q.target.name := by
    rw [target?, List.getLast?_filter]
    cases branches.reverse.find? (·.index = i) with
    | none => rfl
    | some q => cases p.inst <;> simp [Row.arrow, Inst.isJump]
  -- a line is shown if it is asked for and known
  have hRemark : (if withLines then Row.remark p.line else "") =
      if withLines = true ∧ p.line.number ≠ 0 then "    ; line " ++ p.line.number.toNat.repr
        else "" := by
    cases withLines with
    | false => rfl
    | true =>
      by_cases hKnown : p.line.number = 0
      · simp [Row.remark, Line.isKnown, hKnown]
      · simp [Row.remark, Line.isKnown, Line.text, hKnown, ← String.append_assoc]
  rw [Row.text, hTarget, hRemark, instructionText]

theorem join_labels (starts : List BlockStart) (withLines : Bool) :
    String.join ((starts.map (Row.label ·.block)).map (Row.text withLines)) = labelText starts := by
  rw [List.map_map, labelText]
  rfl

/-- The rows from an instruction on: before each instruction the labels that
its index is the first to reach, and behind the last one the others. -/
theorem join_rowsFrom (branches : List PendingBranch) (withLines : Bool) (i : Nat)
    (starts : List BlockStart) (code : List Placed) :
    String.join ((rowsFrom branches i starts code).map (Row.text withLines)) =
      String.join (code.mapIdx fun d p =>
          labelText ((raisedFrom i starts).filter (·.index = i + d)) ++
            instructionText branches withLines (i + d) p) ++
        labelText ((raisedFrom i starts).filter (i + code.length ≤ ·.index)) := by
  induction code generalizing i starts with
  | nil =>
    -- no start lies below `i`, so all labels that are left stand here
    have hAll : (raisedFrom i starts).filter (i + 0 ≤ ·.index) = raisedFrom i starts :=
      List.filter_eq_self.mpr fun s hs => decide_eq_true (le_of_mem_raisedFrom hs)
    rw [rowsFrom, join_labels, List.length_nil, hAll, labelText, labelText,
      map_raisedFrom (·.name ++ ":\n")]
    simp
  | cons p code ih =>
    have hHere : labelText ((raisedFrom i starts).filter (·.index = i)) =
        labelText (starts.takeWhile (·.index ≤ i)) := by
      rw [filter_raisedFrom_here, labelText, labelText, List.map_map]
      rfl
    -- those whose turn has come are no labels of a later instruction
    have hLater : ∀ d, (raisedFrom i starts).filter (·.index = i + (d + 1)) =
        (raisedFrom (i + 1) (starts.dropWhile (·.index ≤ i))).filter (·.index = i + (d + 1)) :=
      fun d => filter_raisedFrom_later (P := (· = i + (d + 1))) (by omega)
    have hLast : (raisedFrom i starts).filter (i + (code.length + 1) ≤ ·.index) =
        (raisedFrom (i + 1) (starts.dropWhile (·.index ≤ i))).filter
          (i + (code.length + 1) ≤ ·.index) :=
      filter_raisedFrom_later (P := (i + (code.length + 1) ≤ ·)) (by omega)
    -- the rest counts from the next instruction
    have hRest := ih (i + 1) (starts.dropWhile (·.index ≤ i))
    have hShift : ∀ d, i + 1 + d = i + (d + 1) := fun d => by omega
    simp only [hShift] at hRest
    rw [rowsFrom, List.map_append, List.map_cons, String.join_append, String.join_cons,
      join_labels, text_code_eq_instructionText, hRest, List.mapIdx_cons, String.join_cons,
      List.length_cons]
    simp only [Nat.add_zero, hHere, hLater, hLast, String.append_assoc]

/-- **The rows keep all labels, in order**: each has as many instructions before
it as its raised start asks for, or all that there are. -/
theorem startsOf_rowsFrom_eq (branches : List PendingBranch) (i : Nat) (starts : List BlockStart)
    (code : List Placed) :
    startsOf i (rowsFrom branches i starts code) =
      (raisedFrom i starts).map fun s => ⟨s.block, min s.index (i + code.length)⟩ := by
  induction code generalizing i starts with
  | nil =>
    -- behind the code stand all labels that are left
    have hNone := startsOf_map_label (i := i) starts []
    rw [List.append_nil, startsOf, List.append_nil] at hNone
    rw [rowsFrom, hNone, ← map_raisedFrom (fun b => (⟨b, i⟩ : BlockStart)) i]
    refine List.map_congr_left fun s hs => ?_
    rw [List.length_nil, Nat.add_zero, Nat.min_eq_right (le_of_mem_raisedFrom hs)]
  | cons p code ih =>
    -- those whose turn has come stand here, and the rest behind this instruction
    have hShift : i + 1 + code.length = i + (code.length + 1) := by omega
    rw [rowsFrom, startsOf_map_label, startsOf, ih, raisedFrom_eq_append i, List.map_append,
      List.map_map, List.length_cons, hShift]
    refine congrArg (· ++ _) (List.map_congr_left fun s _ => ?_)
    simp

/-- Without labels, targets and remarks, rows show what is printed without them. -/
theorem join_bare (rows : List Row) :
    String.join (rows.map Row.bare) = Code.plain (rows.filterMap Row.placed?) := by
  induction rows with
  | nil => rfl
  | cons r rows ih =>
    rw [List.map_cons, String.join_cons, ih]
    -- a label is nothing then, and of an instruction only its own line is left
    cases r with
    | label b => exact String.empty_append
    | code p target =>
      have hHere : (Row.code p target :: rows).filterMap Row.placed? =
          p :: rows.filterMap Row.placed? := rfl
      rw [hHere, Code.plain, Code.plain, List.map_cons, String.join_cons, Row.bare]

/-! ## Listings -/

/-- **The text of a listing, for any code and tables.** Below the name stand all
instructions in order, each on its line, and before the one of index `i` the
labels whose raised start is `i`; labels raised beyond the code stand behind it.
So no label is left out or shown twice, and what the rows show of the code is
all that is printed without labels and targets. -/
theorem text_places (name : String) (code : List Placed) (branches : List PendingBranch)
    (starts : List BlockStart) (withLines : Bool) :
    text name (rows code branches starts) withLines =
        name ++ ":\n" ++
          String.join (code.mapIdx fun i p =>
            labelText ((raised starts).filter (·.index = i)) ++
              instructionText branches withLines i p) ++
          labelText ((raised starts).filter (code.length ≤ ·.index)) ∧
      startsOf 0 (rows code branches starts) =
        (raised starts).map (fun s => ⟨s.block, min s.index code.length⟩) ∧
      (rows code branches starts).filterMap Row.placed? = code ∧
      String.join ((rows code branches starts).map Row.bare) = Code.plain code := by
  refine ⟨?_, ?_, placed_rowsFrom, ?_⟩
  · -- each part is that of the rows, from the beginning on
    have hRows := join_rowsFrom branches withLines 0 starts code
    simp only [Nat.zero_add, raisedFrom_zero] at hRows
    rw [text, rows, hRows, String.append_assoc, String.append_assoc, String.append_assoc]
  · have hStarts := startsOf_rowsFrom_eq branches 0 starts code
    rwa [Nat.zero_add, raisedFrom_zero] at hStarts
  · have hCode : (rows code branches starts).filterMap Row.placed? = code := placed_rowsFrom
    rw [join_bare, hCode]

/-- A label that is behind an earlier one waits for it, and the last branch of an index tells the
target. -/
example : text "f" (rows [⟨.jump, ⟨2⟩⟩, ⟨.ret, .unknown⟩] [⟨0, 3⟩, ⟨0, 4⟩]
      [⟨0, 1⟩, ⟨1, 0⟩, ⟨2, 5⟩]) true =
    "f:\n    JMP -> b4    ; line 2\nb0:\nb1:\n    RET\nb2:\n" := by decide

end Listing

end RiscvLowering
