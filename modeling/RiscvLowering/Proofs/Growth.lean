import RiscvLowering.Command.Demo
import RiscvLowering.Proofs.Calls
import RiscvLowering.Proofs.Decisions

/-!
# Growth — what holds of a session whatever is called

An index into the code is handed out long before the code is complete, and the
patcher that comes last relies on it. So whatever calls a session gets, in any
order, failing or not, nothing that it holds is ever moved, altered or dropped;
and what it holds is in order.

Main results:

* `orderly_callPiece` — what one call adds is in order.
* `exists_calls_adds` — so is what calls add, one after another.
* `calls_starts` — a session starts a block where its code ended at the call.
* `sessions_only_grow` — what is known of a session after any calls, and of the
  sessions that come of it.
-/

namespace RiscvLowering

/-! ## Indices in order -/

/-- The members have indices in order by `rel`, and so has the end. -/
structure InOrder {α : Type} (index : α → Nat) (rel : Nat → Nat → Prop) (stop : Nat)
    (xs : List α) : Prop where
  pairwise : xs.Pairwise fun x y => rel (index x) (index y)
  before : ∀ x ∈ xs, rel (index x) stop

namespace InOrder

variable {α : Type} {index : α → Nat} {rel : Nat → Nat → Prop} {m n : Nat} {xs ys : List α}

theorem nil : InOrder index rel n [] := ⟨.nil, by simp⟩

theorem singleton {x : α} (h : rel (index x) n) : InOrder index rel n [x] :=
  ⟨List.pairwise_singleton _ _, by simpa using h⟩

/-- Members in order stay so when others in order, moved behind their end, follow. -/
theorem append {shift : Nat → α → α} (hIndex : ∀ n x, index (shift n x) = n + index x)
    (hMono : ∀ {i j k}, rel i j → j ≤ k → rel i k)
    (hShift : ∀ {n i j}, rel i j → rel (n + i) (n + j))
    (hx : InOrder index rel m xs) (hy : InOrder index rel n ys) :
    InOrder index rel (m + n) (xs ++ ys.map (shift m)) where
  pairwise := by
    refine List.pairwise_append.mpr ⟨hx.pairwise, ?_, ?_⟩
    · refine List.pairwise_map.mpr (hy.pairwise.imp fun h => ?_)
      rw [hIndex, hIndex]
      exact hShift h
    · -- what was there before stands before the old end, and the rest behind it
      intro x hxs y hys
      obtain ⟨y, -, rfl⟩ := List.mem_map.mp hys
      rw [hIndex]
      exact hMono (hx.before x hxs) (Nat.le_add_right _ _)
  before := by
    intro x hxs
    rcases List.mem_append.mp hxs with hxs | hxs
    · exact hMono (hx.before x hxs) (Nat.le_add_right _ _)
    · obtain ⟨y, hys, rfl⟩ := List.mem_map.mp hxs
      rw [hIndex]
      exact hShift (hy.before y hys)

end InOrder

/-! ## Pieces in order -/

namespace Piece

/-- The tables of the piece are in order: its pending branches are different
instructions of its code, and no start and no mark lies behind the code. Where
gaps are errors, it has none. -/
structure Orderly (options : Options) (p : Piece) : Prop where
  branches : InOrder PendingBranch.index (· < ·) p.code.length p.branches
  starts : InOrder BlockStart.index (· ≤ ·) p.code.length p.starts
  marks : InOrder Mark.index (· ≤ ·) p.code.length p.marks
  gaps : options.failOnGap = true → p.gaps = []

variable {options : Options} {p q : Piece} {line : Line}

theorem orderly_empty : ({} : Piece).Orderly options := ⟨.nil, .nil, .nil, fun _ => rfl⟩

/-- A piece behind a piece is in order if both are, as the second moves behind the first. -/
theorem Orderly.append (hp : p.Orderly options) (hq : q.Orderly options) :
    (p ++ q).Orderly options where
  -- a branch is below the code of its piece, so below what the next piece is moved by
  branches := by
    rw [code_append, List.length_append]
    exact hp.branches.append (fun _ _ => rfl) Nat.lt_of_lt_of_le
      (fun h => Nat.add_lt_add_left h _) hq.branches
  starts := by
    rw [code_append, List.length_append]
    exact hp.starts.append (fun _ _ => rfl) Nat.le_trans
      (fun h => Nat.add_le_add_left h _) hq.starts
  marks := by
    rw [code_append, List.length_append]
    exact hp.marks.append (fun _ _ => rfl) Nat.le_trans
      (fun h => Nat.add_le_add_left h _) hq.marks
  gaps := fun h => by rw [gaps_append, hp.gaps h, hq.gaps h, List.append_nil]

/-- An action leaves at most one entry behind, at the beginning of its piece, so there is nothing to
order. -/
theorem orderly_ofAction {a : Action} (hGap : ∀ g, a = .gap g → options.failOnGap = false) :
    (ofAction line a).Orderly options := by
  -- only a gap has to be told something of the options
  cases a with
  | emit inst => exact ⟨.nil, .nil, .nil, fun _ => rfl⟩
  | branch inst target => exact ⟨.singleton Nat.zero_lt_one, .nil, .nil, fun _ => rfl⟩
  | gap g => exact ⟨.nil, .nil, .nil, fun h => by simp [hGap g rfl] at h⟩
  | mark kind var => exact ⟨.nil, .nil, .singleton (Nat.le_refl 0), fun _ => rfl⟩
  | note n => exact orderly_empty

/-- Actions leave orderly pieces behind, unless they pass a gap where gaps are errors. -/
theorem orderly_ofActions {actions : List Action}
    (hGap : ∀ g, .gap g ∈ actions → options.failOnGap = false) :
    (ofActions line actions).Orderly options := by
  -- the first action has its own piece, and the others the rest
  induction actions with
  | nil => exact orderly_empty
  | cons a as ih =>
    refine (orderly_ofAction fun g hg => hGap g ?_).append (ih fun g hg => hGap g ?_)
    · rw [hg]
      exact List.mem_cons_self
    · exact List.mem_cons_of_mem a hg

theorem orderly_ofDecision {d : Except LoweringError (List Action)}
    (hGap : ∀ actions g, d = .ok actions → .gap g ∈ actions → options.failOnGap = false) :
    (ofDecision line d).1.Orderly options := by
  cases d with
  | ok actions => exact orderly_ofActions fun g => hGap actions g rfl
  | error e => exact orderly_empty

end Piece

namespace Func

/-- No gap is among the actions that leave a block. -/
theorem Leaves.gap_not_mem {f : Func} {b : Block} {next : Option BlockId}
    {actions : List Action} (h : f.Leaves b next actions) (g : Gap) : .gap g ∉ actions := by
  -- a block is left by instructions, branches and notes only
  cases h with
  | goto =>
    rw [gotoActions]
    split <;> simp
  | exit => simp
  | ret => simp
  | branch =>
    rw [branchActions]
    split
    · simp
    · split <;> simp

/-- What a call adds is in order. -/
theorem orderly_callPiece (f : Func) (options : Options) (line : Line) (c : Call) :
    (f.callPiece options line c).1.Orderly options := by
  cases c with
  | value v => exact Piece.orderly_ofDecision fun actions g => failOnGap_of_gap_mem
  | terminator b next =>
    -- a terminator never has a gap, whatever the options
    refine Piece.orderly_ofDecision fun actions g hActions hg => ?_
    exact absurd hg ((lowerTerminator_eq_ok_iff.mp hActions).gap_not_mem g)
  | startBlock block => exact ⟨.nil, .singleton (Nat.le_refl 0), .nil, fun _ => rfl⟩
  | setLine line => exact Piece.orderly_empty
  | emit inst => exact Piece.orderly_ofAction (a := .emit inst) (by simp)
  | emitBranch inst target => exact Piece.orderly_ofAction (a := .branch inst target) (by simp)
  | gap g =>
    refine Piece.orderly_ofDecision fun actions g' hActions _ => ?_
    exact (gap_eq_ok_iff.mp hActions).1

end Func

/-! ## Sessions -/

namespace Session

/-- `s'` lowers the same function as `s` and holds all that `s` holds, in the
same places; what it holds more stands behind. -/
structure Extends (s s' : Session) : Prop where
  func : s'.func = s.func
  options : s'.options = s.options
  code : s.code.toList <+: s'.code.toList
  branches : s.branches.toList <+: s'.branches.toList
  starts : s.starts.toList <+: s'.starts.toList
  gaps : s.gaps.toList <+: s'.gaps.toList
  marks : s.marks.toList <+: s'.marks.toList

variable {s s' : Session}

/-- What a session adds to what it holds takes nothing away. -/
theorem Adds.extends {p : Piece} (h : s.Adds s' p) : s.Extends s' where
  func := h.func
  options := h.options
  code := ⟨_, (congrArg Piece.code h.piece).symm⟩
  branches := ⟨_, (congrArg Piece.branches h.piece).symm⟩
  starts := ⟨_, (congrArg Piece.starts h.piece).symm⟩
  gaps := ⟨_, (congrArg Piece.gaps h.piece).symm⟩
  marks := ⟨_, (congrArg Piece.marks h.piece).symm⟩

/-- An instruction stays at the index that was handed out for it. -/
theorem Extends.getElem?_code (h : s.Extends s') {i : Nat} {p : Placed}
    (hp : s.code[i]? = some p) : s'.code[i]? = some p := by
  rw [← Array.getElem?_toList] at hp ⊢
  -- the code of the later session begins with that of the earlier one
  obtain ⟨more, hMore⟩ := h.code
  rw [← hMore, List.getElem?_append_left (List.getElem?_eq_some_iff.mp hp).1, hp]

/-- What calls add, one after another, is in order. -/
theorem exists_calls_adds (s : Session) (cs : List Call) :
    ∃ p : Piece, s.Adds (s.calls cs) p ∧ p.Orderly s.options := by
  -- by the calls, from any session: each adds a piece in order, and joined
  -- pieces in order are in order
  induction cs generalizing s with
  | nil => exact ⟨{}, ⟨rfl, rfl, (Piece.append_empty _).symm⟩, Piece.orderly_empty⟩
  | cons c cs ih =>
    have hFirst := (s.call_adds c).1
    obtain ⟨p, hRest, hOrderly⟩ := ih (s.call c).1
    rw [hFirst.options] at hOrderly
    exact ⟨_, hFirst.trans hRest, (s.func.orderly_callPiece _ _ c).append hOrderly⟩

end Session

/-! ## Starts -/

/-- The start that a call records, if the code ends at `size`. -/
def Call.starts (size : Nat) : Call → List BlockStart
  | startBlock block => [⟨block, size⟩]
  | _ => []

namespace Session

/-- The starts that calls record: each at the end of the code at that call. -/
def startsOf (s : Session) : List Call → List BlockStart
  | [] => []
  | c :: cs => c.starts s.code.size ++ (s.call c).1.startsOf cs

/-- A call starts a block where the code ends, if it starts one at all. -/
theorem starts_callPiece (s : Session) (c : Call) :
    (s.func.callPiece s.options s.line c).1.starts.map (.shift s.code.size) =
      c.starts s.code.size := by
  -- lowering starts no block; only the call for that does
  cases c with
  | value | terminator | gap => simp [Func.callPiece, Piece.starts_ofDecision, Call.starts]
  | startBlock => simp [Func.callPiece, Call.starts, BlockStart.shift]
  | setLine | emit | emitBranch => simp [Func.callPiece, Piece.ofAction, Call.starts]

/-- A session starts a block where its code ended at the call. -/
theorem calls_starts (s : Session) (cs : List Call) :
    (s.calls cs).starts.toList = s.starts.toList ++ s.startsOf cs := by
  induction cs generalizing s with
  | nil => simp [calls, startsOf]
  | cons c cs ih =>
    -- the code may have grown by the next call, so each start is counted from its own
    have hFirst : (s.call c).1.starts.toList = s.starts.toList ++ c.starts s.code.size := by
      rw [← starts_callPiece]
      exact congrArg Piece.starts (s.call_adds c).1.piece
    rw [calls, ih, hFirst, startsOf, List.append_assoc]

/-- An emission answers the index at which the instruction stands from then on. -/
theorem call_emit (s : Session) (inst : Inst) :
    (s.call (.emit inst)).2 = .ok (some s.code.size) ∧
      (s.call (.emit inst)).1.code[s.code.size]? = some ⟨inst, s.line⟩ :=
  ⟨rfl, Array.getElem?_push_size⟩

/-- The index that is handed out for a branch is that of the instruction. -/
theorem call_emitBranch (s : Session) (inst : Inst) (target : BlockId) :
    (s.call (.emitBranch inst target)).2 = .ok (some s.code.size) ∧
      (s.call (.emitBranch inst target)).1.code[s.code.size]? = some ⟨inst, s.line⟩ :=
  ⟨rfl, Array.getElem?_push_size⟩

end Session

/-- **Sessions only grow.** Whatever was called, what a session holds is in
order, its starts are where the code ended when they were recorded, and an
emission answers the index of its instruction. Whatever is called then, nothing
of it is moved, altered or dropped. -/
theorem sessions_only_grow (f : Func) (options : Options) (cs : List Call) :
    let s := (Session.fresh f options).calls cs
    s.piece.Orderly options ∧
    s.starts.toList = (Session.fresh f options).startsOf cs ∧
    (∀ inst, (s.call (.emit inst)).2 = .ok (some s.code.size) ∧
      (s.call (.emit inst)).1.code[s.code.size]? = some ⟨inst, s.line⟩) ∧
    (∀ inst target, (s.call (.emitBranch inst target)).2 = .ok (some s.code.size) ∧
      (s.call (.emitBranch inst target)).1.code[s.code.size]? = some ⟨inst, s.line⟩) ∧
    ∀ ds, s.Extends (s.calls ds) ∧ ∀ (i : Nat) (p : Placed), s.code[i]? = some p →
      (s.calls ds).code[i]? = some p ∧ (s.calls ds).finish.code[i]? = some p := by
  intro s
  refine ⟨?_, ?_, s.call_emit, s.call_emitBranch, fun ds => ?_⟩
  · -- a session begins with nothing, so it holds the piece that its calls add
    obtain ⟨p, hAdds, hOrderly⟩ := (Session.fresh f options).exists_calls_adds cs
    have hPiece := hAdds.piece
    rw [Session.piece_fresh, Piece.empty_append] at hPiece
    rw [hPiece]
    exact hOrderly
  · exact (Session.fresh f options).calls_starts cs
  · obtain ⟨q, hMore, -⟩ := s.exists_calls_adds ds
    refine ⟨hMore.extends, fun i p hp => ?_⟩
    have hKept := hMore.extends.getElem?_code hp
    exact ⟨hKept, by rwa [← Array.getElem?_toList] at hKept⟩

/-- A jump that was emitted first stays the first instruction, on its own line. -/
theorem sessions_only_grow_max :
    let s := (Session.fresh Demo.max {}).calls [.setLine ⟨3⟩, .emitBranch .jump ⟨2⟩]
    s.code[0]? = some ⟨.jump, ⟨3⟩⟩ ∧
      (s.calls [.setLine ⟨4⟩, .startBlock ⟨2⟩, .emit .ret]).finish.code[0]? =
        some ⟨.jump, ⟨3⟩⟩ := by
  intro s
  obtain ⟨-, -, -, -, hLater⟩ :=
    sessions_only_grow Demo.max {} [.setLine ⟨3⟩, .emitBranch .jump ⟨2⟩]
  exact ⟨rfl, ((hLater _).2 0 _ rfl).2⟩

end RiscvLowering
