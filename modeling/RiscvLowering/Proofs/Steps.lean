import RiscvLowering.Proofs.Basic
import RiscvLowering.Proofs.Pieces

/-!
# Steps — what a step does by itself, and how a run of steps ends

What a step leaves behind and how it ends does not depend on the steps before
it, so it can be said of a session that has done nothing yet: `Func.alone`. A
run of steps ends as the first of its steps that fails by itself.

Main results:

* `piece_alone`, `end_alone` — a step by itself leaves the piece behind that it
  adds to any run, and ends as it does there.
* `runPiece_flatMap_eq_ok_iff` — a run of steps in groups succeeds exactly if
  every group does.
* `runPiece_flatMap_eq_error_iff` — it fails as the first group that fails.
-/

namespace RiscvLowering

/-- A session that has done nothing yet. -/
def Session.fresh (f : Func) (options : Options) : Session := { func := f, options }

@[simp]
theorem Session.piece_fresh (f : Func) (options : Options) :
    (Session.fresh f options).piece = {} := rfl

namespace Func

/-- What a step does by itself. -/
def alone (f : Func) (options : Options) (x : Step) : Session × Except LoweringError Unit :=
  (Session.fresh f options).step x

variable {f : Func} {options : Options}

/-- A step by itself leaves the piece behind that it adds to any run. -/
theorem piece_alone (f : Func) (options : Options) (x : Step) :
    (f.alone options x).1.piece = (f.stepPiece options x).1 := by
  have hPiece := ((Session.fresh f options).step_adds x).1.piece
  rwa [Session.piece_fresh, Piece.empty_append] at hPiece

/-- A step by itself ends as it ends in any run. -/
theorem end_alone (f : Func) (options : Options) (x : Step) :
    (f.alone options x).2 = (f.stepPiece options x).2 :=
  ((Session.fresh f options).step_adds x).2

/-! ## How runs end -/

/-- Steps after steps end as the second do, if the first do not fail. -/
theorem end_runPiece_append (xs ys : List Step) :
    (f.runPiece options (xs ++ ys)).2 =
      (f.runPiece options xs).2 >>= fun _ => (f.runPiece options ys).2 := by
  rw [runPiece_append]
  rcases f.runPiece options xs with ⟨p, (e | ⟨⟩)⟩ <;> rfl

/-- A step ends in a run as it does by itself. -/
theorem end_runPiece_singleton (x : Step) :
    (f.runPiece options [x]).2 = (f.alone options x).2 := by
  rw [runPiece, end_alone]
  rcases f.stepPiece options x with ⟨p, (e | ⟨⟩)⟩ <;> rfl

section Groups

variable {α : Type} {xs : List α} {steps : α → List Step}

/-- Steps in groups succeed exactly if every group does. -/
theorem runPiece_flatMap_eq_ok_iff :
    (f.runPiece options (xs.flatMap steps)).2 = .ok () ↔
      ∀ x ∈ xs, (f.runPiece options (steps x)).2 = .ok () := by
  -- over the groups: a run joins the runs of its groups
  induction xs with
  | nil => simp [runPiece]
  | cons x xs ih =>
    rw [List.flatMap_cons, end_runPiece_append, List.forall_mem_cons, bind_eq_ok_iff, ih]
    constructor
    · rintro ⟨⟨⟩, hFirst, hRest⟩
      exact ⟨hFirst, hRest⟩
    · rintro ⟨hFirst, hRest⟩
      exact ⟨(), hFirst, hRest⟩

/-- **Steps in groups fail as the first group that fails.** -/
theorem runPiece_flatMap_eq_error_iff {e : LoweringError} :
    (f.runPiece options (xs.flatMap steps)).2 = .error e ↔
      ∃ (k : Nat) (x : α), xs[k]? = some x ∧
        (∀ y ∈ xs.take k, (f.runPiece options (steps y)).2 = .ok ()) ∧
        (f.runPiece options (steps x)).2 = .error e := by
  induction xs with
  | nil => simp [runPiece]
  | cons x xs ih =>
    rw [List.flatMap_cons, end_runPiece_append]
    cases hFirst : (f.runPiece options (steps x)).2 with
    | error e' =>
      -- no group behind the first is reached
      rw [show (Except.error e' >>= fun _ => (f.runPiece options (xs.flatMap steps)).2) =
        .error e' from rfl]
      constructor
      · intro hEnd
        exact ⟨0, x, rfl, by simp, hFirst.trans hEnd⟩
      · rintro ⟨k, y, hy, hBefore, hEnd⟩
        cases k with
        | zero =>
          obtain rfl := Option.some.inj hy
          exact hFirst.symm.trans hEnd
        | succ k =>
          have hOk := hBefore x (by simp)
          rw [hFirst] at hOk
          simp at hOk
    | ok _ =>
      rw [ok_bind, ih]
      constructor
      · rintro ⟨k, y, hy, hBefore, hEnd⟩
        refine ⟨k + 1, y, hy, ?_, hEnd⟩
        rw [List.take_succ_cons]
        exact List.forall_mem_cons.mpr ⟨hFirst, hBefore⟩
      · rintro ⟨k, y, hy, hBefore, hEnd⟩
        cases k with
        | zero =>
          -- the first group does not fail
          obtain rfl := Option.some.inj hy
          rw [hFirst] at hEnd
          simp at hEnd
        | succ k =>
          rw [List.take_succ_cons] at hBefore
          exact ⟨k, y, hy, (List.forall_mem_cons.mp hBefore).2, hEnd⟩

end Groups

end Func

end RiscvLowering
