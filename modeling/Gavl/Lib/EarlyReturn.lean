import Mathlib.Tactic

/-!
# Programs that return early

A program in `Except ε` that stops with a state of `ε` or goes on with a value. `Ends` says what
holds of either; the rules compose it along the program.
-/

namespace EarlyReturn

universe u

variable {ε : Type*} {α β : Type u} {S : ε → Prop} {Q Q' : α → Prop} {R : β → Prop} {x : Except ε α}

/-- Stopped, it meets `S`; gone on, `Q`. -/
def Ends (x : Except ε α) (S : ε → Prop) (Q : α → Prop) : Prop :=
  (∀ e, x = .error e → S e) ∧ ∀ a, x = .ok a → Q a

theorem ends_ok {a : α} : Ends (.ok a) S Q ↔ Q a := by simp [Ends]

theorem ends_error {e : ε} : Ends (.error e : Except ε α) S Q ↔ S e := by simp [Ends]

theorem ends_pure {a : α} : Ends (pure a : Except ε α) S Q ↔ Q a := ends_ok

theorem Ends.mono (h : Ends x S Q) (hQ : ∀ a, Q a → Q' a) : Ends x S Q' :=
  ⟨h.1, fun a ha => hQ a (h.2 a ha)⟩

theorem Ends.bind {f : α → Except ε β} (h : Ends x S Q) (hf : ∀ a, Q a → Ends (f a) S R) :
    Ends (x >>= f) S R := by
  cases x with
  | error e => exact ends_error.mpr (h.1 e rfl)
  | ok a => exact hf a (h.2 a rfl)

end EarlyReturn
