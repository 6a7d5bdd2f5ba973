import Mathlib.Tactic

/-!
# Runs of a transition function

A system given by `step : σ → ι → σ`, run over a list of inputs. The rules turn what one step
does into what a run does: an invariant, an invariant under a condition on the steps, and a
property that a run keeps exactly when each of its steps meets a condition.
-/

namespace Runs

variable {σ ι : Type*} {step : σ → ι → σ} {s : σ}

/-- The state after the inputs. -/
def run (step : σ → ι → σ) (s : σ) (l : List ι) : σ := l.foldl step s

/-- Every step of the run meets `cond`, a condition on the state before it and its input. -/
def Along (step : σ → ι → σ) (cond : σ → ι → Prop) : σ → List ι → Prop
  | _, [] => True
  | s, i :: l => cond s i ∧ Along step cond (step s i) l

instance decidableAlong {cond : σ → ι → Prop} [∀ s i, Decidable (cond s i)] (s : σ) :
    (l : List ι) → Decidable (Along step cond s l)
  | [] => isTrue trivial
  | i :: l => @instDecidableAnd _ _ _ (decidableAlong (step s i) l)

@[simp] theorem run_nil (s : σ) : run step s [] = s := rfl

@[simp] theorem run_cons (s : σ) (i : ι) (l : List ι) :
    run step s (i :: l) = run step (step s i) l := rfl

theorem run_append (s : σ) (l l' : List ι) :
    run step s (l ++ l') = run step (run step s l) l' := List.foldl_append

@[simp] theorem along_nil {cond : σ → ι → Prop} : Along step cond s [] := trivial

theorem along_cons {cond : σ → ι → Prop} {i : ι} {l : List ι} :
    Along step cond s (i :: l) ↔ cond s i ∧ Along step cond (step s i) l := Iff.rfl

theorem along_append {cond : σ → ι → Prop} {l l' : List ι} :
    Along step cond s (l ++ l') ↔ Along step cond s l ∧ Along step cond (run step s l) l' := by
  induction l generalizing s with
  | nil => simp
  | cons i l ih => rw [List.cons_append, along_cons, along_cons, ih, run_cons, and_assoc]

theorem along_and {cond cond' : σ → ι → Prop} {l : List ι} :
    Along step (fun s i => cond s i ∧ cond' s i) s l ↔ Along step cond s l ∧ Along step cond' s l := by
  induction l generalizing s with
  | nil => simp
  | cons i l ih =>
    rw [along_cons, along_cons, along_cons, ih]
    exact and_and_and_comm

/-- A condition that every step meets holds along every run. -/
theorem along_of_forall {cond : σ → ι → Prop} (h : ∀ s i, cond s i) (s : σ) (l : List ι) :
    Along step cond s l := by
  induction l generalizing s with
  | nil => exact along_nil
  | cons i l ih => exact ⟨h s i, ih (step s i)⟩

/-- Two conditions that mean the same at every step hold along the same runs. -/
theorem along_congr {cond cond' : σ → ι → Prop} (h : ∀ s i, cond s i ↔ cond' s i) (s : σ)
    (l : List ι) : Along step cond s l ↔ Along step cond' s l := by
  induction l generalizing s with
  | nil => simp
  | cons i l ih => rw [along_cons, along_cons, h s i, ih]

/-- Where an invariant makes a condition imply another, so do they along a run. -/
theorem along_of_inv {cond cond' : σ → ι → Prop} (Inv : σ → Prop)
    (hinv : ∀ s i, Inv s → Inv (step s i)) (h : ∀ s i, Inv s → cond s i → cond' s i) (hs : Inv s)
    {l : List ι} (hl : Along step cond s l) : Along step cond' s l := by
  induction l generalizing s with
  | nil => exact along_nil
  | cons i l ih => exact ⟨h s i hs hl.1, ih (hinv s i hs) hl.2⟩

/-- An invariant of the steps that meet a condition holds after every run of such steps. -/
theorem inv_of_along {Inv : σ → Prop} {cond : σ → ι → Prop}
    (hstep : ∀ s i, Inv s → cond s i → Inv (step s i)) (hs : Inv s) {l : List ι}
    (hl : Along step cond s l) : Inv (run step s l) := by
  induction l generalizing s with
  | nil => exact hs
  | cons i l ih => exact ih (hstep s i hs hl.1) hl.2

/-- An invariant of every step holds after every run. -/
theorem inv_run (Inv : σ → Prop) (hstep : ∀ s i, Inv s → Inv (step s i)) (hs : Inv s)
    (l : List ι) : Inv (run step s l) := by
  induction l generalizing s with
  | nil => exact hs
  | cons i l ih => exact ih (hstep s i hs)

/-- A relation that every step keeps holds after every run of two systems over the same inputs. -/
theorem rel_run {τ : Type*} {step' : τ → ι → τ} (R : σ → τ → Prop)
    (hstep : ∀ s t i, R s t → R (step s i) (step' t i)) {t : τ} (h : R s t) (l : List ι) :
    R (run step s l) (run step' t l) := by
  induction l generalizing s t with
  | nil => exact h
  | cons i l ih => exact ih (hstep s t i h)

/-- A property that a step keeps exactly when it meets `cond` survives a run exactly when
every step of the run does. -/
theorem good_run_iff (Inv : σ → Prop) {Good : σ → Prop} {cond : σ → ι → Prop}
    (hinv : ∀ s i, Inv s → Inv (step s i))
    (hstep : ∀ s i, Inv s → (Good (step s i) ↔ Good s ∧ cond s i)) (hs : Inv s) (l : List ι) :
    Good (run step s l) ↔ Good s ∧ Along step cond s l := by
  induction l generalizing s with
  | nil => simp
  | cons i l ih => rw [run_cons, ih (hinv s i hs), hstep s i hs, along_cons, and_assoc]

/-- A property that a step from a good state keeps exactly when it meets `cond` holds in every state
of a run exactly when every step of the run does. -/
theorem forall_prefix_iff (Inv : σ → Prop) {Good : σ → Prop} {cond : σ → ι → Prop}
    (hstep : ∀ s i, Inv s → Good s → Inv (step s i) ∧ (Good (step s i) ↔ cond s i)) (hs : Inv s)
    (hgood : Good s) (l : List ι) :
    (∀ pre, pre <+: l → Good (run step s pre)) ↔ Along step cond s l := by
  induction l generalizing s with
  | nil =>
    simp only [List.prefix_nil, forall_eq, run_nil, along_nil, iff_true]
    exact hgood
  | cons i l ih =>
    obtain ⟨hinv, hiff⟩ := hstep s i hs hgood
    rw [along_cons, ← hiff]
    constructor
    · intro h
      have hnext : Good (step s i) := h [i] ⟨l, rfl⟩
      exact ⟨hnext, (ih hinv hnext).mp fun pre hpre =>
        h (i :: pre) (List.cons_prefix_cons.mpr ⟨rfl, hpre⟩)⟩
    · rintro ⟨hnext, hrest⟩ pre hpre
      cases pre with
      | nil => exact hgood
      | cons j pre =>
        obtain ⟨rfl, hle⟩ := List.cons_prefix_cons.mp hpre
        exact (ih hinv hnext).mpr hrest pre hle

end Runs
