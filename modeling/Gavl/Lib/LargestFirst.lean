import Mathlib.Data.List.Sort
import Mathlib.Tactic

/-!
# The largest first

A list sorted by falling weight, ties in the order they came. No choice of `n` members weighs more
than the first `n`.
-/

namespace LargestFirst

variable {α : Type*} {f : α → ℕ} {l s : List α}

/-- The members, the heaviest first. -/
def largestFirst (f : α → ℕ) (l : List α) : List α := l.insertionSort (fun a b => f b ≤ f a)

theorem largestFirst_perm (f : α → ℕ) (l : List α) : (largestFirst f l).Perm l :=
  List.perm_insertionSort _ l

theorem pairwise_largestFirst (f : α → ℕ) (l : List α) :
    (largestFirst f l).Pairwise (fun a b => f b ≤ f a) := by
  have htotal : Std.Total (fun a b => f b ≤ f a) := ⟨fun a b => le_total (f b) (f a)⟩
  have htrans : IsTrans α (fun a b => f b ≤ f a) := ⟨fun a b c hab hbc => le_trans hbc hab⟩
  exact List.pairwise_insertionSort _ l

/-- What comes after the first `n` weighs no more than what comes before. -/
theorem sum_take_le_cons {a : α} (h : ∀ b ∈ l, f b ≤ f a) (n : ℕ) :
    ((l.take n).map f).sum ≤ (((a :: l).take n).map f).sum := by
  cases n with
  | zero => rfl
  | succ n =>
    rw [List.take_succ_cons, List.map_cons, List.sum_cons]
    rcases Nat.lt_or_ge n l.length with hn | hn
    · rw [List.take_succ_eq_append_getElem hn, List.map_append, List.sum_append, List.map_singleton,
        List.sum_singleton]
      have := h l[n] (List.getElem_mem hn)
      omega
    · rw [List.take_of_length_le hn, List.take_of_length_le (by omega)]
      exact Nat.le_add_left _ _

/-- Out of a falling list, the first members are the best choice. -/
theorem sum_le_sum_take (hs : s.Sublist l) (hl : l.Pairwise (fun a b => f b ≤ f a)) :
    (s.map f).sum ≤ ((l.take s.length).map f).sum := by
  induction hs with
  | slnil => rfl
  | @cons s l a _ ih =>
    obtain ⟨ha, hl⟩ := List.pairwise_cons.mp hl
    exact le_trans (ih hl) (sum_take_le_cons ha _)
  | @cons_cons s l a _ ih =>
    obtain ⟨-, hl⟩ := List.pairwise_cons.mp hl
    rw [List.length_cons, List.take_succ_cons, List.map_cons, List.map_cons, List.sum_cons,
      List.sum_cons]
    exact Nat.add_le_add_left (ih hl) _

/-- **No choice of members weighs more than as many of the largest.** -/
theorem sum_le_sum_largestFirst (hs : s.Subperm l) :
    (s.map f).sum ≤ (((largestFirst f l).take s.length).map f).sum := by
  obtain ⟨s', hperm, hsub⟩ := hs.trans (largestFirst_perm f l).symm.subperm
  rw [← (hperm.map f).sum_eq, ← hperm.length_eq]
  exact sum_le_sum_take hsub (pairwise_largestFirst f l)

end LargestFirst
