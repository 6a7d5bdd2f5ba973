import Mathlib.Data.List.TakeWhile
import Mathlib.Tactic

/-!
# Walks along parent links

Nodes that each point to at most one parent: the shape of a block tree seen from its tips.
`walk parent n a` follows the links from `a` for at most `n` nodes. `Anc parent a b` says that
`b` is `a` or is reached from it.

A height that falls by one along every link (`Graded`) makes the walks finite: from a node of
height `h`, `h + 1` nodes are all there are, and two ancestors of one node are comparable.
-/

namespace ParentWalk

variable {α : Type*} {parent : α → Option α}

/-- The node, its parent, its grandparent, ..., at most `n` of them. -/
def walk (parent : α → Option α) : ℕ → α → List α
  | 0, _ => []
  | n + 1, a =>
    a :: match parent a with
      | none => []
      | some p => walk parent n p

/-- `Anc parent a b`: `b` is `a` or one of its ancestors. -/
inductive Anc (parent : α → Option α) : α → α → Prop where
  | refl (a : α) : Anc parent a a
  | step {a p b : α} : parent a = some p → Anc parent p b → Anc parent a b

/-- Heights that fall by one along every link out of the nodes of `S`, which is closed under
parents. -/
structure Graded (parent : α → Option α) (height : α → ℕ) (S : α → Prop) : Prop where
  closed : ∀ a p, S a → parent a = some p → S p
  height_eq : ∀ a p, S a → parent a = some p → height p + 1 = height a

/-! ## Walks -/

@[simp] theorem walk_zero (a : α) : walk parent 0 a = [] := rfl

theorem walk_succ (n : ℕ) (a : α) :
    walk parent (n + 1) a = a :: (parent a).elim [] (walk parent n) := by
  rw [walk]
  cases parent a <;> rfl

theorem walk_succ_none {n : ℕ} {a : α} (h : parent a = none) : walk parent (n + 1) a = [a] := by
  rw [walk_succ, h]; rfl

theorem walk_succ_some {n : ℕ} {a p : α} (h : parent a = some p) :
    walk parent (n + 1) a = a :: walk parent n p := by
  rw [walk_succ, h]; rfl

/-- Everything a walk visits is an ancestor of its start. -/
theorem anc_of_mem_walk {n : ℕ} : ∀ {a b : α}, b ∈ walk parent n a → Anc parent a b := by
  induction n with
  | zero => intro a b h; simp at h
  | succ n ih =>
    intro a b h
    cases hp : parent a with
    | none =>
      rw [walk_succ_none hp, List.mem_singleton] at h
      subst h
      exact Anc.refl b
    | some p =>
      rw [walk_succ_some hp, List.mem_cons] at h
      rcases h with rfl | h
      · exact Anc.refl _
      · exact Anc.step hp (ih h)

/-- A walk depends on the links of the nodes it visits only. -/
theorem walk_congr {parent' : α → Option α} {n : ℕ} :
    ∀ {a : α}, (∀ b ∈ walk parent n a, parent' b = parent b) →
      walk parent' n a = walk parent n a := by
  induction n with
  | zero => intro a _; rfl
  | succ n ih =>
    intro a h
    have ha : parent' a = parent a := h a (by rw [walk_succ]; exact List.mem_cons_self)
    cases hp : parent a with
    | none => rw [walk_succ_none hp, walk_succ_none (ha.trans hp)]
    | some p =>
      rw [walk_succ_some hp, walk_succ_some (ha.trans hp)]
      rw [walk_succ_some hp] at h
      rw [ih (fun b hb => h b (List.mem_cons_of_mem _ hb))]

/-- A shorter walk is a prefix of a longer one. -/
theorem walk_take {n m : ℕ} (hnm : n ≤ m) : ∀ a : α, (walk parent m a).take n = walk parent n a := by
  induction n generalizing m with
  | zero => intro a; simp
  | succ n ih =>
    intro a
    obtain ⟨m, rfl⟩ : ∃ k, m = k + 1 := ⟨m - 1, by omega⟩
    cases hp : parent a with
    | none => rw [walk_succ_none hp, walk_succ_none hp, List.take_succ_cons, List.take_nil]
    | some p =>
      rw [walk_succ_some hp, walk_succ_some hp, List.take_succ_cons, ih (by omega)]

theorem length_walk_le (n : ℕ) : ∀ a : α, (walk parent n a).length ≤ n := by
  induction n with
  | zero => intro a; simp
  | succ n ih =>
    intro a
    rw [walk_succ, List.length_cons]
    cases hp : parent a with
    | none => simp
    | some p => simpa using ih p

/-- A walk that ends before its fuel does is the same with more fuel. -/
theorem walk_of_length_lt {n m : ℕ} (hnm : n ≤ m) :
    ∀ {a : α}, (walk parent n a).length < n → walk parent m a = walk parent n a := by
  induction n generalizing m with
  | zero => intro a h; omega
  | succ n ih =>
    intro a h
    obtain ⟨m, rfl⟩ : ∃ k, m = k + 1 := ⟨m - 1, by omega⟩
    cases hp : parent a with
    | none => rw [walk_succ_none hp, walk_succ_none hp]
    | some p =>
      rw [walk_succ_some hp, List.length_cons] at h
      rw [walk_succ_some hp, walk_succ_some hp, ih (by omega) (by omega)]

/-! ## Ancestors -/

namespace Anc

theorem trans {a b c : α} (hab : Anc parent a b) (hbc : Anc parent b c) : Anc parent a c := by
  induction hab with
  | refl a => exact hbc
  | step hp _ ih => exact Anc.step hp (ih hbc)

theorem of_parent {a p : α} (h : parent a = some p) : Anc parent a p := Anc.step h (Anc.refl p)

theorem cases_parent {a b : α} (h : Anc parent a b) :
    a = b ∨ ∃ p, parent a = some p ∧ Anc parent p b := by
  cases h with
  | refl => exact Or.inl rfl
  | step hp h => exact Or.inr ⟨_, hp, h⟩

/-- Links being functions, two ancestors of one node are comparable. -/
theorem total {a b c : α} (hb : Anc parent a b) (hc : Anc parent a c) :
    Anc parent b c ∨ Anc parent c b := by
  induction hb with
  | refl a => exact Or.inl hc
  | @step a p b hp hpb ih =>
    rcases hc.cases_parent with rfl | ⟨p', hp', hpc⟩
    · exact Or.inr (Anc.step hp hpb)
    · rw [hp] at hp'
      cases hp'
      exact ih hpc

/-- A node stays an ancestor when links are only added to nodes that had none. -/
theorem mono {parent' : α → Option α} (hext : ∀ a p, parent a = some p → parent' a = some p)
    {a b : α} (h : Anc parent a b) : Anc parent' a b := by
  induction h with
  | refl a => exact Anc.refl a
  | step hp _ ih => exact Anc.step (hext _ _ hp) ih

end Anc

/-! ## Graded nodes -/

section Graded

variable {height : α → ℕ} {S : α → Prop}

theorem Graded.mem_of_anc (hG : Graded parent height S) {a b : α} (ha : S a)
    (h : Anc parent a b) : S b := by
  induction h with
  | refl a => exact ha
  | step hp _ ih => exact ih (hG.closed _ _ ha hp)

theorem Graded.height_le (hG : Graded parent height S) {a b : α} (ha : S a)
    (h : Anc parent a b) : height b ≤ height a := by
  induction h with
  | refl a => exact le_rfl
  | step hp _ ih =>
    have h1 := hG.height_eq _ _ ha hp
    have h2 := ih (hG.closed _ _ ha hp)
    omega

/-- An ancestor of the same height is the node itself. -/
theorem Graded.eq_of_height_le (hG : Graded parent height S) {a b : α} (ha : S a)
    (h : Anc parent a b) (hle : height a ≤ height b) : a = b := by
  rcases h.cases_parent with rfl | ⟨p, hp, hpb⟩
  · rfl
  · have h1 := hG.height_eq _ _ ha hp
    have h2 := hG.height_le (hG.closed _ _ ha hp) hpb
    omega

/-- Of two ancestors of one node, the lower is an ancestor of the higher. -/
theorem Graded.anc_of_height_le (hG : Graded parent height S) {a b c : α} (ha : S a)
    (hb : Anc parent a b) (hc : Anc parent a c) (hle : height c ≤ height b) :
    Anc parent b c := by
  rcases hb.total hc with h | h
  · exact h
  · rw [hG.eq_of_height_le (hG.mem_of_anc ha hc) h hle]
    exact Anc.refl _

/-- An ancestor at height `h` or above is still reached where the links up to nodes that high
are kept. -/
theorem Graded.anc_restrict (hG : Graded parent height S) {parent' : α → Option α} {h : ℕ}
    (hkeep : ∀ a p, S a → parent a = some p → h ≤ height p → parent' a = some p) {a b : α}
    (ha : S a) (hab : Anc parent a b) (hb : h ≤ height b) : Anc parent' a b := by
  induction hab with
  | refl a => exact Anc.refl a
  | step hp hpb ih =>
    have hS := hG.closed _ _ ha hp
    have hle := hG.height_le hS hpb
    exact Anc.step (hkeep _ _ ha hp (le_trans hb hle)) (ih hS hb)

/-- `height + 1` nodes exhaust the walk: more fuel changes nothing. -/
theorem Graded.walk_eq (hG : Graded parent height S) {n : ℕ} :
    ∀ {a : α}, S a → height a + 1 ≤ n → walk parent n a = walk parent (height a + 1) a := by
  induction n with
  | zero => intro a _ h; omega
  | succ n ih =>
    intro a ha hn
    cases hp : parent a with
    | none => rw [walk_succ_none hp, walk_succ_none hp]
    | some p =>
      have h1 := hG.height_eq _ _ ha hp
      have hS := hG.closed _ _ ha hp
      rw [walk_succ_some hp, walk_succ_some hp, ih hS (by omega), ← h1]

/-- The full walk from a node is the node followed by the full walk from its parent. -/
theorem Graded.walk_cons (hG : Graded parent height S) {a p : α} (ha : S a)
    (hp : parent a = some p) :
    walk parent (height a + 1) a = a :: walk parent (height p + 1) p := by
  rw [walk_succ_some hp, ← hG.height_eq _ _ ha hp]

/-- Down to an ancestor, a walk is the same along any links that keep these. -/
theorem Graded.walk_eq_of_anc (hG : Graded parent height S) {parent' : α → Option α}
    (hext : ∀ a p, S a → parent a = some p → parent' a = some p) {a b : α} (ha : S a)
    (h : Anc parent a b) : ∀ {n : ℕ}, n + height b ≤ height a + 1 →
      walk parent' n a = walk parent n a := by
  induction h with
  | refl a =>
    intro n hn
    obtain rfl | rfl : n = 0 ∨ n = 1 := by omega
    · rfl
    · rw [walk_succ, walk_succ]
      cases parent a <;> cases parent' a <;> rfl
  | step hp _ ih =>
    intro n hn
    have h1 := hG.height_eq _ _ ha hp
    cases n with
    | zero => rfl
    | succ n =>
      rw [walk_succ_some hp, walk_succ_some (hext _ _ ha hp),
        ih (hG.closed _ _ ha hp) (by omega)]

/-- The full walk visits exactly the ancestors. -/
theorem Graded.mem_walk (hG : Graded parent height S) {a b : α} (ha : S a) :
    b ∈ walk parent (height a + 1) a ↔ Anc parent a b := by
  refine ⟨anc_of_mem_walk, fun h => ?_⟩
  induction h with
  | refl a => rw [walk_succ]; exact List.mem_cons_self
  | step hp _ ih =>
    rw [hG.walk_cons ha hp]
    exact List.mem_cons_of_mem _ (ih (hG.closed _ _ ha hp))

/-- Heights fall along a walk. -/
theorem Graded.pairwise_walk (hG : Graded parent height S) (n : ℕ) :
    ∀ {a : α}, S a → (walk parent n a).Pairwise (fun x y => height y < height x) := by
  induction n with
  | zero => intro a _; simp
  | succ n ih =>
    intro a ha
    cases hp : parent a with
    | none => rw [walk_succ_none hp]; exact List.pairwise_singleton _ _
    | some p =>
      have hS := hG.closed _ _ ha hp
      rw [walk_succ_some hp]
      refine List.pairwise_cons.mpr ⟨fun b hb => ?_, ih hS⟩
      have h1 := hG.height_eq _ _ ha hp
      have h2 := hG.height_le hS (anc_of_mem_walk hb)
      omega

theorem Graded.nodup_walk (hG : Graded parent height S) (n : ℕ) {a : α} (ha : S a) :
    (walk parent n a).Nodup :=
  (hG.pairwise_walk n ha).imp fun h heq => absurd h (by rw [heq]; exact lt_irrefl _)

/-- Where there are at most `n` nodes, `n + 1` is fuel enough. -/
theorem Graded.walk_of_card_le (hG : Graded parent height S) {n : ℕ}
    (hn : ∀ l : List α, l.Nodup → (∀ b ∈ l, S b) → l.length ≤ n) {a : α} (ha : S a) :
    walk parent (n + 1) a = walk parent (height a + 1) a := by
  have hlen : (walk parent (n + 1) a).length ≤ n :=
    hn _ (hG.nodup_walk _ ha) fun b hb => hG.mem_of_anc ha (anc_of_mem_walk hb)
  have h1 := walk_of_length_lt (m := max (n + 1) (height a + 1)) (le_max_left _ _)
    (Nat.lt_succ_of_le hlen)
  rw [← h1]
  exact hG.walk_eq ha (le_max_right _ _)

end Graded

/-! ## Links that agree above a height -/

/-- From the nodes of `V` higher than `h`, both links lead to the same node of `V`, one lower. -/
def AgreeAbove (parent parent' : α → Option α) (height : α → ℕ) (h : ℕ) (V : α → Prop) : Prop :=
  ∀ a, V a → h < height a →
    ∃ p, parent a = some p ∧ parent' a = some p ∧ V p ∧ height p + 1 = height a

namespace AgreeAbove

variable {parent' : α → Option α} {height : α → ℕ} {h : ℕ} {V S : α → Prop}

/-- Walks that stay above the height are the same, and stay within the agreed nodes. -/
theorem walk_eq (hA : AgreeAbove parent parent' height h V) :
    ∀ {n : ℕ} {a : α}, V a → n + h ≤ height a →
      walk parent' n a = walk parent n a ∧ ∀ b ∈ walk parent n a, V b ∧ h < height b := by
  intro n
  induction n with
  | zero =>
    intro a _ _
    exact ⟨rfl, fun b hb => absurd hb (by simp)⟩
  | succ n ih =>
    intro a ha hn
    obtain ⟨p, hp, hp', hV, hheight⟩ := hA a ha (by omega)
    obtain ⟨heq, hmem⟩ := ih hV (by omega)
    rw [walk_succ_some hp, walk_succ_some hp', heq]
    refine ⟨rfl, fun b hb => ?_⟩
    rcases List.mem_cons.mp hb with rfl | hb
    · exact ⟨ha, by omega⟩
    · exact hmem b hb

/-- So do ancestors. -/
theorem anc (hA : AgreeAbove parent parent' height h V) (hG : Graded parent height S) {a b : α}
    (hab : Anc parent a b) : V a → S a → h ≤ height b → Anc parent' a b ∧ V b := by
  induction hab with
  | refl a =>
    intro hV _ _
    exact ⟨Anc.refl a, hV⟩
  | step hp hpb ih =>
    intro hV hS hle
    have hlower := hG.height_le (hG.closed _ _ hS hp) hpb
    have hone := hG.height_eq _ _ hS hp
    obtain ⟨q, hq, hq', hVq, -⟩ := hA _ hV (by omega)
    rw [hp, Option.some.injEq] at hq
    subst hq
    obtain ⟨hanc, hVb⟩ := ih hVq (hG.closed _ _ hS hp) hle
    exact ⟨Anc.step hq' hanc, hVb⟩

end AgreeAbove

/-! ## Searching lists that start alike -/

/-- A search that succeeds within the common start finds the same. -/
theorem find?_eq_of_take {p q : α → Bool} {y : α} : ∀ {n : ℕ} {l l' : List α},
    l'.take n = l.take n → (∀ x ∈ l.take n, q x = p x) → y ∈ l.take n → p y = true →
      l'.find? q = l.find? p := by
  intro n
  induction n with
  | zero => intro l l' _ _ hy; simp at hy
  | succ n ih =>
    intro l l' htake hcongr hy hpy
    cases l with
    | nil => simp at hy
    | cons x xs =>
      cases l' with
      | nil => simp at htake
      | cons x' xs' =>
        simp only [List.take_succ_cons, List.cons.injEq] at htake
        obtain ⟨rfl, htake⟩ := htake
        have hx : q x' = p x' := hcongr x' (by simp)
        rw [List.find?_cons, List.find?_cons, hx]
        cases hpx : p x' with
        | true => rfl
        | false =>
          simp only [List.take_succ_cons, List.mem_cons] at hy hcongr
          rcases hy with rfl | hy
          · rw [hpy] at hpx
            exact absurd hpx (by simp)
          · exact ih htake (fun z hz => hcongr z (Or.inr hz)) hy hpy

/-- A prefix that ends within the common start is the same. -/
theorem takeWhile_eq_of_take {p q : α → Bool} {y : α} : ∀ {n : ℕ} {l l' : List α},
    l'.take n = l.take n → (∀ x ∈ l.take n, q x = p x) → y ∈ l.take n → p y = false →
      l'.takeWhile q = l.takeWhile p := by
  intro n
  induction n with
  | zero => intro l l' _ _ hy; simp at hy
  | succ n ih =>
    intro l l' htake hcongr hy hpy
    cases l with
    | nil => simp at hy
    | cons x xs =>
      cases l' with
      | nil => simp at htake
      | cons x' xs' =>
        simp only [List.take_succ_cons, List.cons.injEq] at htake
        obtain ⟨rfl, htake⟩ := htake
        have hx : q x' = p x' := hcongr x' (by simp)
        rw [List.takeWhile_cons, List.takeWhile_cons, hx]
        cases hpx : p x' with
        | false => rfl
        | true =>
          simp only [List.take_succ_cons, List.mem_cons] at hy hcongr
          rcases hy with rfl | hy
          · rw [hpy] at hpx
            exact absurd hpx (by simp)
          · simp only [if_true]
            rw [ih htake (fun z hz => hcongr z (Or.inr hz)) hy hpy]

end ParentWalk
