import Mathlib.Data.List.Perm.Basic
import Mathlib.Data.Set.Function

/-!
# Merkle trees with sorted branches

A branch hashes its two children in a fixed order of digests, so that a path needs siblings only and
no sides. Every leaf is opened by its path, and a root binds the leaves up to their order.
-/

namespace SortedMerkle

universe u v

variable {α : Type u} {δ : Type v}

/-- A binary tree with values at its leaves. -/
inductive MerkleTree (α : Type u) where
  | leaf (a : α)
  | branch (l r : MerkleTree α)

/-- What digests are made with: a hash of leaves, a hash of ordered pairs, the order. -/
structure Hashing (α : Type u) (δ : Type v) where
  leaf : α → δ
  pair : δ × δ → δ
  le : δ → δ → Bool

namespace Hashing

/-- A total order of digests. -/
structure Ordered (H : Hashing α δ) : Prop where
  total : ∀ x y, H.le x y = true ∨ H.le y x = true
  antisymm : ∀ {x y}, H.le x y = true → H.le y x = true → x = y

variable (H : Hashing α δ)

/-- Two digests, the lower one first. -/
def sorted (x y : δ) : δ × δ := if H.le x y then (x, y) else (y, x)

/-- What is hashed: a leaf or a pair of digests. -/
def hash : α ⊕ δ × δ → δ := Sum.elim H.leaf H.pair

def combine (x y : δ) : δ := H.pair (H.sorted x y)

/-- The digest a path leads to, siblings from the leaf upward. -/
def climb (a : α) (path : List δ) : δ := path.foldl H.combine (H.leaf a)

end Hashing

namespace MerkleTree

variable (H : Hashing α δ)

def root : MerkleTree α → δ
  | leaf a => H.leaf a
  | branch l r => H.combine (root l) (root r)

def leaves : MerkleTree α → List α
  | leaf a => [a]
  | branch l r => leaves l ++ leaves r

/-- Every leaf with its path. -/
def openings : MerkleTree α → List (α × List δ)
  | leaf a => [(a, [])]
  | branch l r =>
    (openings l).map (fun o => (o.1, o.2 ++ [root H r])) ++
      (openings r).map (fun o => (o.1, o.2 ++ [root H l]))

/-- Everything hashed on the way to the root. -/
def preimages : MerkleTree α → List (α ⊕ δ × δ)
  | leaf a => [.inl a]
  | branch l r => .inr (H.sorted (root H l) (root H r)) :: (preimages l ++ preimages r)

end MerkleTree

/-! ## Sorted pairs -/

section
variable {H : Hashing α δ} (hH : H.Ordered)
include hH

theorem sorted_comm (x y : δ) : H.sorted x y = H.sorted y x := by
  unfold Hashing.sorted
  by_cases hxy : H.le x y = true
  · by_cases hyx : H.le y x = true
    · rw [hH.antisymm hxy hyx]
    · rw [if_pos hxy, if_neg hyx]
  · rw [if_neg hxy, if_pos ((hH.total x y).resolve_left hxy)]

theorem combine_comm (x y : δ) : H.combine x y = H.combine y x := by
  unfold Hashing.combine
  rw [sorted_comm hH]

omit hH in
/-- A sorted pair is a pair one way round or the other. -/
theorem sorted_eq_or (x y : δ) : H.sorted x y = (x, y) ∨ H.sorted x y = (y, x) := by
  unfold Hashing.sorted
  split_ifs
  · exact Or.inl rfl
  · exact Or.inr rfl

omit hH in
/-- Equal sorted pairs have the same two members, straight or crossed. -/
theorem of_sorted_eq {x y x' y' : δ} (h : H.sorted x y = H.sorted x' y') :
    (x = x' ∧ y = y') ∨ (x = y' ∧ y = x') := by
  rcases sorted_eq_or (H := H) x y with h₁ | h₁ <;>
    rcases sorted_eq_or (H := H) x' y' with h₂ | h₂ <;>
    · rw [h₁, h₂, Prod.mk.injEq] at h
      tauto

/-! ## Openings -/

/-- A leaf and its path lead to the root. -/
theorem climb_of_mem_openings {t : MerkleTree α} {a : α} {path : List δ} (h : (a, path) ∈ t.openings H) :
    H.climb a path = t.root H := by
  induction t generalizing a path with
  | leaf b =>
    obtain ⟨rfl, rfl⟩ := Prod.mk.inj (List.mem_singleton.mp h)
    rfl
  | branch l r ihl ihr =>
    have hstep : ∀ (path : List δ) (sibling : δ),
        H.climb a (path ++ [sibling]) = H.combine (H.climb a path) sibling := fun path sibling => by
      unfold Hashing.climb
      rw [List.foldl_append]
      rfl
    rcases List.mem_append.mp h with h | h
    · obtain ⟨o, ho, heq⟩ := List.mem_map.mp h
      obtain ⟨rfl, rfl⟩ := Prod.mk.inj heq
      rw [hstep, ihl ho]
      rfl
    · obtain ⟨o, ho, heq⟩ := List.mem_map.mp h
      obtain ⟨rfl, rfl⟩ := Prod.mk.inj heq
      rw [hstep, ihr ho]
      exact combine_comm hH _ _

end

/-! ## Binding -/

variable {H : Hashing α δ}

/-- The value that a root is the hash of. -/
theorem exists_preimage (t : MerkleTree α) : ∃ x ∈ t.preimages H, t.root H = H.hash x := by
  cases t with
  | leaf a => exact ⟨.inl a, List.mem_singleton_self _, rfl⟩
  | branch l r => exact ⟨.inr _, List.mem_cons_self, rfl⟩

/-- Where nothing that was hashed collides, trees with one root have the same leaves. -/
theorem leaves_perm_of_root_eq {t t' : MerkleTree α}
    (hinj : Set.InjOn H.hash {x | x ∈ t.preimages H ∨ x ∈ t'.preimages H})
    (h : t.root H = t'.root H) : t.leaves.Perm t'.leaves := by
  induction t generalizing t' with
  | leaf a =>
    cases t' with
    | leaf b =>
      have heq : Sum.inl a = Sum.inl b :=
        hinj (Or.inl (List.mem_singleton_self _)) (Or.inr (List.mem_singleton_self _)) h
      rw [Sum.inl.inj heq]
    | branch l' r' =>
      have heq := hinj (Or.inl (List.mem_singleton_self _)) (Or.inr List.mem_cons_self) h
      exact absurd heq Sum.inl_ne_inr
  | branch l r ihl ihr =>
    cases t' with
    | leaf b =>
      have heq := hinj (Or.inl List.mem_cons_self) (Or.inr (List.mem_singleton_self _)) h
      exact absurd heq Sum.inr_ne_inl
    | branch l' r' =>
      have heq := hinj (Or.inl List.mem_cons_self) (Or.inr List.mem_cons_self) h
      have hsub : ∀ {s s' : MerkleTree α}, s = l ∨ s = r → s' = l' ∨ s' = r' →
          Set.InjOn H.hash {x | x ∈ s.preimages H ∨ x ∈ s'.preimages H} := by
        rintro s s' hs hs' x hx y hy
        have hmem : ∀ x, x ∈ s.preimages H ∨ x ∈ s'.preimages H →
            x ∈ (MerkleTree.branch l r).preimages H ∨ x ∈ (MerkleTree.branch l' r').preimages H := by
          intro x hx
          unfold MerkleTree.preimages
          simp only [List.mem_cons, List.mem_append]
          rcases hs with rfl | rfl <;> rcases hs' with rfl | rfl <;> tauto
        exact hinj (hmem x hx) (hmem y hy)
      unfold MerkleTree.leaves
      -- a branch fixes its children up to their sides
      rcases of_sorted_eq (Sum.inr.inj heq) with ⟨hl, hr⟩ | ⟨hl, hr⟩
      · exact (ihl (hsub (.inl rfl) (.inl rfl)) hl).append (ihr (hsub (.inr rfl) (.inr rfl)) hr)
      · exact ((ihl (hsub (.inl rfl) (.inr rfl)) hl).append
          (ihr (hsub (.inr rfl) (.inl rfl)) hr)).trans List.perm_append_comm

end SortedMerkle
