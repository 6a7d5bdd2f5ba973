import Mathlib.Data.List.Sort
import Mathlib.Tactic

/-!
# Stable sorts and filters

A stable sort by a relation that is total and transitive on the list. Sorting commutes with
filtering, so where the relation puts what passes a test before what does not, sorting the two
parts on their own and concatenating them sorts the whole.
-/

universe u

namespace StableSort

open List

variable {α : Type u} {r : α → α → Prop} [DecidableRel r] {a : α} {l : List α} {p : α → Bool}

/-- A relation that orders the members of a list, up to ties. -/
structure Orders (r : α → α → Prop) (l : List α) : Prop where
  total : ∀ a ∈ l, ∀ b ∈ l, r a b ∨ r b a
  trans : ∀ a ∈ l, ∀ b ∈ l, ∀ c ∈ l, r a b → r b c → r a c

omit [DecidableRel r] in
theorem Orders.subset {m : List α} (h : Orders r l) (hsub : ∀ a ∈ m, a ∈ l) : Orders r m where
  total := fun a ha b hb => h.total a (hsub a ha) b (hsub b hb)
  trans := fun a ha b hb c hc => h.trans a (hsub a ha) b (hsub b hb) c (hsub c hc)

theorem Orders.pairwise_insertionSort (h : Orders r l) : (l.insertionSort r).Pairwise r := by
  -- on the members of the list the relation is total and transitive
  let r' : {a // a ∈ l} → {a // a ∈ l} → Prop := fun a b => r a.1 b.1
  have : Std.Total r' := ⟨fun a b => h.total a.1 a.2 b.1 b.2⟩
  have : IsTrans _ r' := ⟨fun a b c => h.trans a.1 a.2 b.1 b.2 c.1 c.2⟩
  have hmap : l.insertionSort r = (l.attach.insertionSort r').map Subtype.val := by
    rw [List.map_insertionSort (s := r) r' Subtype.val l.attach fun a _ b _ => Iff.rfl,
      List.attach_map_subtype_val]
  rw [hmap, List.pairwise_map]
  exact List.pairwise_insertionSort r' l.attach

/-- Inserting commutes with filtering. -/
theorem filter_orderedInsert (htrans : ∀ b ∈ l, ∀ c ∈ l, r a b → r b c → r a c)
    (hl : l.Pairwise r) :
    (l.orderedInsert r a).filter p
      = if p a then (l.filter p).orderedInsert r a else l.filter p := by
  induction l with
  | nil => cases hp : p a <;> simp [hp]
  | cons b l ih =>
    have htrans' : ∀ c ∈ l, ∀ d ∈ l, r a c → r c d → r a d := fun c hc d hd =>
      htrans c (mem_cons_of_mem _ hc) d (mem_cons_of_mem _ hd)
    obtain ⟨hb, hl'⟩ := List.pairwise_cons.mp hl
    rw [List.orderedInsert_cons]
    split_ifs with hab hp hp
    · -- `a` goes first, and stays first among what is left
      rw [List.filter_cons_of_pos hp]
      cases hf : (b :: l).filter p with
      | nil => rfl
      | cons c rest =>
        have hc : c ∈ b :: l := List.mem_of_mem_filter (hf ▸ List.mem_cons_self : c ∈ (b :: l).filter p)
        have hac : r a c := by
          rcases List.mem_cons.mp hc with rfl | hc
          · exact hab
          · exact htrans b List.mem_cons_self c (List.mem_cons_of_mem _ hc) hab (hb c hc)
        rw [List.orderedInsert_cons, if_pos hac]
    · rw [List.filter_cons_of_neg hp]
    · cases hpb : p b with
      | true =>
        rw [List.filter_cons_of_pos hpb, List.filter_cons_of_pos hpb, ih htrans' hl', if_pos hp,
          List.orderedInsert_cons, if_neg hab]
      | false =>
        rw [List.filter_cons_of_neg (by simp [hpb]), List.filter_cons_of_neg (by simp [hpb]),
          ih htrans' hl', if_pos hp]
    · cases hpb : p b with
      | true =>
        rw [List.filter_cons_of_pos hpb, List.filter_cons_of_pos hpb, ih htrans' hl', if_neg hp]
      | false =>
        rw [List.filter_cons_of_neg (by simp [hpb]), List.filter_cons_of_neg (by simp [hpb]),
          ih htrans' hl', if_neg hp]

/-- Sorting commutes with filtering. -/
theorem filter_insertionSort (h : Orders r l) :
    (l.insertionSort r).filter p = (l.filter p).insertionSort r := by
  induction l with
  | nil => rfl
  | cons a l ih =>
    have hl : Orders r l := h.subset fun b hb => List.mem_cons_of_mem _ hb
    have hmem : ∀ {b}, b ∈ l.insertionSort r → b ∈ a :: l := fun hb =>
      List.mem_cons_of_mem _ ((List.mem_insertionSort r).mp hb)
    rw [List.insertionSort_cons, filter_orderedInsert (fun b hb c hc =>
      h.trans a List.mem_cons_self b (hmem hb) c (hmem hc)) hl.pairwise_insertionSort, ih hl]
    split_ifs with hp
    · rw [List.filter_cons_of_pos hp, List.insertionSort_cons]
    · rw [List.filter_cons_of_neg hp]

/-- A list in which nothing that fails a test stands before what passes it. -/
theorem filter_append_filter_not (h : l.Pairwise (fun a b => p b = true → p a = true)) :
    l.filter p ++ l.filter (fun a => !p a) = l := by
  induction l with
  | nil => rfl
  | cons a l ih =>
    obtain ⟨ha, hl⟩ := List.pairwise_cons.mp h
    cases hp : p a with
    | true =>
      rw [List.filter_cons_of_pos hp, List.filter_cons_of_neg (by simp [hp]), List.cons_append,
        ih hl]
    | false =>
      have hnone : l.filter p = [] := List.filter_eq_nil_iff.mpr fun b hb hpb => by
        rw [ha b hb hpb] at hp
        exact absurd hp (by simp)
      have hall : l.filter (fun a => !p a) = l := List.filter_eq_self.mpr fun b hb => by
        have hpb : ¬ p b = true := fun hpb => by
          rw [ha b hb hpb] at hp
          exact absurd hp (by simp)
        simp [hpb]
      rw [List.filter_cons_of_neg (by simp [hp]), List.filter_cons_of_pos (by simp [hp]), hnone,
        hall, List.nil_append]

/-- Where what passes a test comes first, the two parts can be sorted on their own. -/
theorem insertionSort_split (h : Orders r l)
    (hp : ∀ a ∈ l, ∀ b ∈ l, p b = true → r a b → p a = true) :
    (l.filter p).insertionSort r ++ (l.filter (fun a => !p a)).insertionSort r
      = l.insertionSort r := by
  rw [← filter_insertionSort h, ← filter_insertionSort h]
  refine filter_append_filter_not (h.pairwise_insertionSort.imp_of_mem ?_)
  intro a b ha hb hab hpb
  exact hp a ((List.mem_insertionSort r).mp ha) b ((List.mem_insertionSort r).mp hb) hpb hab

/-! ## The order of the input -/

/-- A relation without ties sorts every permutation of a list alike. -/
theorem insertionSort_eq_of_perm {m : List α} (h : Orders r l)
    (hanti : ∀ a ∈ l, ∀ b ∈ l, r a b → r b a → a = b) (hperm : l.Perm m) :
    l.insertionSort r = m.insertionSort r := by
  have hm : Orders r m := h.subset fun a ha => hperm.mem_iff.mpr ha
  have hsorted := (List.perm_insertionSort r l).trans (hperm.trans (List.perm_insertionSort r m).symm)
  refine List.Perm.eq_of_pairwise ?_ h.pairwise_insertionSort hm.pairwise_insertionSort hsorted
  intro a b ha hb hab hba
  refine hanti a ((List.mem_insertionSort r).mp ha) b ?_ hab hba
  exact hperm.mem_iff.mpr ((List.mem_insertionSort r).mp hb)

end StableSort
