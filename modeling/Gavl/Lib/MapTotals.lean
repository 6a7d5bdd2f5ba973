import Gavl.Lib.OrderedMap

/-!
# Totals over a map

The sum of a weight over the entries of a map, and how setting and deleting a key move it.
-/

universe u v w

namespace OrderedMap

variable {κ : Type u} {ν : Type v} [DecidableEq κ] {M : Type w} [AddCommMonoid M]
  {m : OrderedMap κ ν} {k : κ} {v : ν}

/-- The weights of all entries together. -/
def total (m : OrderedMap κ ν) (f : κ → ν → M) : M := (m.entries.map (fun e => f e.1 e.2)).sum

omit [DecidableEq κ] in
@[simp] theorem total_empty (f : κ → ν → M) : (∅ : OrderedMap κ ν).total f = 0 := rfl

omit [DecidableEq κ] in
/-- Counting every entry once gives the size. -/
theorem total_one {R : Type w} [Semiring R] : m.total (fun _ _ => (1 : R)) = m.size := by
  unfold total size
  simp

/-- Deleting a key that is not there changes nothing. -/
theorem delete_of_none (h : m.get? k = none) : m.delete k = m := by
  apply ext_entries
  refine List.filter_eq_self.mpr fun e he => ?_
  rw [decide_eq_true_eq]
  intro hk
  exact (get?_eq_none_iff m k).mp h (List.mem_map.mpr ⟨e, he, hk⟩)

theorem delete_set (v : ν) : (m.set k v).delete k = m.delete k := by
  apply ext_entries
  show (m.set k v).entries.filter (fun e => decide (e.1 ≠ k)) = _
  unfold set
  split_ifs with h
  · -- the entry is overwritten in place, and only it is dropped
    show (overwrite m.entries k v).filter _ = m.entries.filter _
    unfold overwrite
    induction m.entries with
    | nil => rfl
    | cons e l ih =>
      rw [List.map_cons, List.filter_cons, List.filter_cons, ih]
      by_cases he : e.1 = k
      · simp [he]
      · simp [he]
  · show (m.entries ++ [(k, v)]).filter _ = m.entries.filter _
    rw [List.filter_append]
    simp

/-- What a key weighs, and the rest. -/
theorem total_of_get? (f : κ → ν → M) (h : m.get? k = some v) :
    m.total f = (m.delete k).total f + f k v := by
  have hset : m.set k v = m := set_of_get? h
  have hperm : m.entries.Perm ((m.delete k).entries ++ [(k, v)]) := by
    have hp := entries_set_perm m k v
    rw [hset] at hp
    exact hp
  unfold total
  rw [(hperm.map _).sum_eq, List.map_append, List.sum_append]
  simp

theorem total_set (f : κ → ν → M) (v : ν) :
    (m.set k v).total f = (m.delete k).total f + f k v := by
  rw [total_of_get? f (get?_set_self m k v), delete_set]

theorem size_of_get? (h : m.get? k = some v) : m.size = (m.delete k).size + 1 := by
  have hsplit := total_of_get? (fun _ _ => (1 : ℕ)) h
  rw [total_one, total_one] at hsplit
  exact hsplit

theorem size_set (v : ν) : (m.set k v).size = (m.delete k).size + 1 := by
  rw [size_of_get? (get?_set_self m k v), delete_set]

theorem size_delete_le : (m.delete k).size ≤ m.size := List.length_filter_le _ _

omit [DecidableEq κ] in
theorem total_congr {f g : κ → ν → M} (h : ∀ e ∈ m.entries, f e.1 e.2 = g e.1 e.2) :
    m.total f = m.total g := by
  unfold total
  rw [List.map_congr_left h]

omit [DecidableEq κ] in
theorem total_add (f g : κ → ν → M) :
    m.total (fun k v => f k v + g k v) = m.total f + m.total g := by
  unfold total
  rw [List.sum_map_add]

omit [DecidableEq κ] in
/-- Weights below weights. -/
theorem total_le [PartialOrder M] [AddLeftMono M] [AddRightMono M] {f g : κ → ν → M}
    (h : ∀ e ∈ m.entries, f e.1 e.2 ≤ g e.1 e.2) : m.total f ≤ m.total g :=
  List.sum_le_sum h

omit [DecidableEq κ] in
/-- The total over some of the entries. -/
theorem total_filter (p : κ → ν → Bool) (f : κ → ν → M) :
    (m.filter p).total f = m.total (fun k v => if p k v then f k v else 0) := by
  show ((m.entries.filter fun e => p e.1 e.2).map fun e => f e.1 e.2).sum
    = (m.entries.map fun e => if p e.1 e.2 then f e.1 e.2 else 0).sum
  induction m.entries with
  | nil => rfl
  | cons e l ih =>
    rw [List.filter_cons, List.map_cons, List.sum_cons, ← ih]
    split_ifs <;> simp

omit [DecidableEq κ] in
/-- How many entries pass a test. -/
theorem size_filter (p : κ → ν → Bool) :
    (m.filter p).size = m.total (fun k v => if p k v then 1 else 0) := by
  have hone : (m.filter p).total (fun _ _ => (1 : ℕ)) = (m.filter p).size := total_one
  rw [← hone, total_filter]

/-! ## Keys -/

theorem keys_perm_of_get? (h : m.get? k = some v) : m.keys.Perm ((m.delete k).keys ++ [k]) := by
  have hperm := (entries_set_perm m k v).map Prod.fst
  rw [set_of_get? h, List.map_append] at hperm
  exact hperm

theorem keys_set_perm (h : m.get? k = none) (v : ν) : (m.set k v).keys.Perm (m.keys ++ [k]) := by
  have hperm := (entries_set_perm m k v).map Prod.fst
  rw [delete_of_none h, List.map_append] at hperm
  exact hperm

end OrderedMap
