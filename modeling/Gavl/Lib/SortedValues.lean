import Gavl.Lib.OrderedMap
import Gavl.Lib.StableSort

/-!
# The sorted values of a map

A map that keeps its values under keys of their own can be listed sorted by them, and put together
again from that list.
-/

namespace OrderedMap

variable {κ ν : Type*} [LinearOrder κ] {id : ν → κ} {m : OrderedMap κ ν}

/-- The values by their ids. -/
def byId (id : ν → κ) (l : List ν) : OrderedMap κ ν := l.foldl (fun m v => m.set (id v) v) ∅

theorem entries_byId {l : List ν} (hl : (l.map id).Nodup) :
    (byId id l).entries = l.map (fun v => (id v, v)) := by
  have hkeys : (l.map (fun v => (id v, v))).map Prod.fst = l.map id := by
    rw [List.map_map]
    rfl
  have hentries := entries_foldl_set (hkeys.symm ▸ hl)
  rw [List.foldl_map] at hentries
  exact hentries

theorem nodup_values (hkeyed : ∀ k v, m.get? k = some v → id v = k) : (m.values.map id).Nodup := by
  have hmap : m.values.map id = m.keys := by
    unfold values keys
    rw [List.map_map]
    exact List.map_congr_left fun e he => hkeyed e.1 e.2 ((get?_eq_some_iff m e.1 e.2).mpr he)
  rw [hmap]
  exact m.nodup

/-- A map that keeps its values under their ids is determined by them. -/
theorem entries_of_keyed (hkeyed : ∀ k v, m.get? k = some v → id v = k) :
    m.entries = m.values.map (fun v => (id v, v)) := by
  unfold values
  rw [List.map_map]
  refine (List.map_id _).symm.trans (List.map_congr_left fun e he => ?_)
  show e = (id e.2, e.2)
  rw [hkeyed e.1 e.2 ((get?_eq_some_iff m e.1 e.2).mpr he)]

/-- The sorted values of a map that keeps them under their ids: put back, they are what they were,
and sorting them again changes nothing. -/
theorem byId_sorted (hkeyed : ∀ k v, m.get? k = some v → id v = k) :
    (∀ k, (byId id (m.values.insertionSort (fun a b => id a ≤ id b))).get? k = m.get? k) ∧
      (byId id (m.values.insertionSort (fun a b => id a ≤ id b))).values.insertionSort
          (fun a b => id a ≤ id b)
        = m.values.insertionSort (fun a b => id a ≤ id b) := by
  have hperm := List.perm_insertionSort (fun a b => id a ≤ id b) m.values
  have hentries : (byId id (m.values.insertionSort (fun a b => id a ≤ id b))).entries
      = (m.values.insertionSort (fun a b => id a ≤ id b)).map (fun v => (id v, v)) :=
    entries_byId ((hperm.map id).nodup_iff.mpr (nodup_values hkeyed))
  have hvalues : (byId id (m.values.insertionSort (fun a b => id a ≤ id b))).values
      = m.values.insertionSort (fun a b => id a ≤ id b) := by
    unfold values at hentries ⊢
    rw [hentries, List.map_map]
    exact List.map_id _
  refine ⟨fun k => Option.ext fun v => ?_, ?_⟩
  · rw [get?_eq_some_iff, hentries, List.mem_map]
    constructor
    · rintro ⟨x, hx, heq⟩
      obtain ⟨k', hk'⟩ := (mem_values m x).mp (hperm.mem_iff.mp hx)
      obtain ⟨rfl, rfl⟩ := Prod.mk.inj heq
      rw [hkeyed k' x hk', hk']
    · intro hk
      refine ⟨v, hperm.mem_iff.mpr ((mem_values m v).mpr ⟨k, hk⟩), ?_⟩
      rw [hkeyed k v hk]
  · rw [hvalues]
    have horders : StableSort.Orders (fun a b => id a ≤ id b) m.values :=
      ⟨fun a _ b _ => le_total _ _, fun a _ b _ c _ => le_trans⟩
    exact List.Pairwise.insertionSort_eq horders.pairwise_insertionSort

end OrderedMap
