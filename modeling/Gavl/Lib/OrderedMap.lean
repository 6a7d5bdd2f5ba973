import Mathlib.Data.List.Nodup
import Mathlib.Data.List.Basic
import Mathlib.Tactic

/-!
# Insertion-ordered maps

A finite map that remembers the order in which its keys were first set, the `Map` of a
scripting language: setting a key that is present overwrites the value in place, setting a
new key appends it, deleting a key forgets its position.

The keys are distinct by a field of the structure, so a lookup finds the only entry of its
key and no later proof has to argue about shadowed entries.
-/

universe u v

/-- A finite map with its entries in the order their keys were first set. -/
structure OrderedMap (κ : Type u) (ν : Type v) where
  entries : List (κ × ν)
  nodup : (entries.map Prod.fst).Nodup

namespace OrderedMap

variable {κ : Type u} {ν : Type v} [DecidableEq κ]

instance [DecidableEq ν] : DecidableEq (OrderedMap κ ν) := fun m n =>
  decidable_of_iff (m.entries = n.entries) (by
    cases m; cases n; simp)

/-! ## Operations -/

/-- The map with no entries. -/
def empty : OrderedMap κ ν := ⟨[], by simp⟩

instance : EmptyCollection (OrderedMap κ ν) := ⟨empty⟩
instance : Inhabited (OrderedMap κ ν) := ⟨empty⟩

/-- The value at `k`. -/
def get? (m : OrderedMap κ ν) (k : κ) : Option ν :=
  (m.entries.find? (fun e => decide (e.1 = k))).map Prod.snd

/-- Whether `k` is a key. -/
def has (m : OrderedMap κ ν) (k : κ) : Bool := (m.get? k).isSome

def keys (m : OrderedMap κ ν) : List κ := m.entries.map Prod.fst

def values (m : OrderedMap κ ν) : List ν := m.entries.map Prod.snd

def size (m : OrderedMap κ ν) : ℕ := m.entries.length

/-- The entries that pass a test, in the same order. -/
def filter (m : OrderedMap κ ν) (p : κ → ν → Bool) : OrderedMap κ ν :=
  ⟨m.entries.filter (fun e => p e.1 e.2), (m.nodup.sublist ((List.filter_sublist).map _))⟩

/-- The map without the key `k`. -/
def delete (m : OrderedMap κ ν) (k : κ) : OrderedMap κ ν := m.filter (fun k' _ => decide (k' ≠ k))

/-- The list of entries with the value of `k` overwritten in place. -/
def overwrite (l : List (κ × ν)) (k : κ) (v : ν) : List (κ × ν) :=
  l.map (fun e => if e.1 = k then (e.1, v) else e)

theorem overwrite_keys (l : List (κ × ν)) (k : κ) (v : ν) :
    (overwrite l k v).map Prod.fst = l.map Prod.fst := by
  unfold overwrite
  rw [List.map_map]
  refine List.map_congr_left fun e _ => ?_
  simp only [Function.comp]
  split <;> rfl

theorem find?_eq_none_iff (l : List (κ × ν)) (k : κ) :
    l.find? (fun e => decide (e.1 = k)) = none ↔ k ∉ l.map Prod.fst := by
  simp only [List.find?_eq_none, decide_eq_true_eq, List.mem_map, not_exists, not_and]

theorem not_has_iff (m : OrderedMap κ ν) (k : κ) : m.has k = false ↔ k ∉ m.entries.map Prod.fst := by
  rw [← find?_eq_none_iff]
  simp [has, get?]

/-- The map with `k` set to `v`: in place when `k` is a key, at the end otherwise. -/
def set (m : OrderedMap κ ν) (k : κ) (v : ν) : OrderedMap κ ν :=
  if h : m.has k then
    ⟨overwrite m.entries k v, by rw [overwrite_keys]; exact m.nodup⟩
  else
    ⟨m.entries ++ [(k, v)], by
      have hk := (not_has_iff m k).mp (by simpa using h)
      rw [List.map_append, List.map_singleton]
      exact List.nodup_append.mpr ⟨m.nodup, by simp, by
        intro a ha b hb hab
        simp only [List.mem_singleton] at hb
        exact hk (hb ▸ hab ▸ ha)⟩⟩

/-- Every entry of `d` set on top of `m`. -/
def overlay (m d : OrderedMap κ ν) : OrderedMap κ ν :=
  d.entries.foldl (fun acc e => acc.set e.1 e.2) m

/-- The map with a function applied to every value. -/
def mapValues {ω : Type*} (m : OrderedMap κ ν) (f : ν → ω) : OrderedMap κ ω :=
  ⟨m.entries.map (fun e => (e.1, f e.2)), by
    rw [List.map_map]; exact m.nodup⟩

/-- The map with a function of key and value applied to every value. -/
def mapEntries {ω : Type*} (m : OrderedMap κ ν) (f : κ → ν → ω) : OrderedMap κ ω :=
  ⟨m.entries.map (fun e => (e.1, f e.1 e.2)), by
    rw [List.map_map]; exact m.nodup⟩

/-! ## Lookups -/

omit [DecidableEq κ] in
@[ext]
theorem ext_entries {m n : OrderedMap κ ν} (h : m.entries = n.entries) : m = n := by
  cases m; cases n; simp only at h; subst h; rfl

omit [DecidableEq κ] in
@[simp] theorem entries_empty : (∅ : OrderedMap κ ν).entries = [] := rfl

@[simp] theorem get?_empty (k : κ) : (∅ : OrderedMap κ ν).get? k = none := rfl

theorem find?_of_mem {l : List (κ × ν)} (hl : (l.map Prod.fst).Nodup) {k : κ} {v : ν}
    (h : (k, v) ∈ l) : l.find? (fun e => decide (e.1 = k)) = some (k, v) := by
  induction l with
  | nil => cases h
  | cons e l ih =>
    simp only [List.map_cons, List.nodup_cons] at hl
    rcases List.mem_cons.mp h with rfl | h
    · simp
    · have hne : ¬e.1 = k := fun heq => hl.1 (heq ▸ List.mem_map.mpr ⟨(k, v), h, rfl⟩)
      rw [List.find?_cons_of_neg (by simpa using hne)]
      exact ih hl.2 h

/-- A lookup succeeds exactly on the entries of the map. -/
theorem get?_eq_some_iff (m : OrderedMap κ ν) (k : κ) (v : ν) :
    m.get? k = some v ↔ (k, v) ∈ m.entries := by
  constructor
  · intro h
    simp only [get?, Option.map_eq_some_iff] at h
    obtain ⟨e, he, rfl⟩ := h
    have hk := List.find?_some he
    simp only [decide_eq_true_eq] at hk
    subst hk
    exact List.mem_of_find?_eq_some he
  · intro h
    rw [get?, find?_of_mem m.nodup h]
    rfl

theorem get?_eq_none_iff (m : OrderedMap κ ν) (k : κ) :
    m.get? k = none ↔ k ∉ m.entries.map Prod.fst := by
  rw [← find?_eq_none_iff, get?, Option.map_eq_none_iff]

theorem has_iff (m : OrderedMap κ ν) (k : κ) : m.has k = true ↔ ∃ v, m.get? k = some v :=
  Option.isSome_iff_exists

@[simp] theorem has_eq_false_iff (m : OrderedMap κ ν) (k : κ) : m.has k = false ↔ m.get? k = none := by
  simp [has]

theorem mem_values (m : OrderedMap κ ν) (v : ν) : v ∈ m.values ↔ ∃ k, m.get? k = some v := by
  simp only [values, List.mem_map, get?_eq_some_iff, Prod.exists, exists_eq_right]

theorem mem_keys (m : OrderedMap κ ν) (k : κ) : k ∈ m.keys ↔ ∃ v, m.get? k = some v := by
  simp only [keys, List.mem_map, get?_eq_some_iff, Prod.exists, exists_and_right, exists_eq_right]

theorem find?_overwrite (l : List (κ × ν)) (k : κ) (v : ν) (k' : κ) :
    ((overwrite l k v).find? (fun e => decide (e.1 = k'))).map Prod.snd
      = if k = k' then (l.find? (fun e => decide (e.1 = k'))).map (fun _ => v)
        else (l.find? (fun e => decide (e.1 = k'))).map Prod.snd := by
  induction l with
  | nil => simp [overwrite]
  | cons e l ih =>
    simp only [overwrite, List.map_cons] at ih ⊢
    by_cases hek : e.1 = k
    · rw [if_pos hek]
      by_cases hkk : k = k'
      · subst hkk; simp [hek]
      · have hne : ¬e.1 = k' := fun h => hkk (hek ▸ h)
        simpa [List.find?_cons, hne, hkk] using ih
    · rw [if_neg hek]
      by_cases he : e.1 = k'
      · have hkk : ¬k = k' := fun h => hek (he.trans h.symm)
        simp [he, hkk]
      · simpa [List.find?_cons, he] using ih

theorem get?_set (m : OrderedMap κ ν) (k : κ) (v : ν) (k' : κ) :
    (m.set k v).get? k' = if k = k' then some v else m.get? k' := by
  unfold set
  split
  · rename_i h
    rw [get?, find?_overwrite]
    split
    · rename_i hk
      subst hk
      obtain ⟨w, hw⟩ := (has_iff m k).mp h
      simp only [get?, Option.map_eq_some_iff] at hw
      obtain ⟨e, he, -⟩ := hw
      rw [he]; rfl
    · rfl
  · rename_i h
    have hnone : m.entries.find? (fun e => decide (e.1 = k)) = none :=
      (find?_eq_none_iff _ _).mpr ((not_has_iff m k).mp (by simpa using h))
    simp only [get?, List.find?_append]
    by_cases hk : k = k'
    · subst hk
      simp [hnone]
    · simp [hk]

@[simp] theorem get?_set_self (m : OrderedMap κ ν) (k : κ) (v : ν) : (m.set k v).get? k = some v := by
  rw [get?_set, if_pos rfl]

theorem get?_set_of_ne (m : OrderedMap κ ν) {k k' : κ} (v : ν) (h : k ≠ k') :
    (m.set k v).get? k' = m.get? k' := by
  rw [get?_set, if_neg h]

theorem get?_filter (m : OrderedMap κ ν) (p : κ → ν → Bool) (k : κ) :
    (m.filter p).get? k = (m.get? k).filter (p k) := by
  apply Option.ext
  intro v
  rw [get?_eq_some_iff]
  simp only [filter, List.mem_filter, Option.filter_eq_some_iff, get?_eq_some_iff]

theorem get?_delete (m : OrderedMap κ ν) (k k' : κ) :
    (m.delete k).get? k' = if k = k' then none else m.get? k' := by
  rw [delete, get?_filter]
  split
  · rename_i h; subst h
    cases m.get? k <;> simp
  · rename_i h
    cases m.get? k' with
    | none => rfl
    | some v => simp [Ne.symm h]

theorem get?_overlay (m d : OrderedMap κ ν) (k : κ) :
    (m.overlay d).get? k = (d.get? k).orElse (fun _ => m.get? k) := by
  have key : ∀ (l : List (κ × ν)), (l.map Prod.fst).Nodup → ∀ m : OrderedMap κ ν,
      (l.foldl (fun acc e => acc.set e.1 e.2) m).get? k
        = ((l.find? (fun e => decide (e.1 = k))).map Prod.snd).orElse (fun _ => m.get? k) := by
    intro l
    induction l with
    | nil => intro _ m; rfl
    | cons e l ih =>
      intro hl m
      simp only [List.map_cons, List.nodup_cons] at hl
      rw [List.foldl_cons, ih hl.2, get?_set]
      by_cases he : e.1 = k
      · have hnone : l.find? (fun e => decide (e.1 = k)) = none :=
          (find?_eq_none_iff _ _).mpr (he ▸ hl.1)
        simp [hnone, he]
      · simp [he]
  exact key d.entries d.nodup m

@[simp] theorem overlay_empty (m : OrderedMap κ ν) : m.overlay ∅ = m := rfl

/-- A fold that sets, for some of the entries, a value under their key. -/
theorem get?_foldl_set {ω : Type*} (m : OrderedMap κ ν) (f : κ → ν → Option ω)
    {step : OrderedMap κ ω → κ × ν → OrderedMap κ ω}
    (hstep : ∀ out e, step out e = match f e.1 e.2 with
      | none => out
      | some u => out.set e.1 u) (k : κ) :
    (m.entries.foldl step ∅).get? k = (m.get? k).bind (f k) := by
  have key : ∀ (l : List (κ × ν)), (l.map Prod.fst).Nodup → ∀ out : OrderedMap κ ω,
      (l.foldl step out).get? k
        = (((l.find? (fun e => decide (e.1 = k))).map Prod.snd).bind (f k)).or (out.get? k) := by
    intro l
    induction l with
    | nil => exact fun _ out => rfl
    | cons e l ih =>
      intro hnd out
      rw [List.map_cons, List.nodup_cons] at hnd
      rw [List.foldl_cons, ih hnd.2, hstep]
      by_cases he : e.1 = k
      · have hnone : l.find? (fun e => decide (e.1 = k)) = none :=
          (find?_eq_none_iff _ _).mpr (he ▸ hnd.1)
        rw [hnone, List.find?_cons_of_pos (by simpa using he), Option.map_some, Option.bind_some, ← he]
        cases f e.1 e.2 with
        | none => rfl
        | some u => simp
      · rw [List.find?_cons_of_neg (by simpa using he)]
        congr 1
        cases f e.1 e.2 with
        | none => rfl
        | some u => exact get?_set_of_ne _ _ he
  rw [key _ m.nodup]
  simp [get?]

theorem get?_mapEntries {ω : Type*} (m : OrderedMap κ ν) (f : κ → ν → ω) (k : κ) :
    (m.mapEntries f).get? k = (m.get? k).map (f k) := by
  apply Option.ext
  intro v
  rw [get?_eq_some_iff, Option.map_eq_some_iff]
  simp only [mapEntries, List.mem_map, Prod.mk.injEq]
  constructor
  · rintro ⟨⟨k', u⟩, hmem, rfl, rfl⟩
    exact ⟨u, (get?_eq_some_iff m k' u).mpr hmem, rfl⟩
  · rintro ⟨u, hu, rfl⟩
    exact ⟨(k, u), (get?_eq_some_iff m k u).mp hu, rfl, rfl⟩

theorem set_entries_of_new {m : OrderedMap κ ν} {k : κ} (h : m.get? k = none) (v : ν) :
    (m.set k v).entries = m.entries ++ [(k, v)] := by
  have hh : ¬m.has k = true := by simp [has, h]
  rw [set, dif_neg hh]

/-- Setting the entries of a list with distinct keys in turn keeps the list. -/
theorem entries_foldl_set {l : List (κ × ν)} (hl : (l.map Prod.fst).Nodup) :
    (l.foldl (fun m e => m.set e.1 e.2) (∅ : OrderedMap κ ν)).entries = l := by
  have key : ∀ (l : List (κ × ν)) (m : OrderedMap κ ν), (l.map Prod.fst).Nodup →
      (∀ e ∈ l, m.get? e.1 = none) →
        (l.foldl (fun m e => m.set e.1 e.2) m).entries = m.entries ++ l := by
    intro l
    induction l with
    | nil => intro m _ _; simp
    | cons e l ih =>
      intro m hnd hnew
      rw [List.map_cons, List.nodup_cons] at hnd
      rw [List.foldl_cons, ih _ hnd.2 fun x hx => ?_, set_entries_of_new (hnew e List.mem_cons_self),
        List.append_assoc]
      · rfl
      · have hne : e.1 ≠ x.1 := fun heq => hnd.1 (heq ▸ List.mem_map_of_mem hx)
        rw [get?_set_of_ne _ _ hne]
        exact hnew x (List.mem_cons_of_mem _ hx)
  exact key l ∅ hl fun _ _ => rfl

theorem set_entries_of_has {m : OrderedMap κ ν} {k : κ} (h : m.has k = true) (v : ν) :
    (m.set k v).entries = overwrite m.entries k v := by
  rw [set, dif_pos h]

/-- The later of two values set at a key stays. -/
theorem set_set (m : OrderedMap κ ν) (k : κ) (v v' : ν) : (m.set k v).set k v' = m.set k v' := by
  apply ext_entries
  rw [set_entries_of_has ((has_iff _ _).mpr ⟨v, get?_set_self m k v⟩)]
  by_cases hm : m.has k = true
  · rw [set_entries_of_has hm, set_entries_of_has hm]
    unfold overwrite
    rw [List.map_map]
    refine List.map_congr_left fun e _ => ?_
    by_cases he : e.1 = k <;> simp [he]
  · have hnone : m.get? k = none := by simpa [has] using hm
    rw [set_entries_of_new hnone, set_entries_of_new hnone]
    have hsame : overwrite m.entries k v' = m.entries := by
      refine (List.map_congr_left fun e he => ?_).trans (List.map_id m.entries)
      have : e.1 ≠ k := fun heq =>
        (get?_eq_none_iff m k).mp hnone (heq ▸ List.mem_map_of_mem he)
      rw [if_neg this]
      rfl
    have happend : overwrite (m.entries ++ [(k, v)]) k v' = overwrite m.entries k v' ++ [(k, v')] := by
      simp [overwrite]
    rw [happend, hsame]

/-- Setting what is there changes nothing. -/
theorem set_of_get? {m : OrderedMap κ ν} {k : κ} {v : ν} (h : m.get? k = some v) : m.set k v = m := by
  apply ext_entries
  rw [set_entries_of_has ((has_iff m k).mpr ⟨v, h⟩)]
  refine (List.map_congr_left fun e he => ?_).trans (List.map_id m.entries)
  by_cases hek : e.1 = k
  · have hv : m.get? k = some e.2 := (get?_eq_some_iff m k e.2).mpr (hek ▸ he)
    rw [h, Option.some.injEq] at hv
    rw [if_pos hek, hv]
    rfl
  · rw [if_neg hek]
    rfl

theorem size_delete_lt {m : OrderedMap κ ν} {k : κ} {v : ν} (h : m.get? k = some v) :
    (m.delete k).size < m.size := by
  unfold size delete filter
  rw [List.length_filter_lt_length_iff_exists]
  exact ⟨(k, v), (get?_eq_some_iff m k v).mp h, by simp⟩

/-- Setting a new key and deleting it again changes nothing. -/
theorem delete_set_of_new {m : OrderedMap κ ν} {k : κ} (h : m.get? k = none) (v : ν) :
    (m.set k v).delete k = m := by
  apply ext_entries
  have hk := (get?_eq_none_iff m k).mp h
  simp only [delete, filter, set_entries_of_new h, List.filter_append]
  have hall : m.entries.filter (fun e => decide (e.1 ≠ k)) = m.entries := by
    rw [List.filter_eq_self]
    intro e he
    have : e.1 ≠ k := fun heq => hk (heq ▸ List.mem_map.mpr ⟨e, he, rfl⟩)
    simpa using this
  rw [hall]
  simp

/-! ## Mapping over the entries -/

omit [DecidableEq κ] in
theorem mapEntries_congr {ω : Type*} {m : OrderedMap κ ν} {f g : κ → ν → ω}
    (h : ∀ k v, (k, v) ∈ m.entries → f k v = g k v) : m.mapEntries f = m.mapEntries g := by
  apply ext_entries
  refine List.map_congr_left fun e he => ?_
  rw [h e.1 e.2 he]

omit [DecidableEq κ] in
theorem mapEntries_eq_self {m : OrderedMap κ ν} {f : κ → ν → ν}
    (h : ∀ k v, (k, v) ∈ m.entries → f k v = v) : m.mapEntries f = m := by
  apply ext_entries
  refine (List.map_congr_left fun e he => ?_).trans (List.map_id m.entries)
  rw [h e.1 e.2 he]
  rfl

omit [DecidableEq κ] in
theorem mapEntries_mapEntries {ω υ : Type*} (m : OrderedMap κ ν) (f : κ → ν → ω) (g : κ → ω → υ) :
    (m.mapEntries f).mapEntries g = m.mapEntries (fun k v => g k (f k v)) := by
  apply ext_entries
  simp only [mapEntries, List.map_map]
  rfl

omit [DecidableEq κ] in
theorem eq_empty_of_entries {m : OrderedMap κ ν} (h : m.entries = []) : m = ∅ := ext_entries h

theorem get?_mapValues {ω : Type*} (m : OrderedMap κ ν) (f : ν → ω) (k : κ) :
    (m.mapValues f).get? k = (m.get? k).map f := get?_mapEntries m (fun _ => f) k

/-- Maps with the same lookups have the same entries, in some order. -/
theorem entries_perm {m n : OrderedMap κ ν} (h : ∀ k, m.get? k = n.get? k) :
    m.entries.Perm n.entries := by
  refine (List.perm_ext_iff_of_nodup m.nodup.of_map n.nodup.of_map).mpr fun e => ?_
  rw [← get?_eq_some_iff m e.1 e.2, ← get?_eq_some_iff n e.1 e.2, h]

/-- Setting a key is, up to order, dropping it and adding it anew. -/
theorem entries_set_perm (m : OrderedMap κ ν) (k : κ) (v : ν) :
    (m.set k v).entries.Perm ((m.delete k).entries ++ [(k, v)]) := by
  have hnew : (m.delete k).get? k = none := by rw [get?_delete, if_pos rfl]
  rw [← set_entries_of_new hnew v]
  apply entries_perm
  intro k'
  rw [get?_set, get?_set, get?_delete]
  by_cases h : k = k'
  · rw [if_pos h, if_pos h]
  · rw [if_neg h, if_neg h, if_neg h]

/-- Overwriting the value of a key maps over the entries. -/
theorem set_eq_mapEntries {m : OrderedMap κ ν} {k : κ} (h : m.has k = true) (v : ν) :
    m.set k v = m.mapEntries (fun k' v' => if k' = k then v else v') := by
  apply ext_entries
  rw [set, dif_pos h]
  refine List.map_congr_left fun e _ => ?_
  by_cases he : e.1 = k <;> simp [he]

/-! ## Loops over the entries -/

omit [DecidableEq κ] in
theorem keys_ne_of_split {m : OrderedMap κ ν} {pre rest : List (κ × ν)} {e : κ × ν}
    (h : m.entries = pre ++ e :: rest) {e' : κ × ν} (he' : e' ∈ pre ++ rest) : e'.1 ≠ e.1 := by
  have hnd := m.nodup
  rw [h, List.map_append, List.map_cons, List.nodup_middle, List.nodup_cons] at hnd
  intro heq
  refine hnd.1 ?_
  rw [← List.map_append, ← heq]
  exact List.mem_map_of_mem he'

/-- Overwriting an entry leaves it in its place. -/
theorem set_entries_of_split {m : OrderedMap κ ν} {pre rest : List (κ × ν)} {e : κ × ν}
    (h : m.entries = pre ++ e :: rest) (v : ν) :
    (m.set e.1 v).entries = pre ++ (e.1, v) :: rest := by
  have hmem : (e.1, e.2) ∈ m.entries := by
    rw [h]
    exact List.mem_append_right _ List.mem_cons_self
  have hhas : m.has e.1 = true := (has_iff m e.1).mpr ⟨e.2, (get?_eq_some_iff m e.1 e.2).mpr hmem⟩
  have hsame : ∀ l, (∀ e' ∈ l, e' ∈ pre ++ rest) → overwrite l e.1 v = l := fun l hl => by
    unfold overwrite
    refine (List.map_congr_left fun e' he' => ?_).trans (List.map_id l)
    rw [if_neg (keys_ne_of_split h (hl e' he'))]
    rfl
  rw [set, dif_pos hhas]
  simp only [h]
  have happend : overwrite (pre ++ e :: rest) e.1 v
      = overwrite pre e.1 v ++ (e.1, v) :: overwrite rest e.1 v := by
    unfold overwrite
    rw [List.map_append, List.map_cons, if_pos rfl]
  rw [happend, hsame pre fun e' he' => List.mem_append_left _ he',
    hsame rest fun e' he' => List.mem_append_right _ he']

/-- Deleting an entry closes the gap. -/
theorem delete_entries_of_split {m : OrderedMap κ ν} {pre rest : List (κ × ν)} {e : κ × ν}
    (h : m.entries = pre ++ e :: rest) : (m.delete e.1).entries = pre ++ rest := by
  have hsame : ∀ l : List (κ × ν), (∀ e' ∈ l, e' ∈ pre ++ rest) →
      l.filter (fun e' => decide (e'.1 ≠ e.1)) = l := fun l hl => by
    rw [List.filter_eq_self]
    intro e' he'
    simpa using keys_ne_of_split h (hl e' he')
  simp only [delete, filter, h, List.filter_append]
  rw [hsame pre fun e' he' => List.mem_append_left _ he', List.filter_cons_of_neg (by simp),
    hsame rest fun e' he' => List.mem_append_right _ he']

omit [DecidableEq κ] in
/-- A loop over the entries of a map that, at each, replaces or drops that entry of a map it
carries along filters and maps the entries. -/
theorem entries_foldl {σ : Type*} {π : σ → OrderedMap κ ν} {step : σ → κ × ν → σ}
    {f : κ → ν → Option ν}
    (hstep : ∀ s pre e rest, (π s).entries = pre ++ e :: rest →
      (π (step s e)).entries = pre ++ ((f e.1 e.2).map (Prod.mk e.1)).toList ++ rest)
    (s : σ) :
    (π ((π s).entries.foldl step s)).entries
      = (π s).entries.filterMap (fun e => (f e.1 e.2).map (Prod.mk e.1)) := by
  have key : ∀ (rest pre : List (κ × ν)) (s : σ), (π s).entries = pre ++ rest →
      (π (rest.foldl step s)).entries
        = pre ++ rest.filterMap (fun e => (f e.1 e.2).map (Prod.mk e.1)) := by
    intro rest
    induction rest with
    | nil => intro pre s hs; simpa using hs
    | cons e rest ih =>
      intro pre s hs
      rw [List.foldl_cons, ih _ _ (hstep s pre e rest hs), List.filterMap_cons]
      cases (f e.1 e.2).map (Prod.mk e.1) with
      | none => simp
      | some e' => simp
  simpa using key (π s).entries [] s rfl

end OrderedMap
