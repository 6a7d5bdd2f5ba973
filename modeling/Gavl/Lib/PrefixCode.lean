import Mathlib.Data.List.Basic
import Mathlib.Data.Set.Function
import Mathlib.InformationTheory.Coding.UniquelyDecodable

/-!
# Prefix codes

Encodings whose texts can be split off the front of a longer text in one way only: fixed widths,
length-prefixed texts and runs of them. A sequence of such texts is uniquely decodable.
-/

open InformationTheory

universe u v

variable {α : Type u} {σ : Type v}

/-- On a domain, a value and what follows it are read back from the front of a text. -/
def PrefixCode (dom : Set α) (f : α → List σ) : Prop :=
  ∀ ⦃x⦄, x ∈ dom → ∀ ⦃y⦄, y ∈ dom → ∀ {s t : List σ}, f x ++ s = f y ++ t → x = y ∧ s = t

namespace PrefixCode

variable {dom : Set α} {f : α → List σ} {len : ℕ → List σ} {lens : Set ℕ}

/-- Texts of one width. -/
theorem of_length {n : ℕ} (hlen : ∀ x ∈ dom, (f x).length = n) (hinj : Set.InjOn f dom) :
    PrefixCode dom f := by
  intro x hx y hy s t h
  obtain ⟨hf, hs⟩ := List.append_inj h ((hlen x hx).trans (hlen y hy).symm)
  exact ⟨hinj hx hy hf, hs⟩

/-- Texts behind their length. -/
theorem lengthPrefixed (hlen : PrefixCode lens len) (hdom : ∀ x ∈ dom, (f x).length ∈ lens)
    (hinj : Set.InjOn f dom) : PrefixCode dom (fun x => len (f x).length ++ f x) := by
  intro x hx y hy s t h
  simp only [List.append_assoc] at h
  obtain ⟨hl, hrest⟩ := hlen (hdom x hx) (hdom y hy) h
  obtain ⟨hf, hs⟩ := List.append_inj hrest hl
  exact ⟨hinj hx hy hf, hs⟩

variable (h : PrefixCode dom f)
include h

theorem injOn : Set.InjOn f dom := by
  intro x hx y hy hf
  have hnil : f x ++ [] = f y ++ [] := by rw [hf]
  exact (h hx hy hnil).1

/-- Two runs of the same number of values. -/
theorem flatMap_append {xs ys : List α} (hxs : ∀ x ∈ xs, x ∈ dom) (hys : ∀ y ∈ ys, y ∈ dom)
    (hlen : xs.length = ys.length) {s t : List σ} (heq : xs.flatMap f ++ s = ys.flatMap f ++ t) :
    xs = ys ∧ s = t := by
  induction xs generalizing ys with
  | nil =>
    obtain rfl := List.length_eq_zero_iff.mp hlen.symm
    exact ⟨rfl, heq⟩
  | cons x xs ih =>
    cases ys with
    | nil => exact absurd hlen (by simp)
    | cons y ys =>
      obtain ⟨hx, hxs'⟩ := List.forall_mem_cons.mp hxs
      obtain ⟨hy, hys'⟩ := List.forall_mem_cons.mp hys
      rw [List.flatMap_cons, List.flatMap_cons, List.append_assoc, List.append_assoc] at heq
      obtain ⟨rfl, hrest⟩ := h hx hy heq
      rw [List.length_cons, List.length_cons, Nat.add_right_cancel_iff] at hlen
      obtain ⟨rfl, hs⟩ := ih hxs' hys' hlen hrest
      exact ⟨rfl, hs⟩

/-- Where no text is empty, the number of values need not be known. -/
theorem uniquelyDecodable (hne : ∀ x ∈ dom, f x ≠ []) : UniquelyDecodable (f '' dom) := by
  intro xs ys hxs hys hflat
  induction xs generalizing ys with
  | nil =>
    cases ys with
    | nil => rfl
    | cons w ys =>
      obtain ⟨⟨y, hy, rfl⟩, -⟩ := List.forall_mem_cons.mp hys
      rw [List.flatten_nil, List.flatten_cons] at hflat
      exact absurd (List.append_eq_nil_iff.mp hflat.symm).1 (hne y hy)
  | cons v xs ih =>
    obtain ⟨⟨x, hx, rfl⟩, hxs'⟩ := List.forall_mem_cons.mp hxs
    cases ys with
    | nil =>
      rw [List.flatten_nil, List.flatten_cons] at hflat
      exact absurd (List.append_eq_nil_iff.mp hflat).1 (hne x hx)
    | cons w ys =>
      obtain ⟨⟨y, hy, rfl⟩, hys'⟩ := List.forall_mem_cons.mp hys
      rw [List.flatten_cons, List.flatten_cons] at hflat
      obtain ⟨rfl, hrest⟩ := h hx hy hflat
      rw [ih ys hxs' hys' hrest]

/-- Two whole texts made of such texts. -/
theorem eq_of_flatMap_eq (hne : ∀ x ∈ dom, f x ≠ []) {xs ys : List α} (hxs : ∀ x ∈ xs, x ∈ dom)
    (hys : ∀ y ∈ ys, y ∈ dom) (heq : xs.flatMap f = ys.flatMap f) : xs = ys := by
  have himage : ∀ {zs : List α}, (∀ z ∈ zs, z ∈ dom) → ∀ w ∈ zs.map f, w ∈ f '' dom := by
    intro zs hzs w hw
    obtain ⟨z, hz, rfl⟩ := List.mem_map.mp hw
    exact Set.mem_image_of_mem f (hzs z hz)
  rw [List.flatMap_def, List.flatMap_def] at heq
  have hmap := h.uniquelyDecodable hne (xs.map f) (ys.map f) (himage hxs) (himage hys) heq
  have hlen : xs.length = ys.length := by
    rw [← List.length_map (f := f), hmap, List.length_map]
  have hboth : xs.flatMap f ++ [] = ys.flatMap f ++ [] := by
    rw [List.flatMap_def, List.flatMap_def, hmap]
  exact (h.flatMap_append hxs hys hlen hboth).1

end PrefixCode
