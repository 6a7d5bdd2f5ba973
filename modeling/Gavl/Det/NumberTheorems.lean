import Gavl.Det.JsonParseTheorems
import Mathlib.Data.List.TakeWhile

/-!
# Integers in text

The decimal digits of an integer are read back as that integer.
-/

namespace Gavl

theorem isSpace_of_isDigit {c : Char} (hc : c.isDigit = true) : isSpace c = false := by
  obtain ⟨hlt, hle⟩ := Decimal.toNat_of_isDigit hc
  unfold isSpace
  rw [Bool.or_eq_false_iff, Bool.and_eq_false_iff]
  simp only [decide_eq_false_iff_not, List.mem_cons, List.not_mem_nil, or_false]
  omega

theorem trim_eq {cs : List Char} (hcs : ∀ c ∈ cs, isSpace c = false) :
    ((cs.dropWhile isSpace).reverse.dropWhile isSpace).reverse = cs := by
  have hdrop : ∀ l : List Char, (∀ c ∈ l, isSpace c = false) → l.dropWhile isSpace = l := by
    intro l hl
    cases l with
    | nil => rfl
    | cons c l => rw [List.dropWhile_cons_of_neg (by rw [hl c List.mem_cons_self]; simp)]
  rw [hdrop cs hcs, hdrop cs.reverse fun c hc => hcs c (List.mem_reverse.mp hc), List.reverse_reverse]

/-- `String(n)`. -/
theorem toList_toString (n : ℕ) : (toString n).toList = Nat.toDigits 10 n := by
  show (String.ofList (Nat.toDigits 10 n)).toList = _
  rw [String.toList_ofList]

theorem toString_injective {n m : ℕ} (h : toString n = toString m) : n = m := by
  refine Json.toDigits_injective ?_
  show Nat.toDigits 10 n = Nat.toDigits 10 m
  rw [← toList_toString, ← toList_toString, h]

theorem decimalOf?_toDigits (n : ℕ) : decimalOf? (Nat.toDigits 10 n) = some (n, 0) := by
  have hall : ∀ c ∈ Nat.toDigits 10 n, c.isDigit = true :=
    List.all_eq_true.mp (Decimal.all_isDigit_toDigits n)
  have hspan : (Nat.toDigits 10 n).span Char.isDigit = (Nat.toDigits 10 n, []) := by
    rw [List.span_eq_takeWhile_dropWhile, List.takeWhile_eq_self_iff.mpr hall,
      List.dropWhile_eq_nil_iff.mpr hall]
  unfold decimalOf?
  rw [hspan]
  simp [Nat.toDigits_ne_nil, exponentOf?, Nat.ofDigitChars_ten_toDigits]

/-- `Number(String(n))`. -/
theorem numberOfText_toDigits {n : ℕ} (hn : n < 2 ^ 53) :
    numberOfText (Nat.toDigits 10 n) = .finite ((n * 2 ^ 1074 : ℕ) : ℤ) := by
  have hall : ∀ c ∈ Nat.toDigits 10 n, c.isDigit = true :=
    List.all_eq_true.mp (Decimal.all_isDigit_toDigits n)
  have hhead : ∀ c rest, Nat.toDigits 10 n = c :: rest → c.isDigit = true := fun c rest heq =>
    hall c (by rw [heq]; exact List.mem_cons_self)
  have hsecond : ∀ c d rest, Nat.toDigits 10 n = c :: d :: rest → d.isDigit = true :=
    fun c d rest heq => hall d (by rw [heq]; simp)
  have hsigned : signedOf false (Nat.toDigits 10 n) = .finite ((n * 2 ^ 1074 : ℕ) : ℤ) := by
    unfold signedOf
    rw [if_neg, decimalOf?_toDigits]
    · show Double.ofDecimal false n ((0 : ℕ) : ℤ) = _
      rw [Double.ofDecimal_nat, pow_zero, Nat.mul_one, Double.ofUnits_small false hn]
      rfl
    · intro heq
      exact absurd (hhead 'I' "nfinity".toList heq) (by decide)
  unfold numberOfText
  rw [trim_eq fun c hc => isSpace_of_isDigit (hall c hc)]
  simp only
  split
  · exact absurd ‹_› Nat.toDigits_ne_nil
  iterate 6 exact absurd (hsecond _ _ _ ‹_›) (by decide)
  · exact absurd (hhead _ _ ‹_›) (by decide)
  · exact absurd (hhead _ _ ‹_›) (by decide)
  · exact hsigned

end Gavl
