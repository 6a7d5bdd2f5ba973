import Mathlib.Data.Nat.Digits.Defs
import Mathlib.Tactic

/-!
# Decimal texts

The digits of a number and the number of a run of digits, as inverses of each other on runs without
a leading zero.
-/

namespace Decimal

variable {n m : ℕ} {c : Char} {cs : List Char}

theorem toNat_of_isDigit (h : c.isDigit = true) : c.toNat - 48 < 10 ∧ 48 ≤ c.toNat := by
  rw [Char.isDigit_iff_toNat] at h
  have hlo : '0'.toNat = 48 := rfl
  have hhi : '9'.toNat = 57 := rfl
  omega

theorem all_isDigit_toDigits (n : ℕ) : (Nat.toDigits 10 n).all Char.isDigit = true := by
  rw [List.all_eq_true]
  intro c hc
  exact Nat.isDigit_of_mem_toDigits (by norm_num) (by norm_num) hc

/-- A digit is the digit of its value. -/
theorem digitChar_of_isDigit (h : c.isDigit = true) : Nat.digitChar (c.toNat - 48) = c := by
  obtain ⟨hlt, hle⟩ := toNat_of_isDigit h
  have key : ∀ d < 10, Nat.digitChar d = Char.ofNat (d + 48) := by decide
  rw [key _ hlt, Nat.sub_add_cancel hle, Char.ofNat_toNat]

/-- A run of digits that does not begin with a zero is positive. -/
theorem ofDigitChars_pos (hne : cs ≠ []) (hall : cs.all Char.isDigit = true)
    (hhead : cs.head? ≠ some '0') : 0 < Nat.ofDigitChars 10 cs 0 := by
  cases cs with
  | nil => exact absurd rfl hne
  | cons c cs =>
    rw [List.all_cons, Bool.and_eq_true] at hall
    have hle := (toNat_of_isDigit hall.1).2
    have hzero : c.toNat ≠ 48 := fun h => hhead (by
      rw [List.head?_cons, ← Char.ofNat_toNat c, h])
    rw [Nat.ofDigitChars_cons, Nat.ofDigitChars_eq_ofDigitChars_zero]
    have hval : '0'.toNat = 48 := rfl
    have hpow : 0 < 10 ^ cs.length := Nat.pow_pos (by norm_num)
    have hpos : 0 < 10 ^ cs.length * (10 * 0 + (c.toNat - '0'.toNat)) :=
      Nat.mul_pos hpow (by omega)
    omega

/-- So many digits stay below a power of ten. -/
theorem ofDigitChars_lt (hall : cs.all Char.isDigit = true) :
    Nat.ofDigitChars 10 cs 0 < 10 ^ cs.length := by
  induction cs with
  | nil => simp
  | cons c cs ih =>
    rw [List.all_cons, Bool.and_eq_true] at hall
    have hlt := (toNat_of_isDigit hall.1).1
    have hrest := ih hall.2
    have hval : '0'.toNat = 48 := rfl
    have hhead : 10 ^ cs.length * (10 * 0 + (c.toNat - '0'.toNat)) ≤ 10 ^ cs.length * 9 :=
      Nat.mul_le_mul_left _ (by omega)
    rw [Nat.ofDigitChars_cons, Nat.ofDigitChars_eq_ofDigitChars_zero, List.length_cons, pow_succ]
    omega

/-- The digits of the number of a run of digits. -/
theorem toDigits_ofDigitChars (hne : cs ≠ []) (hall : cs.all Char.isDigit = true)
    (hhead : cs.head? ≠ some '0') : Nat.toDigits 10 (Nat.ofDigitChars 10 cs 0) = cs := by
  induction cs using List.reverseRecOn with
  | nil => exact absurd rfl hne
  | append_singleton cs c ih =>
    rw [List.all_append, Bool.and_eq_true, List.all_cons, List.all_nil, Bool.and_true] at hall
    obtain ⟨hlt, -⟩ := toNat_of_isDigit hall.2
    rw [Nat.ofDigitChars_append, Nat.ofDigitChars_cons, Nat.ofDigitChars_nil]
    show Nat.toDigits 10 (10 * Nat.ofDigitChars 10 cs 0 + (c.toNat - 48)) = cs ++ [c]
    by_cases hcs : cs = []
    · subst hcs
      rw [Nat.ofDigitChars_nil, Nat.mul_zero, Nat.zero_add, Nat.toDigits_of_lt_base hlt,
        digitChar_of_isDigit hall.2]
      rfl
    · have hhead' : cs.head? ≠ some '0' := by
        cases cs with
        | nil => exact absurd rfl hcs
        | cons d ds => exact hhead
      have hpos := ofDigitChars_pos hcs hall.1 hhead'
      rw [← Nat.toDigits_append_toDigits (by norm_num) hpos hlt, ih hcs hall.1 hhead',
        Nat.toDigits_of_lt_base hlt, digitChar_of_isDigit hall.2]

/-- The digits of a positive number do not begin with a zero. -/
theorem head?_toDigits (hn : 0 < n) : (Nat.toDigits 10 n).head? ≠ some '0' := by
  induction n using Nat.strong_induction_on with
  | _ n ih =>
    by_cases hlt : n < 10
    · have key : ∀ d < 10, 0 < d → Nat.digitChar d ≠ '0' := by decide
      rw [Nat.toDigits_of_lt_base hlt, List.head?_cons]
      exact fun h => key n hlt hn (Option.some.inj h)
    · have hdiv : 0 < n / 10 := by omega
      rw [Nat.toDigits_of_base_le (by norm_num) (by omega),
        List.head?_append_of_ne_nil _ Nat.toDigits_ne_nil]
      exact ih (n / 10) (by omega) hdiv

/-- A power of ten appends zeros. -/
theorem toDigits_mul_pow (hn : 0 < n) (e : ℕ) :
    Nat.toDigits 10 (n * 10 ^ e) = Nat.toDigits 10 n ++ List.replicate e '0' := by
  induction e with
  | zero => simp
  | succ e ih =>
    have hpos : 0 < n * 10 ^ e := Nat.mul_pos hn (Nat.pow_pos (by norm_num))
    have heq : n * 10 ^ (e + 1) = 10 * (n * 10 ^ e) + 0 := by rw [pow_succ]; ring
    rw [heq, ← Nat.toDigits_append_toDigits (by norm_num) hpos (by norm_num), ih, List.append_assoc,
      Nat.toDigits_zero, List.replicate_succ']

end Decimal
