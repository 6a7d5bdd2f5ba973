import Gavl.Desktop.Format
import Gavl.Lib.Decimal

/-!
# Coin texts are read exactly

What a coin text stands for is a rational number; the parser returns it in base units, or an error
where it does not fit, and no step of it overflows. What the desktop prints reads back.
-/

namespace Gavl

namespace Desktop

variable {whole frac s : List Char} {input : String} {n u max : ℕ}

/-! ## What a coin text stands for -/

/-- The number written by digits before and behind a point. -/
def value (whole frac : List Char) : ℚ :=
  Nat.ofDigitChars 10 whole 0 + Nat.ofDigitChars 10 frac 0 / 10 ^ frac.length

/-- At least one digit, at most one point, and at most eight digits behind it. -/
structure CoinText (s whole frac : List Char) : Prop where
  eq : s = whole ++ '.' :: frac ∨ s = whole ∧ frac = []
  whole_digits : whole.all Char.isDigit = true
  frac_digits : frac.all Char.isDigit = true
  ne_nil : ¬ (whole = [] ∧ frac = [])
  length_le : frac.length ≤ decimals

/-- A coin text whose number is `n` base units. -/
def Denotes (s : List Char) (n : ℕ) : Prop :=
  ∃ whole frac, CoinText s whole frac ∧ value whole frac * 10 ^ 8 = n

/-- The base units of some digits. -/
def units (whole frac : List Char) : ℕ :=
  Nat.ofDigitChars 10 whole 0 * unitsPerCoin +
    Nat.ofDigitChars 10 frac 0 * 10 ^ (decimals - frac.length)

theorem value_eq_units (h : frac.length ≤ decimals) :
    value whole frac * 10 ^ 8 = (units whole frac : ℚ) := by
  have hpow : (10 : ℚ) ^ 8 = 10 ^ frac.length * 10 ^ (decimals - frac.length) := by
    rw [← pow_add, Nat.add_sub_cancel' h]
    rfl
  have hne : (10 : ℚ) ^ frac.length ≠ 0 := pow_ne_zero _ (by norm_num)
  have hunit : (unitsPerCoin : ℚ) = 10 ^ 8 := by norm_num [unitsPerCoin]
  unfold value units
  push_cast
  rw [hunit, add_mul]
  congr 1
  rw [hpow]
  field_simp

/-! ## Reading digits -/

section
variable {e : AmountError} {f : ℕ → Except (Stop AmountError) ℕ}

theorem okOr_some_bind : (okOr e (some n) >>= f) = f n := rfl

theorem okOr_none_bind : (okOr e none >>= f) = .error (.err e) := rfl

end

theorem not_isDigit_point : Char.isDigit '.' = false := by decide

theorem point_not_mem (h : whole.all Char.isDigit = true) : '.' ∉ whole := by
  intro hmem
  have := List.all_eq_true.mp h _ hmem
  rw [not_isDigit_point] at this
  exact Bool.false_ne_true this

theorem parseUnsigned_digits (hne : s ≠ []) (h : s.all Char.isDigit = true) :
    parseUnsigned max s = checked max (Nat.ofDigitChars 10 s 0) := by
  have hhead : s.head? ≠ some '+' := fun heq => by
    have := List.all_eq_true.mp h _ (List.mem_of_head? heq)
    exact absurd this (by decide)
  unfold parseUnsigned
  rw [if_neg hhead, if_pos ⟨hne, h⟩]

/-- The digits before the point overflow only where the amount is too large. -/
theorem wholeUnits_eq (h : whole.all Char.isDigit = true) : wholeUnits whole
    = okOr .tooLarge (checked u64Max (Nat.ofDigitChars 10 whole 0 * unitsPerCoin)) := by
  unfold wholeUnits
  split_ifs with hnil
  · rw [hnil, Nat.ofDigitChars_nil, Nat.zero_mul, checked, if_pos (Nat.zero_le _), okOr]
  · rw [parseUnsigned_digits hnil h]
    generalize Nat.ofDigitChars 10 whole 0 = w
    by_cases hw : w ≤ u64Max
    · rw [checked, if_pos hw, okOr_some_bind]
    · have hle : w ≤ w * unitsPerCoin := Nat.le_mul_of_pos_right w (by decide)
      have hbig : ¬ w * unitsPerCoin ≤ u64Max := fun h => hw (hle.trans h)
      rw [checked, if_neg hw, okOr_none_bind, checked, if_neg hbig, okOr]

/-- The digits behind the point never overflow. -/
theorem fracUnits_eq (h : frac.all Char.isDigit = true) (hlen : frac.length ≤ decimals) :
    fracUnits frac = .ok (Nat.ofDigitChars 10 frac 0 * 10 ^ (decimals - frac.length)) ∧
      Nat.ofDigitChars 10 frac 0 * 10 ^ (decimals - frac.length) ≤ u64Max := by
  have hlt := Decimal.ofDigitChars_lt h
  have hsplit : 10 ^ frac.length * 10 ^ (decimals - frac.length) = 10 ^ decimals := by
    rw [← pow_add, Nat.add_sub_cancel' hlen]
  have hscale : 10 ^ (decimals - frac.length) ≤ 10 ^ decimals :=
    Nat.pow_le_pow_right (by norm_num) (Nat.sub_le _ _)
  have hdigits : 10 ^ frac.length ≤ 10 ^ decimals := Nat.pow_le_pow_right (by norm_num) hlen
  have hmul : Nat.ofDigitChars 10 frac 0 * 10 ^ (decimals - frac.length) ≤ 10 ^ decimals := by
    rw [← hsplit]
    exact Nat.mul_le_mul_right _ hlt.le
  have hmax : 10 ^ decimals ≤ u64Max := by decide
  refine ⟨?_, hmul.trans hmax⟩
  unfold fracUnits
  split_ifs with hnil
  · rw [hnil, Nat.ofDigitChars_nil, Nat.zero_mul]
  · rw [parseUnsigned_digits hnil h, checked, if_pos ((hlt.le.trans hdigits).trans hmax), subU64,
      if_pos hlen]
    simp only [okOr, fitting, bind, Except.bind]
    rw [if_pos (hscale.trans hmax)]
    simp only
    rw [if_pos (hmul.trans hmax)]

/-! ## Splitting -/

theorem splitOnce_point (h : '.' ∉ whole) :
    splitOnce '.' (whole ++ '.' :: frac) = some (whole, frac) := by
  have hall : ∀ d ∈ whole, decide (d ≠ '.') = true := fun d hd =>
    decide_eq_true fun heq => h (heq ▸ hd)
  unfold splitOnce
  rw [if_pos (List.mem_append_right _ List.mem_cons_self), List.takeWhile_append_of_pos hall,
    List.dropWhile_append_of_pos hall]
  simp

theorem splitOnce_plain (h : '.' ∉ whole) : splitOnce '.' whole = none := if_neg h

/-- The two parts make up the text. -/
theorem parts_eq (s : List Char) :
    s = ((splitOnce '.' s).getD (s, [])).1 ++ '.' :: ((splitOnce '.' s).getD (s, [])).2 ∨
      s = ((splitOnce '.' s).getD (s, [])).1 ∧ ((splitOnce '.' s).getD (s, [])).2 = [] := by
  by_cases h : '.' ∈ s
  · left
    obtain ⟨whole, frac, rfl, hnot⟩ := List.eq_append_cons_of_mem h
    rw [splitOnce_point hnot]
    rfl
  · right
    rw [splitOnce_plain h]
    exact ⟨rfl, rfl⟩

theorem CoinText.parts (h : CoinText s whole frac) :
    (splitOnce '.' s).getD (s, []) = (whole, frac) := by
  have hnot := point_not_mem h.whole_digits
  obtain rfl | ⟨rfl, rfl⟩ := h.eq
  · rw [splitOnce_point hnot]
    rfl
  · rw [splitOnce_plain hnot]
    rfl

/-! ## Exactness -/

/-- The sum overflows only where the amount is too large. -/
theorem sum_parts {w f : ℕ} : (do
      let w ← okOr AmountError.tooLarge (checked u64Max w)
      let f ← .ok f
      okOr .tooLarge (checked u64Max (w + f))) = okOr .tooLarge (checked u64Max (w + f)) := by
  by_cases hw : w ≤ u64Max
  · rw [checked, if_pos hw, okOr_some_bind]
    rfl
  · have hbig : ¬ w + f ≤ u64Max := fun h => hw (le_trans (Nat.le_add_right w f) h)
    rw [checked, if_neg hw, okOr_none_bind, checked, if_neg hbig, okOr]

/-- A coin text is read as its units, unless they are too many. -/
theorem parseCoin_of_coinText (h : CoinText (trim input.toList) whole frac) :
    parseCoin input = okOr .tooLarge (checked u64Max (units whole frac)) := by
  have hne : trim input.toList ≠ [] := fun hnil => by
    obtain heq | ⟨heq, hfrac⟩ := h.eq
    · rw [hnil] at heq
      exact absurd heq (by simp)
    · exact h.ne_nil ⟨heq.symm.trans hnil, hfrac⟩
  have hchecks : ¬ ((whole = [] ∧ frac = []) ∨ (!whole.all Char.isDigit) = true ∨
      (!frac.all Char.isDigit) = true) := by
    rw [h.whole_digits, h.frac_digits]
    simpa using h.ne_nil
  have hfrac := (fracUnits_eq h.frac_digits h.length_le).1
  unfold parseCoin
  simp only
  rw [if_neg hne, h.parts]
  simp only
  rw [if_neg hchecks, if_neg (not_lt.mpr h.length_le), wholeUnits_eq h.whole_digits, hfrac]
  exact sum_parts

/-- What is no coin text is an error. -/
theorem parseCoin_of_not (h : ∀ whole frac, ¬ CoinText (trim input.toList) whole frac) :
    ∃ e, parseCoin input = .error (.err e) := by
  unfold parseCoin
  simp only
  by_cases hnil : trim input.toList = []
  · rw [if_pos hnil]
    exact ⟨_, rfl⟩
  · rw [if_neg hnil]
    have hparts := parts_eq (trim input.toList)
    generalize (splitOnce '.' (trim input.toList)).getD (trim input.toList, []) = parts at hparts ⊢
    obtain ⟨whole, frac⟩ := parts
    simp only at hparts ⊢
    by_cases hbad : (whole = [] ∧ frac = []) ∨ (!whole.all Char.isDigit) = true ∨
        (!frac.all Char.isDigit) = true
    · rw [if_pos hbad]
      exact ⟨_, rfl⟩
    · rw [if_neg hbad]
      by_cases hlong : decimals < frac.length
      · rw [if_pos hlong]
        exact ⟨_, rfl⟩
      · simp only [not_or, Bool.not_eq_true', Bool.not_eq_false] at hbad
        exact absurd ⟨hparts, hbad.2.1, hbad.2.2, hbad.1, not_lt.mp hlong⟩ (h whole frac)

theorem okOr_checked_eq_ok {e : AmountError} {m : ℕ} :
    okOr e (checked max m) = .ok n ↔ m = n ∧ n ≤ max := by
  unfold checked
  split_ifs with hm
  · constructor
    · intro h
      obtain rfl := Except.ok.inj h
      exact ⟨rfl, hm⟩
    · rintro ⟨rfl, -⟩
      rfl
  · constructor
    · exact fun h => nomatch h
    · rintro ⟨rfl, hle⟩
      exact absurd hle hm

theorem parseCoin_eq_ok_iff :
    parseCoin input = .ok n ↔ Denotes (trim input.toList) n ∧ n ≤ u64Max := by
  constructor
  · intro h
    by_cases htext : ∃ whole frac, CoinText (trim input.toList) whole frac
    · obtain ⟨whole, frac, htext⟩ := htext
      rw [parseCoin_of_coinText htext, okOr_checked_eq_ok] at h
      obtain ⟨rfl, hle⟩ := h
      exact ⟨⟨whole, frac, htext, value_eq_units htext.length_le⟩, hle⟩
    · obtain ⟨e, he⟩ := parseCoin_of_not fun whole frac hc => htext ⟨whole, frac, hc⟩
      rw [he] at h
      exact nomatch h
  · rintro ⟨⟨whole, frac, htext, hvalue⟩, hle⟩
    rw [value_eq_units htext.length_le] at hvalue
    rw [parseCoin_of_coinText htext, okOr_checked_eq_ok]
    exact ⟨by exact_mod_cast hvalue, hle⟩

/-- Parsing returns units or an error; it never panics. -/
theorem parseCoin_total (input : String) :
    (∃ n, parseCoin input = .ok n) ∨ ∃ e, parseCoin input = .error (.err e) := by
  by_cases htext : ∃ whole frac, CoinText (trim input.toList) whole frac
  · obtain ⟨whole, frac, htext⟩ := htext
    rw [parseCoin_of_coinText htext, checked]
    split_ifs
    · exact Or.inl ⟨_, rfl⟩
    · exact Or.inr ⟨_, rfl⟩
  · exact Or.inr (parseCoin_of_not fun whole frac hc => htext ⟨whole, frac, hc⟩)

/-! ## What is printed reads back -/

section
variable {α : Type} {p : α → Bool} {as bs : List α} {b : α}

/-- What is dropped from the end stops where it must not drop. -/
theorem rdropWhile_append_cons (h : ¬ p b) :
    (as ++ b :: bs).rdropWhile p = as ++ b :: bs.rdropWhile p := by
  induction bs using List.reverseRecOn with
  | nil => rw [List.rdropWhile_concat_neg _ _ _ h, List.rdropWhile_nil]
  | append_singleton bs x ih =>
    rw [← List.cons_append, ← List.append_assoc]
    by_cases hx : p x
    · rw [List.rdropWhile_concat_pos _ _ _ hx, List.rdropWhile_concat_pos _ _ _ hx, ih]
    · rw [List.rdropWhile_concat_neg _ _ _ hx, List.rdropWhile_concat_neg _ _ _ hx,
        List.append_assoc, List.cons_append]

end

theorem isWhitespace_of_isDigit {c : Char} (h : c.isDigit = true) : isWhitespace c = false := by
  rw [Char.isDigit_iff_toNat] at h
  have hlo : '0'.toNat = 48 := rfl
  have hhi : '9'.toNat = 57 := rfl
  simp only [isWhitespace, Bool.or_eq_false_iff, Bool.and_eq_false_imp, decide_eq_true_eq,
    decide_eq_false_iff_not, beq_eq_false_iff_ne, ne_eq]
  omega

theorem trim_eq_self (h : ∀ c ∈ s, isWhitespace c = false) : trim s = s := by
  have hdrop : s.dropWhile isWhitespace = s := by
    cases s with
    | nil => rfl
    | cons c cs => rw [List.dropWhile_cons_of_neg (by rw [h c List.mem_cons_self]; decide)]
  unfold trim
  rw [hdrop, List.rdropWhile_eq_self_iff]
  intro hne
  rw [h _ (List.getLast_mem hne)]
  decide

/-- Digits and the point are no white space. -/
theorem CoinText.trim_eq (h : CoinText s whole frac) : trim s = s := by
  have hdigits : ∀ c ∈ whole ++ '.' :: frac, isWhitespace c = false := fun c hc => by
    rw [List.mem_append, List.mem_cons] at hc
    rcases hc with hc | rfl | hc
    · exact isWhitespace_of_isDigit (List.all_eq_true.mp h.whole_digits c hc)
    · decide
    · exact isWhitespace_of_isDigit (List.all_eq_true.mp h.frac_digits c hc)
  apply trim_eq_self
  obtain rfl | ⟨rfl, rfl⟩ := h.eq
  · exact hdigits
  · exact fun c hc => hdigits c (List.mem_append_left _ hc)

/-- A text that needs no trimming and stands for an amount that fits. -/
theorem CoinText.parseCoin_ofList (h : CoinText s whole frac) (hunits : units whole frac = n)
    (hle : n ≤ u64Max) : parseCoin (String.ofList s) = .ok n := by
  have htrim : trim (String.ofList s).toList = s := by rw [String.toList_ofList, h.trim_eq]
  rw [parseCoin_of_coinText (htrim.symm ▸ h), okOr_checked_eq_ok]
  exact ⟨hunits, hunits ▸ hle⟩

/-- The digits behind the point as they are printed. -/
theorem leftpad_digits (hn : n < unitsPerCoin) :
    ((Nat.toDigits 10 n).leftpad decimals '0').length = decimals ∧
      ((Nat.toDigits 10 n).leftpad decimals '0').all Char.isDigit = true ∧
      Nat.ofDigitChars 10 ((Nat.toDigits 10 n).leftpad decimals '0') 0 = n := by
  refine ⟨?_, ?_, ?_⟩
  · have hlen : (Nat.toDigits 10 n).length ≤ decimals :=
      (Nat.length_toDigits_le_iff (by norm_num) (by decide)).mpr hn
    rw [List.length_leftpad]
    omega
  · rw [List.leftpad, List.all_append, Decimal.all_isDigit_toDigits, List.all_replicate,
      Bool.and_true]
    split_ifs <;> rfl
  · rw [List.leftpad, Nat.ofDigitChars_append, Nat.ofDigitChars_replicate_zero, Nat.mul_zero,
      Nat.ofDigitChars_ten_toDigits]

/-- Zeros at the end of the decimals count nothing. -/
theorem units_append_zeros {k : ℕ} (h : frac.length + k ≤ decimals) :
    units whole (frac ++ List.replicate k '0') = units whole frac := by
  have hpow : decimals - frac.length = k + (decimals - (frac.length + k)) := by omega
  unfold units
  rw [Nat.ofDigitChars_append, Nat.ofDigitChars_replicate_zero, List.length_append,
    List.length_replicate, hpow, pow_add]
  congr 1
  ring

/-- The digits of an amount before and behind the point. -/
theorem coinText_coin (u : ℕ) : ∃ frac,
    CoinText (coin u).toList (Nat.toDigits 10 (u / unitsPerCoin)) frac ∧
      (coin u).toList = Nat.toDigits 10 (u / unitsPerCoin) ++ '.' :: frac ∧
      units (Nat.toDigits 10 (u / unitsPerCoin)) frac = u := by
  obtain ⟨hlen, hdigits, hvalue⟩ := leftpad_digits (Nat.mod_lt u (by decide : 0 < unitsPerCoin))
  refine ⟨_, ⟨Or.inl String.toList_ofList, Decimal.all_isDigit_toDigits _, hdigits,
    fun h => Nat.toDigits_ne_nil h.1, hlen.le⟩, String.toList_ofList, ?_⟩
  unfold units
  rw [hlen, hvalue, Nat.ofDigitChars_ten_toDigits, Nat.sub_self, pow_zero, Nat.mul_one]
  exact Nat.div_add_mod' u unitsPerCoin

theorem parseCoin_coin (hu : u ≤ u64Max) : parseCoin (coin u) = .ok u := by
  obtain ⟨frac, htext, -, hunits⟩ := coinText_coin u
  have h := htext.parseCoin_ofList hunits hu
  rwa [String.ofList_toList] at h

/-- What a text loses when its zeros are dropped from the end. -/
theorem exists_zeros (s : List Char) :
    ∃ k, s.rdropWhile (fun c => decide (c = '0')) ++ List.replicate k '0' = s := by
  have hzeros : s.rtakeWhile (fun c => decide (c = '0')) =
      List.replicate (s.rtakeWhile (fun c => decide (c = '0'))).length '0' := by
    apply List.eq_replicate_of_mem
    intro c hc
    exact of_decide_eq_true (List.mem_rtakeWhile_imp (p := fun c => decide (c = '0')) hc)
  exact ⟨_, hzeros ▸ List.rdropWhile_append_rtakeWhile⟩

/-- A point is stripped where no digit is behind it. -/
theorem strip_point (h : frac.all Char.isDigit = true) :
    (if (whole ++ '.' :: frac).getLast? = some '.' then (whole ++ '.' :: frac).dropLast
      else whole ++ '.' :: frac) = if frac = [] then whole else whole ++ '.' :: frac := by
  by_cases hnil : frac = []
  · rw [hnil, if_pos List.getLast?_concat, if_pos rfl, List.dropLast_concat]
  · have hlast : (whole ++ '.' :: frac).getLast? = frac.getLast? := by
      rw [List.getLast?_append, List.getLast?_cons, List.getLast?_eq_some_getLast hnil]
      rfl
    have hpoint : ¬ (whole ++ '.' :: frac).getLast? = some '.' := fun heq => by
      rw [hlast] at heq
      have := List.all_eq_true.mp h _ (List.mem_of_getLast? heq)
      rw [not_isDigit_point] at this
      exact Bool.false_ne_true this
    rw [if_neg hpoint, if_neg hnil]

/-- Without the zeros at its end, and without a point that then ends it, a text stands for the
same. -/
theorem coinText_coinInput (u : ℕ) : ∃ s whole frac, coinInput u = String.ofList s ∧
    CoinText s whole frac ∧ units whole frac = u ∧ s.length ≤ (coin u).toList.length := by
  obtain ⟨frac, htext, heq, hunits⟩ := coinText_coin u
  have hwhole : Nat.toDigits 10 (u / unitsPerCoin) ≠ [] := Nat.toDigits_ne_nil
  generalize Nat.toDigits 10 (u / unitsPerCoin) = whole at htext heq hunits hwhole
  have htrimmed : (coin u).toList.rdropWhile (fun c => decide (c = '0')) =
      whole ++ '.' :: frac.rdropWhile (fun c => decide (c = '0')) := by
    rw [heq]
    exact rdropWhile_append_cons (by decide)
  have hlen : (coin u).toList.length = whole.length + (frac.length + 1) := by
    rw [heq, List.length_append, List.length_cons]
  obtain ⟨k, hsplit⟩ := exists_zeros frac
  generalize frac.rdropWhile (fun c => decide (c = '0')) = short at hsplit htrimmed
  subst hsplit
  have hdigits : short.all Char.isDigit = true := by
    have := htext.frac_digits
    rw [List.all_append, Bool.and_eq_true] at this
    exact this.1
  have hle := htext.length_le
  rw [List.length_append, List.length_replicate] at hle hlen
  rw [units_append_zeros hle] at hunits
  have hinput : coinInput u =
      String.ofList (if short = [] then whole else whole ++ '.' :: short) := by
    unfold coinInput
    simp only
    rw [htrimmed, strip_point hdigits]
  refine ⟨_, whole, short, hinput, ⟨?_, htext.whole_digits, hdigits, fun h => hwhole h.1, ?_⟩,
    hunits, ?_⟩
  · split_ifs with hshort
    · exact Or.inr ⟨rfl, hshort⟩
    · exact Or.inl rfl
  · omega
  · rw [hlen]
    split_ifs with hshort
    · omega
    · rw [List.length_append, List.length_cons]
      omega

theorem parseCoin_coinInput (hu : u ≤ u64Max) : parseCoin (coinInput u) = .ok u := by
  obtain ⟨s, whole, frac, heq, htext, hunits, -⟩ := coinText_coinInput u
  rw [heq]
  exact htext.parseCoin_ofList hunits hu

theorem length_coinInput_le (u : ℕ) : (coinInput u).length ≤ (coin u).length := by
  obtain ⟨s, whole, frac, heq, -, -, hle⟩ := coinText_coinInput u
  rw [heq, String.length_ofList, ← String.length_toList]
  exact hle

/-- Coin texts are read as what they stand for, everything else is an error, and what is printed
reads back. -/
theorem parseCoin_exact :
    (∀ input n, parseCoin input = .ok n ↔ Denotes (trim input.toList) n ∧ n ≤ u64Max) ∧
      (∀ input, (∃ n, parseCoin input = .ok n) ∨ ∃ e, parseCoin input = .error (.err e)) ∧
      ∀ u ≤ u64Max, parseCoin (coin u) = .ok u ∧ parseCoin (coinInput u) = .ok u ∧
        (coinInput u).length ≤ (coin u).length :=
  ⟨fun _ _ => parseCoin_eq_ok_iff, parseCoin_total,
    fun u hu => ⟨parseCoin_coin hu, parseCoin_coinInput hu, length_coinInput_le u⟩⟩

end Desktop

end Gavl
