import Gavl.Det.Agreement
import Gavl.Det.JsonParse
import Gavl.Lib.Decimal

/-!
# `JSON.parse` undoes `JSON.stringify`

A value whose numbers the language prints as they stand, and whose objects list their keys the way
the language does, is read back from its text. Integers up to `2 ^ 53` are such numbers.
-/

namespace Gavl

/-! ## Integers in print -/

namespace Double

variable {x y : ℕ} {e : ℤ}

/-- Every integer below `2 ^ 53` is a double. -/
theorem round53_small (hx : 0 < x) (hlt : x < 2 ^ 53) : round53 (x * 2 ^ 1074) 1 = x * 2 ^ 1074 := by
  have hne : x * 2 ^ 1074 ≠ 0 := Nat.mul_ne_zero (by omega) (pow_pos two_pos 1074).ne'
  have hlog : Nat.log2 (x * 2 ^ 1074) - 52 ≤ 1074 := by
    have hlt' : x * 2 ^ 1074 < 2 ^ 1127 := by
      calc x * 2 ^ 1074 < 2 ^ 53 * 2 ^ 1074 := by
            exact Nat.mul_lt_mul_of_pos_right hlt (pow_pos two_pos 1074)
        _ = 2 ^ 1127 := by rw [← pow_add]
    have := (Nat.log2_lt hne).mpr hlt'
    omega
  unfold round53
  rw [Nat.div_one, Nat.one_mul]
  generalize hk : Nat.log2 (x * 2 ^ 1074) - 52 = k at hlog
  have hdvd : 2 ^ k ∣ x * 2 ^ 1074 := (pow_dvd_pow 2 hlog).trans (Nat.dvd_mul_left _ _)
  have hmod : x * 2 ^ 1074 % 2 ^ k = 0 := Nat.mod_eq_zero_of_dvd hdvd
  unfold roundHalfEven
  rw [hmod, Nat.mul_zero, if_pos (pow_pos two_pos _), Nat.div_mul_cancel hdvd]

/-- A larger integer is rounded to nothing below `2 ^ 53`. -/
theorem le_round53 (hy : 2 ^ 53 ≤ y) : 2 ^ 53 * 2 ^ 1074 ≤ round53 (y * 2 ^ 1074) 1 := by
  have hne : y * 2 ^ 1074 ≠ 0 := Nat.mul_ne_zero (by omega) (pow_pos two_pos 1074).ne'
  have hlog : 1127 ≤ Nat.log2 (y * 2 ^ 1074) := by
    rw [Nat.le_log2 hne]
    calc 2 ^ 1127 = 2 ^ 53 * 2 ^ 1074 := by rw [← pow_add]
      _ ≤ y * 2 ^ 1074 := Nat.mul_le_mul_right _ hy
  have hself : 2 ^ Nat.log2 (y * 2 ^ 1074) ≤ y * 2 ^ 1074 := Nat.log2_self_le hne
  unfold round53
  rw [Nat.div_one, Nat.one_mul]
  generalize Nat.log2 (y * 2 ^ 1074) = l at hlog hself
  have hround : ∀ n d, n / d ≤ roundHalfEven n d := fun n d => by
    unfold roundHalfEven
    split_ifs <;> omega
  have hdiv : 2 ^ 52 ≤ y * 2 ^ 1074 / 2 ^ (l - 52) := by
    rw [Nat.le_div_iff_mul_le (pow_pos two_pos _), ← pow_add]
    rw [show 52 + (l - 52) = l by omega]
    exact hself
  have hsplit : 53 + 1074 = 52 + 1075 := rfl
  calc 2 ^ 53 * 2 ^ 1074 = 2 ^ 52 * 2 ^ 1075 := by rw [← pow_add, hsplit, pow_add]
    _ ≤ 2 ^ 52 * 2 ^ (l - 52) := by
      apply Nat.mul_le_mul_left
      exact Nat.pow_le_pow_right (by norm_num) (by omega)
    _ ≤ roundHalfEven (y * 2 ^ 1074) (2 ^ (l - 52)) * 2 ^ (l - 52) :=
      Nat.mul_le_mul_right _ (hdiv.trans (hround _ _))

theorem ofUnits_small (negative : Bool) (hlt : x < 2 ^ 53) :
    ofUnits negative (x * 2 ^ 1074) 1
      = .finite (if negative then -((x * 2 ^ 1074 : ℕ) : ℤ) else ((x * 2 ^ 1074 : ℕ) : ℤ)) := by
  have hround : round53 (x * 2 ^ 1074) 1 = x * 2 ^ 1074 := by
    by_cases hx : x = 0
    · rw [hx, Nat.zero_mul]
      decide
    · exact round53_small (by omega) hlt
  unfold ofUnits
  rw [hround, if_neg]
  have hunits : x * 2 ^ 1074 < 2 ^ 53 * 2 ^ 1074 :=
    Nat.mul_lt_mul_of_pos_right hlt (pow_pos two_pos 1074)
  have hpow : (2 : ℕ) ^ 53 * 2 ^ 1074 ≤ 2 ^ (1024 + 1074) := by
    rw [← pow_add]
    exact Nat.pow_le_pow_right (by norm_num) (by norm_num)
  exact Nat.not_le_of_lt (hunits.trans_le hpow)

/-- What an integer below `2 ^ 53` is read from, among the integers, is itself. -/
theorem ofUnits_eq_iff (hlt : x < 2 ^ 53) :
    ofUnits false (y * 2 ^ 1074) 1 = .finite ((x * 2 ^ 1074 : ℕ) : ℤ) ↔ y = x := by
  by_cases hy : y < 2 ^ 53
  · rw [ofUnits_small false hy]
    simp only [Bool.false_eq_true, if_false, finite.injEq, Nat.cast_inj]
    exact ⟨fun h => Nat.eq_of_mul_eq_mul_right (pow_pos two_pos 1074) h, fun h => by rw [h]⟩
  · have hle := le_round53 (Nat.le_of_not_lt hy)
    refine ⟨fun h => ?_, fun h => absurd hlt (h ▸ hy)⟩
    have hunits : x * 2 ^ 1074 < 2 ^ 53 * 2 ^ 1074 :=
      Nat.mul_lt_mul_of_pos_right hlt (pow_pos two_pos 1074)
    have heq : round53 (y * 2 ^ 1074) 1 = x * 2 ^ 1074 := by
      unfold ofUnits at h
      by_cases hbig : 2 ^ (1024 + 1074) ≤ round53 (y * 2 ^ 1074) 1
      · rw [if_pos hbig] at h
        exact absurd h (fun h => nomatch h)
      · rw [if_neg hbig] at h
        exact Int.ofNat_inj.mp (finite.inj h)
    rw [heq] at hle
    exact absurd hunits (Nat.not_lt_of_le hle)

theorem ofDecimal_nat (negative : Bool) (s n : ℕ) :
    ofDecimal negative s (n : ℤ) = ofUnits negative (s * 10 ^ n * 2 ^ 1074) 1 := by
  unfold ofDecimal
  rw [if_pos (Int.natCast_nonneg n), Int.toNat_natCast]

/-- The digits in units of `10 ^ n` an integer is read back from: all of them, or none. -/
theorem candidate?_nat (hx : 0 < x) (hlt : x < 2 ^ 53) (n : ℕ) :
    candidate? (x * 2 ^ 1074) n = if 10 ^ n ∣ x then some (x / 10 ^ n, (n : ℤ)) else none := by
  have hread : ∀ s, decide (ofDecimal false s n = .finite ((x * 2 ^ 1074 : ℕ) : ℤ))
      = decide (s * 10 ^ n = x) := fun s => by
    rw [decide_eq_decide, ofDecimal_nat, ofUnits_eq_iff hlt]
  unfold candidate?
  simp only [Int.natCast_nonneg, if_true, Int.toNat_natCast, hread]
  by_cases hdvd : 10 ^ n ∣ x
  · obtain ⟨s, rfl⟩ := hdvd
    have hs : 0 < s := Nat.pos_of_mul_pos_left hx
    have hten : 0 < 10 ^ n := Nat.pow_pos (by norm_num)
    have hunits : 10 ^ n * s * 2 ^ 1074 = 2 ^ 1074 * 10 ^ n * s := by ring
    have hdiv : 10 ^ n * s * 2 ^ 1074 / (2 ^ 1074 * 10 ^ n) = s := by
      rw [hunits, Nat.mul_div_cancel_left _ (Nat.mul_pos (pow_pos two_pos 1074) hten)]
    have hmod : 10 ^ n * s * 2 ^ 1074 % (2 ^ 1074 * 10 ^ n) = 0 := by
      rw [hunits, Nat.mul_mod_right]
    have hnear : roundHalfEven (10 ^ n * s * 2 ^ 1074) (2 ^ 1074 * 10 ^ n) = s := by
      unfold roundHalfEven
      rw [hmod, hdiv, Nat.mul_zero, if_pos (Nat.mul_pos (pow_pos two_pos 1074) hten)]
    rw [hnear, if_pos (Nat.dvd_mul_right _ _), Nat.mul_div_cancel_left _ hten, List.find?_cons_of_pos]
    · rfl
    · simp only [Nat.mul_comm s, decide_true, Bool.and_true, decide_eq_true_eq]
      exact hs
  · rw [if_neg hdvd, Option.map_eq_none_iff, List.find?_eq_none]
    intro s _ h
    rw [Bool.and_eq_true, decide_eq_true_eq, decide_eq_true_eq] at h
    exact hdvd ⟨s, by rw [← h.2, Nat.mul_comm]⟩

/-- The digits an integer below `2 ^ 53` prints as, up to its trailing zeros. -/
theorem shortest?_nat (hx : 0 < x) (hlt : x < 2 ^ 53) :
    ∃ n : ℕ, 10 ^ n ∣ x ∧ shortest? (x * 2 ^ 1074) = some (x / 10 ^ n, (n : ℤ)) := by
  -- the largest power of ten that divides it
  obtain ⟨n, hdvd, hmax⟩ : ∃ n : ℕ, 10 ^ n ∣ x ∧ ∀ m, n < m → ¬ 10 ^ m ∣ x := by
    refine ⟨multiplicity 10 x, pow_multiplicity_dvd 10 x, fun m hm h => ?_⟩
    have hfin : FiniteMultiplicity 10 x := Nat.finiteMultiplicity_iff.mpr ⟨by norm_num, hx⟩
    exact absurd (hfin.le_multiplicity_of_pow_dvd h) (Nat.not_le_of_lt hm)
  have hn : n < 16 := by
    by_contra hn
    have hle : 10 ^ 16 ≤ x :=
      (Nat.pow_le_pow_right (by norm_num) (Nat.le_of_not_lt hn)).trans (Nat.le_of_dvd hx hdvd)
    omega
  refine ⟨n, hdvd, ?_⟩
  unfold shortest?
  rw [List.findSome?_eq_some_iff]
  refine ⟨List.range' 0 (308 - n), 308 - n, List.range' (308 - n + 1) (324 + n), ?_, ?_, ?_⟩
  · have happend := @List.range'_append_1 0 (308 - n) (324 + n + 1)
    rw [Nat.zero_add] at happend
    rw [List.range_eq_range', ← List.range'_succ, happend]
    rw [show 308 - n + (324 + n + 1) = 633 by omega]
  · have hexp : (308 : ℤ) - ((308 - n : ℕ) : ℤ) = (n : ℤ) := by omega
    rw [hexp, candidate?_nat hx hlt, if_pos hdvd]
  · intro i hi
    have hi := List.mem_range'_1.mp hi
    have hexp : (308 : ℤ) - (i : ℤ) = ((308 - i : ℕ) : ℤ) := by omega
    rw [hexp, candidate?_nat hx hlt, if_neg (hmax _ (by omega))]

end Double

namespace JsNum

variable {x : ℕ}

theorem ext {m n : JsNum} (h : m.text = n.text) : m = n := by
  cases m
  cases n
  simp only at h
  subst h
  rfl

theorem text_ofInt (n : ℤ) :
    (ofInt n).text = (if n < 0 then ['-'] else []) ++ Nat.toDigits 10 n.natAbs := by
  unfold ofInt
  by_cases hn : 0 ≤ n
  · rw [if_pos hn, if_neg (by omega)]
    show Nat.toDigits 10 n.toNat = [] ++ Nat.toDigits 10 n.natAbs
    rw [show n.toNat = n.natAbs by omega, List.nil_append]
  · rw [if_neg hn, if_pos (by omega)]
    show '-' :: Nat.toDigits 10 (-n).toNat = ['-'] ++ Nat.toDigits 10 n.natAbs
    rw [show (-n).toNat = n.natAbs by omega, List.singleton_append]

theorem layout_digits (hx : 0 < x) (hlt : x < 2 ^ 53) {n : ℕ} (hdvd : 10 ^ n ∣ x) :
    Double.layout (Nat.toDigits 10 (x / 10 ^ n)) (n : ℤ) = Nat.toDigits 10 x := by
  obtain ⟨s, rfl⟩ := hdvd
  have hs : 0 < s := Nat.pos_of_mul_pos_left hx
  have hten : 0 < 10 ^ n := Nat.pow_pos (by norm_num)
  rw [Nat.mul_div_cancel_left _ hten, Nat.mul_comm, Decimal.toDigits_mul_pow hs]
  have hlen : (Nat.toDigits 10 s ++ List.replicate n '0').length ≤ 16 := by
    rw [← Decimal.toDigits_mul_pow hs, Nat.length_toDigits_le_iff (by norm_num) (by norm_num),
      Nat.mul_comm]
    omega
  rw [List.length_append, List.length_replicate] at hlen
  unfold Double.layout
  rw [if_pos ⟨Int.natCast_nonneg n, by omega⟩, Int.toNat_natCast]

/-- An integer prints as its digits. -/
theorem ofDouble?_int (n : ℤ) (hn : n.natAbs < 2 ^ 53) :
    ofDouble? (.finite (n * 2 ^ 1074)) = some (ofInt n) := by
  by_cases hzero : n = 0
  · rw [hzero, Int.zero_mul]
    rfl
  have hunits : n * 2 ^ 1074 ≠ 0 := Int.mul_ne_zero hzero (pow_ne_zero _ two_ne_zero)
  have habs : (n * 2 ^ 1074).natAbs = n.natAbs * 2 ^ 1074 := by
    rw [Int.natAbs_mul, Int.natAbs_pow]
    rfl
  have hpos : (0 : ℤ) < 2 ^ 1074 := pow_pos two_pos 1074
  have hneg : n * 2 ^ 1074 < 0 ↔ n < 0 := by
    refine ⟨fun h => ?_, fun h => Int.mul_neg_of_neg_of_pos h hpos⟩
    by_contra hge
    exact absurd (Int.mul_nonneg (by omega) hpos.le) (Int.not_le.mpr h)
  obtain ⟨k, hdvd, hshortest⟩ := Double.shortest?_nat (Int.natAbs_pos.mpr hzero) hn
  have htext := layout_digits (Int.natAbs_pos.mpr hzero) hn hdvd
  unfold ofDouble?
  simp only [if_neg hunits, habs, hshortest, Option.map_some]
  apply congrArg some
  apply ext
  show (if n * 2 ^ 1074 < 0 then ['-'] else []) ++
    Double.layout (Nat.toDigits 10 (n.natAbs / 10 ^ k)) (k : ℤ) = (ofInt n).text
  rw [htext, text_ofInt]
  simp only [hneg]

end JsNum

namespace Json

variable {cs rest : List Char}

/-! ## Numbers -/

/-- The text ends here, or a value does. -/
def Ends (rest : List Char) : Prop := ∀ c r, rest = c :: r → c = ',' ∨ c = ']' ∨ c = '}'

theorem ends_nil : Ends [] := fun _ _ he => absurd he (by simp)

theorem ends_cons {c : Char} (h : c = ',' ∨ c = ']' ∨ c = '}') : Ends (c :: rest) :=
  fun _ _ he => (List.cons.inj he).1 ▸ h

/-- No character of a number comes next. -/
theorem Ends.head_ne (h : Ends rest) {p : Char → Bool}
    (hp : p ',' = false ∧ p ']' = false ∧ p '}' = false) (c : Char) (r : List Char)
    (hc : rest = c :: r) : p c = false := by
  obtain rfl | rfl | rfl := h c r hc
  · exact hp.1
  · exact hp.2.1
  · exact hp.2.2

theorem takeWhile_isDigit (hcs : cs.all Char.isDigit = true) (h : Ends rest) :
    (cs ++ rest).takeWhile Char.isDigit = cs ∧ (cs ++ rest).dropWhile Char.isDigit = rest := by
  have hall : ∀ c ∈ cs, c.isDigit = true := List.all_eq_true.mp hcs
  rw [List.takeWhile_append_of_pos hall, List.dropWhile_append_of_pos hall]
  cases rest with
  | nil => simp
  | cons c rest =>
    have hc := h.head_ne (p := Char.isDigit) (by decide) c rest rfl
    rw [List.takeWhile_cons, List.dropWhile_cons, hc]
    simp

theorem fraction?_of_ends (h : Ends rest) : fraction? rest = some ([], rest) := by
  unfold fraction?
  split
  · exact absurd (h _ _ rfl) (by decide)
  · rfl

theorem exponent?_of_ends (h : Ends rest) : exponent? rest = some (0, rest) := by
  cases rest with
  | nil => rfl
  | cons c rest =>
    have hc : ¬ (c = 'e' ∨ c = 'E') := fun he => by
      have := h.head_ne (p := fun c => c == 'e' || c == 'E') (by decide) c rest rfl
      simp only [Bool.or_eq_false_iff, beq_eq_false_iff_ne] at this
      exact he.elim this.1 this.2
    show (if c = 'e' ∨ c = 'E' then _ else some ((0 : ℤ), c :: rest)) = some ((0 : ℤ), c :: rest)
    rw [if_neg hc]

/-- An integer is the double its digits name. -/
theorem ofDouble?_ofDecimal (negative : Bool) {x : ℕ} (hx : x < 2 ^ 53) :
    JsNum.ofDouble? (Double.ofDecimal negative x 0)
      = some (JsNum.ofInt (if negative then -(x : ℤ) else x)) := by
  have hunits : (if negative then -((x * 2 ^ 1074 : ℕ) : ℤ) else ((x * 2 ^ 1074 : ℕ) : ℤ))
      = (if negative then -(x : ℤ) else x) * 2 ^ 1074 := by
    rw [Int.natCast_mul, Nat.cast_pow, Nat.cast_ofNat]
    cases negative with
    | true => simp only [if_true, Int.neg_mul]
    | false => simp only [Bool.false_eq_true, if_false]
  have hnat := Double.ofDecimal_nat negative x 0
  rw [pow_zero, Nat.mul_one, Double.ofUnits_small negative hx, hunits] at hnat
  rw [show (0 : ℤ) = ((0 : ℕ) : ℤ) from rfl, hnat, JsNum.ofDouble?_int]
  cases negative with
  | true => exact (Int.natAbs_neg _).trans_lt hx
  | false => exact hx

/-- The digits of an integer are read as that integer. -/
theorem unsigned?_digits (negative : Bool) {x : ℕ} (hx : x < 2 ^ 53) (h : Ends rest) :
    unsigned? negative (Nat.toDigits 10 x ++ rest)
      = some (JsNum.ofInt (if negative then -(x : ℤ) else x), rest) := by
  obtain ⟨htake, hdrop⟩ := takeWhile_isDigit (Decimal.all_isDigit_toDigits x) h
  have hwhole : ¬ (Nat.toDigits 10 x = [] ∨
      ((Nat.toDigits 10 x).head? = some '0' ∧ Nat.toDigits 10 x ≠ ['0'])) := by
    rintro (hnil | ⟨hhead, hne⟩)
    · exact Nat.toDigits_ne_nil hnil
    · by_cases hzero : x = 0
      · rw [hzero] at hne
        exact hne (Nat.toDigits_zero 10)
      · exact Decimal.head?_toDigits (by omega) hhead
  unfold unsigned?
  simp only [htake, hdrop]
  rw [if_neg hwhole, fraction?_of_ends h, Option.bind_eq_bind, Option.bind_some,
    exponent?_of_ends h, Option.bind_eq_bind, Option.bind_some]
  show (do
    let n ← JsNum.ofDouble?
      (Double.ofDecimal negative (Nat.ofDigitChars 10 (Nat.toDigits 10 x ++ []) 0) 0)
    pure (n, rest)) = _
  rw [List.append_nil, Nat.ofDigitChars_ten_toDigits, ofDouble?_ofDecimal negative hx]
  rfl

/-- The language prints the number as it stands. -/
def Printed (n : JsNum) : Prop :=
  ∀ rest, Ends rest → number? (n.text ++ rest) = some (n, rest)

theorem number?_of_ne {c : Char} (h : c ≠ '-') : number? (c :: cs) = unsigned? false (c :: cs) := by
  unfold number?
  split
  · rename_i heq
    exact absurd (List.cons.inj heq).1 h
  · rfl

/-- Integers up to `2 ^ 53` print as they stand. -/
theorem printed_ofInt {n : ℤ} (hn : n.natAbs < 2 ^ 53) : Printed (JsNum.ofInt n) := by
  intro rest h
  by_cases hneg : n < 0
  · rw [JsNum.text_ofInt, if_pos hneg]
    show unsigned? true (Nat.toDigits 10 n.natAbs ++ rest) = _
    rw [unsigned?_digits true hn h, if_pos rfl, show -(n.natAbs : ℤ) = n by omega]
  · rw [JsNum.text_ofInt, if_neg hneg, List.nil_append]
    obtain ⟨c, cs, hc⟩ := List.exists_cons_of_ne_nil (@Nat.toDigits_ne_nil n.natAbs 10)
    have hdigit : c.isDigit = true := by
      have hall := Decimal.all_isDigit_toDigits n.natAbs
      rw [hc, List.all_cons, Bool.and_eq_true] at hall
      exact hall.1
    rw [hc, List.cons_append, number?_of_ne (fun hminus => by rw [hminus] at hdigit; simp at hdigit),
      ← List.cons_append, ← hc, unsigned?_digits false hn h]
    show some (JsNum.ofInt (n.natAbs : ℤ), rest) = _
    rw [show (n.natAbs : ℤ) = n by omega]

/-! ## Strings -/

/-- One character of a literal is read back. -/
theorem chars?_escapeChar (n : ℕ) (c : Char) (s : List Char) :
    chars? (n + 1) (escapeChar c ++ s) = (chars? n s).map (fun p => (c :: p.1, p.2)) := by
  have hescaped : ∀ d s', escaped? s' = some (d, s) →
      chars? (n + 1) ('\\' :: s') = (chars? n s).map (fun p => (d :: p.1, p.2)) := by
    intro d s' h
    rw [chars?, if_neg (by decide), if_pos rfl, h]
    cases hs : chars? n s with
    | none => simp [hs]
    | some p => simp [hs]
  unfold escapeChar
  split_ifs with h1 h2 h3 h4 h5 h6 h7 h8
  · rw [h1]; exact hescaped _ _ rfl
  · rw [h2]; exact hescaped _ _ rfl
  · rw [← Char.ofNat_toNat c, h3]; exact hescaped _ _ rfl
  · rw [← Char.ofNat_toNat c, h4]; exact hescaped _ _ rfl
  · rw [← Char.ofNat_toNat c, h5]; exact hescaped _ _ rfl
  · rw [← Char.ofNat_toNat c, h6]; exact hescaped _ _ rfl
  · rw [← Char.ofNat_toNat c, h7]; exact hescaped _ _ rfl
  · -- a control character, as four hex digits
    have hx := hexDigit?_hexChar (n := c.toNat / 16) (by omega)
    have hy := hexDigit?_hexChar (n := c.toNat % 16) (by omega)
    have hzero : hexDigit? '0' = some 0 := by decide
    refine hescaped c _ ?_
    show unicode? ('0' :: '0' :: hexChar (c.toNat / 16) :: hexChar (c.toNat % 16) :: s) = some (c, s)
    have hhex : hex4? ('0' :: '0' :: hexChar (c.toNat / 16) :: hexChar (c.toNat % 16) :: s)
        = some (c.toNat, s) := by
      rw [hex4?, hzero, hx, hy]
      show some (16 * (16 * (16 * 0 + 0) + c.toNat / 16) + c.toNat % 16, s) = some (c.toNat, s)
      rw [show 16 * (16 * (16 * 0 + 0) + c.toNat / 16) + c.toNat % 16 = c.toNat by omega]
    unfold unicode?
    rw [hhex]
    show (if c.toNat < 0xD800 ∨ 0xDFFF < c.toNat then some (Char.ofNat c.toNat, s) else _) = _
    rw [if_pos (by omega), Char.ofNat_toNat]
  · rw [List.singleton_append, chars?, if_neg h1, if_neg h2, if_neg h8]
    cases chars? n s <;> rfl

theorem chars?_literal : ∀ (cs : List Char) (n : ℕ), cs.length < n →
    chars? n (cs.flatMap escapeChar ++ '"' :: rest) = some (cs, rest) := by
  intro cs
  induction cs with
  | nil =>
    intro n hn
    cases n with
    | zero => omega
    | succ n => rfl
  | cons c cs ih =>
    intro n hn
    cases n with
    | zero => omega
    | succ n =>
      rw [List.length_cons] at hn
      rw [List.flatMap_cons, List.append_assoc, chars?_escapeChar, ih n (by omega)]
      rfl

theorem escapeChar_ne_nil (c : Char) : escapeChar c ≠ [] := by
  unfold escapeChar unicodeEscape
  split_ifs <;> simp

theorem length_le_literal (cs : List Char) : cs.length ≤ (cs.flatMap escapeChar).length := by
  induction cs with
  | nil => exact Nat.le_refl _
  | cons c cs ih =>
    have := List.length_pos_of_ne_nil (escapeChar_ne_nil c)
    rw [List.flatMap_cons, List.length_append, List.length_cons]
    omega

/-- A literal is read back after its opening quote. -/
theorem string?'_quote (s : String) :
    string?' (s.toList.flatMap escapeChar ++ '"' :: rest) = some (s, rest) := by
  have hlen := length_le_literal s.toList
  unfold string?'
  rw [chars?_literal s.toList _ (by rw [List.length_append, List.length_cons]; omega),
    Option.map_some]
  show some (String.ofList s.toList, rest) = some (s, rest)
  rw [String.ofList_toList]

theorem quote_append (s : String) :
    quote s ++ rest = '"' :: (s.toList.flatMap escapeChar ++ '"' :: rest) := by
  unfold quote
  rw [List.cons_append, List.cons_append, List.append_assoc, List.singleton_append]

/-! ## Values -/

mutual

/-- A value as the language holds it: its numbers print as they stand, and its objects list distinct
keys, array indices first. -/
def Plain : Json → Prop
  | .num n => Printed n
  | .arr items => PlainItems items
  | .obj fields =>
    (fields.map Prod.fst).Nodup ∧ fields.Pairwise (fun a b => indexLe a b = true) ∧
      PlainFields fields
  | _ => True

def PlainItems : List Json → Prop
  | [] => True
  | v :: vs => v.Plain ∧ PlainItems vs

def PlainFields : List (String × Json) → Prop
  | [] => True
  | (_, v) :: fs => v.Plain ∧ PlainFields fs

end

mutual

theorem Plain.wf : ∀ {v : Json}, v.Plain → v.Wf
  | .null, _ => trivial
  | .bool _, _ => trivial
  | .num _, _ => trivial
  | .str _, _ => trivial
  | .arr _, h => PlainItems.wf h
  | .obj _, h => ⟨h.1, PlainFields.wf h.2.2⟩

theorem PlainItems.wf : ∀ {vs : List Json}, PlainItems vs → WfItems vs
  | [], _ => trivial
  | _ :: _, h => ⟨Plain.wf h.1, PlainItems.wf h.2⟩

theorem PlainFields.wf : ∀ {fs : List (String × Json)}, PlainFields fs → WfFields fs
  | [], _ => trivial
  | (_, _) :: _, h => ⟨Plain.wf h.1, PlainFields.wf h.2⟩

end

/-- Members in the order the language lists them are kept as they are. -/
theorem ofMembers_eq {fields : List (String × Json)} (hkeys : (fields.map Prod.fst).Nodup)
    (horder : fields.Pairwise (fun a b => indexLe a b = true)) : ofMembers fields = .obj fields := by
  unfold ofMembers
  rw [OrderedMap.entries_foldl_set hkeys, horder.insertionSort_eq]

theorem isBlank_of_charTag {c : Char} (h : isBlank c = true) : charTag c = c := by
  unfold isBlank at h
  simp only [Bool.or_eq_true, beq_iff_eq] at h
  obtain ((rfl | rfl) | rfl) | rfl := h <;> decide

theorem skip_cons {c : Char} (h : isBlank c = false) : skip (c :: cs) = c :: cs := by
  unfold skip
  rw [List.dropWhile_cons, h]
  simp

/-- No blank stands before a value. -/
theorem skip_stringify (v : Json) (s : List Char) :
    skip (v.stringify ++ s) = v.stringify ++ s := by
  obtain ⟨c, r, hc, htag⟩ := stringify_head v
  rw [hc, List.cons_append]
  refine skip_cons (Bool.eq_false_iff.mpr fun hblank => ?_)
  rw [isBlank_of_charTag hblank] at htag
  rw [htag] at hblank
  cases v with
  | bool b => cases b <;> exact absurd hblank (by decide)
  | _ => exact absurd hblank (by simp [tag, isBlank])

/-- A text that begins like a number is read as one. -/
theorem value?_number {c : Char} (n : ℕ) (h : isNumberChar c = true) :
    value? (n + 1) (c :: cs) = (number? (c :: cs)).map (fun (x, rest) => (.num x, rest)) := by
  have hne : ∀ d : Char, isNumberChar d = false → c ≠ d := fun d hd heq => by
    rw [heq, hd] at h
    exact absurd h (by decide)
  have hblank : isBlank c = false := by
    unfold isBlank
    simp only [Bool.or_eq_false_iff, beq_eq_false_iff_ne]
    exact ⟨⟨⟨hne _ (by decide), hne _ (by decide)⟩, hne _ (by decide)⟩, hne _ (by decide)⟩
  rw [value?, skip_cons hblank]
  split
  · exact absurd (List.cons.inj ‹_›).1 (hne _ (by decide))
  · exact absurd (List.cons.inj ‹_›).1 (hne _ (by decide))
  · exact absurd (List.cons.inj ‹_›).1 (hne _ (by decide))
  · exact absurd (List.cons.inj ‹_›).1 (hne _ (by decide))
  · exact absurd (List.cons.inj ‹_›).1 (hne _ (by decide))
  · exact absurd (List.cons.inj ‹_›).1 (hne _ (by decide))
  · rfl

theorem value?_string (n : ℕ) :
    value? (n + 1) ('"' :: cs) = (string?' cs).map (fun (s, rest) => (.str s, rest)) := by
  rw [value?, skip_cons (by decide)]
  rfl

theorem value?_array (n : ℕ) (h : skip cs = cs) (hne : ∀ r, cs ≠ ']' :: r) :
    value? (n + 1) ('[' :: cs) = (items? n cs).map (fun (items, rest) => (.arr items, rest)) := by
  rw [value?, skip_cons (by decide)]
  simp only [h]

theorem value?_object (n : ℕ) (h : skip cs = cs) (hne : ∀ r, cs ≠ '}' :: r) :
    value? (n + 1) ('{' :: cs)
      = (members? n cs).map (fun (members, rest) => (ofMembers members, rest)) := by
  rw [value?, skip_cons (by decide)]
  simp only [h]

theorem length_stringify_pos (v : Json) : 0 < v.stringify.length := by
  obtain ⟨c, r, hc, -⟩ := stringify_head v
  rw [hc, List.length_cons]
  omega

/-- What stands after the value of an item, up to the end of the array. -/
theorem items_tail (v : Json) (vs : List Json) :
    stringifyItems (v :: vs) ++ ']' :: rest = v.stringify ++ match vs with
      | [] => ']' :: rest
      | w :: ws => ',' :: (stringifyItems (w :: ws) ++ ']' :: rest) := by
  rw [stringifyItems_cons]
  cases vs <;> simp

theorem fields_tail (k : String) (v : Json) (fs : List (String × Json)) :
    stringifyFields ((k, v) :: fs) ++ '}' :: rest
      = '"' :: (k.toList.flatMap escapeChar ++ '"' :: ':' :: (v.stringify ++ match fs with
        | [] => '}' :: rest
        | f :: fs => ',' :: (stringifyFields (f :: fs) ++ '}' :: rest))) := by
  rw [stringifyFields_cons, List.append_assoc, quote_append]
  cases fs <;> simp

mutual

/-- A value is read back from its text, with what stands after it. -/
theorem value?_stringify : ∀ (v : Json) (n : ℕ) (rest : List Char), v.Plain → Ends rest →
    2 * v.stringify.length ≤ n → value? n (v.stringify ++ rest) = some (v, rest)
  | .null, n, rest, _, _, hn => by
    obtain ⟨n, rfl⟩ : ∃ m, n = m + 1 := ⟨n - 1, by simp [stringify] at hn; omega⟩
    rw [value?]
    rfl
  | .bool b, n, rest, _, _, hn => by
    obtain ⟨n, rfl⟩ : ∃ m, n = m + 1 := ⟨n - 1, by cases b <;> simp [stringify] at hn <;> omega⟩
    rw [value?]
    cases b <;> rfl
  | .num x, n, rest, hplain, hends, hn => by
    obtain ⟨hne, hall⟩ := x.wf
    rw [stringify] at hn ⊢
    obtain ⟨c, cs, hc⟩ := List.exists_cons_of_ne_nil hne
    rw [hc, List.all_cons, Bool.and_eq_true] at hall
    obtain ⟨n, rfl⟩ : ∃ m, n = m + 1 := ⟨n - 1, by rw [hc, List.length_cons] at hn; omega⟩
    have hread : number? (x.text ++ rest) = some (x, rest) := hplain rest hends
    rw [hc, List.cons_append] at hread ⊢
    rw [value?_number n hall.1, hread]
    rfl
  | .str s, n, rest, _, _, hn => by
    obtain ⟨n, rfl⟩ : ∃ m, n = m + 1 := ⟨n - 1, by
      rw [stringify, quote, List.cons_append, List.length_cons] at hn
      omega⟩
    rw [stringify, quote_append, value?_string, string?'_quote]
    rfl
  | .arr [], n, rest, _, _, hn => by
    obtain ⟨n, rfl⟩ : ∃ m, n = m + 1 := ⟨n - 1, by
      rw [stringify, List.cons_append, List.length_cons] at hn
      omega⟩
    rw [value?]
    rfl
  | .arr (v :: vs), n, rest, hplain, _, hn => by
    rw [stringify, List.cons_append, List.length_cons, List.length_append] at hn
    obtain ⟨n, rfl⟩ : ∃ m, n = m + 1 := ⟨n - 1, by omega⟩
    have hitems := items?_stringify (v :: vs) n rest (by simp) hplain (by simp at hn; omega)
    rw [stringify, List.cons_append, List.cons_append, List.append_assoc, List.singleton_append,
      value?_array n (by rw [items_tail, skip_stringify]) (fun r heq => ?_), hitems]
    · rfl
    · rw [items_tail] at heq
      exact stringify_head_ne heq.symm
  | .obj [], n, rest, _, _, hn => by
    obtain ⟨n, rfl⟩ : ∃ m, n = m + 1 := ⟨n - 1, by
      rw [stringify, List.cons_append, List.length_cons] at hn
      omega⟩
    rw [value?]
    rfl
  | .obj ((k, v) :: fs), n, rest, hplain, _, hn => by
    rw [stringify, List.cons_append, List.length_cons, List.length_append] at hn
    obtain ⟨n, rfl⟩ : ∃ m, n = m + 1 := ⟨n - 1, by omega⟩
    obtain ⟨hkeys, horder, hfields⟩ := hplain
    have hmembers := members?_stringify ((k, v) :: fs) n rest (by simp) hfields (by simp at hn; omega)
    rw [stringify, List.cons_append, List.cons_append, List.append_assoc, List.singleton_append,
      value?_object n (by rw [fields_tail, skip_cons (by decide)]) (fun r heq => ?_), hmembers]
    · show some (ofMembers ((k, v) :: fs), rest) = _
      rw [ofMembers_eq hkeys horder]
    · rw [fields_tail] at heq
      exact absurd (List.cons.inj heq).1 (by decide)

theorem items?_stringify : ∀ (vs : List Json) (n : ℕ) (rest : List Char), vs ≠ [] →
    PlainItems vs → 2 * (stringifyItems vs).length + 1 ≤ n →
      items? n (stringifyItems vs ++ ']' :: rest) = some (vs, rest)
  | [], _, _, hne, _, _ => absurd rfl hne
  | [v], n, rest, _, hplain, hn => by
    rw [stringifyItems] at hn
    obtain ⟨n, rfl⟩ : ∃ m, n = m + 1 := ⟨n - 1, by omega⟩
    have hv := value?_stringify v n (']' :: rest) hplain.1 (ends_cons (by simp)) (by omega)
    rw [items_tail, items?]
    exact Option.bind_eq_some_iff.mpr ⟨_, hv, rfl⟩
  | v :: w :: ws, n, rest, _, hplain, hn => by
    rw [stringifyItems_cons, List.length_append] at hn
    simp only [List.length_cons] at hn
    obtain ⟨n, rfl⟩ : ∃ m, n = m + 1 := ⟨n - 1, by omega⟩
    have hv := value?_stringify v n (',' :: (stringifyItems (w :: ws) ++ ']' :: rest)) hplain.1
      (ends_cons (by simp)) (by omega)
    have hws := items?_stringify (w :: ws) n rest (by simp) hplain.2 (by omega)
    rw [items_tail, items?]
    exact Option.bind_eq_some_iff.mpr ⟨_, hv, Option.bind_eq_some_iff.mpr ⟨_, hws, rfl⟩⟩

theorem members?_stringify : ∀ (fs : List (String × Json)) (n : ℕ) (rest : List Char), fs ≠ [] →
    PlainFields fs → 2 * (stringifyFields fs).length + 1 ≤ n →
      members? n (stringifyFields fs ++ '}' :: rest) = some (fs, rest)
  | [], _, _, hne, _, _ => absurd rfl hne
  | [(k, v)], n, rest, _, hplain, hn => by
    rw [stringifyFields, List.length_append, List.length_cons] at hn
    obtain ⟨n, rfl⟩ : ∃ m, n = m + 1 := ⟨n - 1, by omega⟩
    have hv := value?_stringify v n ('}' :: rest) hplain.1 (ends_cons (by simp)) (by omega)
    rw [fields_tail, members?, skip_cons (by decide)]
    exact Option.bind_eq_some_iff.mpr ⟨_, string?'_quote k, Option.bind_eq_some_iff.mpr ⟨_, hv, rfl⟩⟩
  | (k, v) :: (l, w) :: fs, n, rest, _, hplain, hn => by
    rw [stringifyFields_cons] at hn
    simp only [List.length_append, List.length_cons] at hn
    obtain ⟨n, rfl⟩ : ∃ m, n = m + 1 := ⟨n - 1, by omega⟩
    have hv := value?_stringify v n (',' :: (stringifyFields ((l, w) :: fs) ++ '}' :: rest)) hplain.1
      (ends_cons (by simp)) (by omega)
    have hfs := members?_stringify ((l, w) :: fs) n rest (by simp) hplain.2 (by omega)
    rw [fields_tail, members?, skip_cons (by decide)]
    exact Option.bind_eq_some_iff.mpr ⟨_, string?'_quote k, Option.bind_eq_some_iff.mpr
      ⟨_, hv, Option.bind_eq_some_iff.mpr ⟨_, hfs, rfl⟩⟩⟩

end

/-- **`JSON.parse` undoes `JSON.stringify`** on what the language holds. -/
theorem parse_stringify {v : Json} (h : v.Plain) : parse v.stringify = some v := by
  have hread := value?_stringify v (2 * v.stringify.length + 2) [] h ends_nil (by omega)
  rw [List.append_nil] at hread
  unfold parse
  rw [hread]
  rfl

/-! ## What parsing yields -/

/-- A number that prints as digits alone prints without leading zeros. -/
def Bare (n : JsNum) : Prop :=
  n.text.all Char.isDigit = true → n.text = Nat.toDigits 10 (Nat.ofDigitChars 10 n.text 0)

mutual

/-- What `JSON.parse` yields: the keys of an object differ. -/
def Parsed : Json → Prop
  | .num n => Bare n
  | .arr items => ParsedItems items
  | .obj fields => (fields.map Prod.fst).Nodup ∧ ParsedFields fields
  | _ => True

def ParsedItems : List Json → Prop
  | [] => True
  | v :: vs => v.Parsed ∧ ParsedItems vs

def ParsedFields : List (String × Json) → Prop
  | [] => True
  | (_, v) :: fs => v.Parsed ∧ ParsedFields fs

end

theorem parsedItems_iff {vs : List Json} : ParsedItems vs ↔ ∀ v ∈ vs, v.Parsed := by
  induction vs with
  | nil => simp [ParsedItems]
  | cons v vs ih => rw [ParsedItems, ih, List.forall_mem_cons]

theorem parsedFields_iff {fs : List (String × Json)} :
    ParsedFields fs ↔ ∀ e ∈ fs, e.2.Parsed := by
  induction fs with
  | nil => simp [ParsedFields]
  | cons e fs ih => rw [ParsedFields, ih, List.forall_mem_cons]

mutual

theorem Parsed.wf : ∀ {v : Json}, v.Parsed → v.Wf
  | .null, _ => trivial
  | .bool _, _ => trivial
  | .num _, _ => trivial
  | .str _, _ => trivial
  | .arr _, h => ParsedItems.wf h
  | .obj _, h => ⟨h.1, ParsedFields.wf h.2⟩

theorem ParsedItems.wf : ∀ {vs : List Json}, ParsedItems vs → WfItems vs
  | [], _ => trivial
  | _ :: _, h => ⟨Parsed.wf h.1, ParsedItems.wf h.2⟩

theorem ParsedFields.wf : ∀ {fs : List (String × Json)}, ParsedFields fs → WfFields fs
  | [], _ => trivial
  | (_, _) :: _, h => ⟨Parsed.wf h.1, ParsedFields.wf h.2⟩

end

theorem shortest?_pos {units s : ℕ} {e : ℤ} (h : Double.shortest? units = some (s, e)) : 0 < s := by
  obtain ⟨i, -, hi⟩ := List.exists_of_findSome?_eq_some h
  unfold Double.candidate? at hi
  obtain ⟨t, ht, heq⟩ := Option.map_eq_some_iff.mp hi
  have hpos := List.find?_some ht
  rw [Bool.and_eq_true, decide_eq_true_eq] at hpos
  rw [Prod.mk.injEq] at heq
  rw [← heq.1]
  exact hpos.1

/-- Digits laid out without a point or an exponent are those of a number. -/
theorem layout_isDigit {s : ℕ} {e : ℤ} (hs : 0 < s)
    (h : (Double.layout (Nat.toDigits 10 s) e).all Char.isDigit = true) :
    ∃ m, Double.layout (Nat.toDigits 10 s) e = Nat.toDigits 10 m := by
  have hmem : ∀ c ∈ Double.layout (Nat.toDigits 10 s) e, c ≠ '.' ∧ c ≠ 'e' := fun c hc => by
    have hdigit := List.all_eq_true.mp h c hc
    exact ⟨fun heq => by rw [heq] at hdigit; simp at hdigit,
      fun heq => by rw [heq] at hdigit; simp at hdigit⟩
  unfold Double.layout at hmem ⊢
  simp only at hmem ⊢
  split_ifs at hmem ⊢ with h1 h2 h3
  · exact ⟨s * 10 ^ e.toNat, (Decimal.toDigits_mul_pow hs _).symm⟩
  · exact absurd rfl (hmem '.' (by simp)).1
  · exact absurd rfl (hmem '.' (by simp)).1
  all_goals exact absurd rfl (hmem 'e' (by simp)).2

/-- Digits in print have no leading zeros. -/
theorem bare_ofDouble? {x : Double} {n : JsNum} (h : JsNum.ofDouble? x = some n) : Bare n := by
  intro hall
  unfold JsNum.ofDouble? at h
  cases x with
  | nan => simp at h
  | infinite negative => simp at h
  | finite units =>
    simp only at h
    by_cases hzero : units = 0
    · rw [if_pos hzero] at h
      rw [← Option.some.inj h]
      rfl
    · rw [if_neg hzero, Option.map_eq_some_iff] at h
      obtain ⟨⟨s, e⟩, hs, rfl⟩ := h
      have htext : ∀ m, Nat.toDigits 10 m
          = Nat.toDigits 10 (Nat.ofDigitChars 10 (Nat.toDigits 10 m) 0) := fun m => by
        rw [Nat.ofDigitChars_ten_toDigits]
      by_cases hneg : units < 0
      · simp [hneg] at hall
      · simp only [hneg, if_false, List.nil_append] at hall ⊢
        obtain ⟨m, hm⟩ := layout_isDigit (shortest?_pos hs) hall
        rw [hm]
        exact htext m

theorem bare_number? {cs rest : List Char} {n : JsNum} (h : number? cs = some (n, rest)) : Bare n := by
  have hunsigned : ∀ negative cs, unsigned? negative cs = some (n, rest) → Bare n := by
    intro negative cs h
    unfold unsigned? at h
    simp only at h
    split_ifs at h
    obtain ⟨a, -, h⟩ := Option.bind_eq_some_iff.mp h
    obtain ⟨b, -, h⟩ := Option.bind_eq_some_iff.mp h
    obtain ⟨m, hm, h⟩ := Option.bind_eq_some_iff.mp h
    rw [← (Prod.mk.inj (Option.some.inj h)).1]
    exact bare_ofDouble? hm
  unfold number? at h
  split at h
  · exact hunsigned _ _ h
  · exact hunsigned _ _ h

/-- Assigning members in turn leaves one for each key. -/
theorem parsed_ofMembers {members : List (String × Json)} (h : ∀ e ∈ members, e.2.Parsed) :
    (ofMembers members).Parsed := by
  have hset : ∀ (l : List (String × Json)) (m : OrderedMap String Json), (∀ e ∈ l, e.2.Parsed) →
      (∀ k v, m.get? k = some v → v.Parsed) →
        ∀ k v, (l.foldl (fun m e => OrderedMap.set m e.1 e.2) m).get? k = some v → v.Parsed := by
    intro l
    induction l with
    | nil => exact fun _ _ hm => hm
    | cons e l ih =>
      intro m hl hm
      refine ih _ (fun x hx => hl x (List.mem_cons_of_mem _ hx)) fun k v hget => ?_
      rw [OrderedMap.get?_set] at hget
      split_ifs at hget
      · rw [← Option.some.inj hget]
        exact hl e List.mem_cons_self
      · exact hm k v hget
  unfold ofMembers
  have hperm := List.perm_insertionSort (fun a b => indexLe a b = true)
    (members.foldl (fun m e => OrderedMap.set m e.1 e.2) (∅ : OrderedMap String Json)).entries
  refine ⟨((hperm.map Prod.fst).nodup_iff).mpr (OrderedMap.nodup _), parsedFields_iff.mpr fun e he => ?_⟩
  exact hset members ∅ h (by simp) e.1 e.2
    ((OrderedMap.get?_eq_some_iff _ _ _).mpr (hperm.mem_iff.mp he))

mutual

theorem parsed_value? : ∀ (n : ℕ) {cs rest : List Char} {v : Json},
    value? n cs = some (v, rest) → v.Parsed
  | 0, _, _, _, h => by simp [value?] at h
  | n + 1, cs, rest, v, h => by
    rw [value?] at h
    split at h
    · rw [← (Prod.mk.inj (Option.some.inj h)).1]; trivial
    · rw [← (Prod.mk.inj (Option.some.inj h)).1]; trivial
    · rw [← (Prod.mk.inj (Option.some.inj h)).1]; trivial
    · obtain ⟨a, -, h⟩ := Option.map_eq_some_iff.mp h
      rw [← (Prod.mk.inj h).1]; trivial
    · split at h
      · rw [← (Prod.mk.inj (Option.some.inj h)).1]; trivial
      · obtain ⟨a, ha, h⟩ := Option.map_eq_some_iff.mp h
        rw [← (Prod.mk.inj h).1]
        exact parsedItems_iff.mpr (parsed_items? n ha)
    · split at h
      · rw [← (Prod.mk.inj (Option.some.inj h)).1]
        exact ⟨List.nodup_nil, trivial⟩
      · obtain ⟨a, ha, h⟩ := Option.map_eq_some_iff.mp h
        rw [← (Prod.mk.inj h).1]
        exact parsed_ofMembers (parsed_members? n ha)
    · obtain ⟨a, ha, h⟩ := Option.map_eq_some_iff.mp h
      rw [← (Prod.mk.inj h).1]
      exact bare_number? ha

theorem parsed_items? : ∀ (n : ℕ) {cs : List Char} {r : List Json × List Char},
    items? n cs = some r → ∀ v ∈ r.1, v.Parsed
  | 0, _, _, h => by simp [items?] at h
  | n + 1, cs, r, h => by
    rw [items?] at h
    obtain ⟨⟨v, rest⟩, hv, h⟩ := Option.bind_eq_some_iff.mp h
    have hv := parsed_value? n hv
    simp only at h
    split at h
    · obtain ⟨⟨vs, rest'⟩, hvs, h⟩ := Option.bind_eq_some_iff.mp h
      rw [← Option.some.inj h]
      exact List.forall_mem_cons.mpr ⟨hv, parsed_items? n hvs⟩
    · rw [← Option.some.inj h]
      exact List.forall_mem_singleton.mpr hv
    · exact absurd h (by simp)

theorem parsed_members? : ∀ (n : ℕ) {cs : List Char} {r : List (String × Json) × List Char},
    members? n cs = some r → ∀ e ∈ r.1, e.2.Parsed
  | 0, _, _, h => by simp [members?] at h
  | n + 1, cs, r, h => by
    rw [members?] at h
    split at h
    · obtain ⟨⟨k, rest⟩, -, h⟩ := Option.bind_eq_some_iff.mp h
      simp only at h
      split at h
      · obtain ⟨⟨v, rest⟩, hv, h⟩ := Option.bind_eq_some_iff.mp h
        have hv := parsed_value? n hv
        simp only at h
        split at h
        · obtain ⟨⟨fs, rest'⟩, hfs, h⟩ := Option.bind_eq_some_iff.mp h
          rw [← Option.some.inj h]
          exact List.forall_mem_cons.mpr ⟨hv, parsed_members? n hfs⟩
        · rw [← Option.some.inj h]
          exact List.forall_mem_singleton.mpr hv
        · exact absurd h (by simp)
      · exact absurd h (by simp)
    · exact absurd h (by simp)

end

/-- What `JSON.parse` yields has distinct keys and numbers in canonical print. -/
theorem parsed_parse {cs : List Char} {v : Json} (h : parse cs = some v) : v.Parsed := by
  unfold parse at h
  split at h
  · exact absurd h (by simp)
  · split_ifs at h
    rw [← Option.some.inj h]
    exact parsed_value? _ ‹_›

end Json

end Gavl
