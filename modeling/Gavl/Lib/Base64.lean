import Mathlib.Tactic

/-!
# Base64

Three bytes as four characters, with padding at the end. The decoder is a lenient one: it reads both
alphabets, skips what is in neither, and stops at the padding.
-/

namespace Base64

def alphabet : List Char :=
  "ABCDEFGHIJKLMNOPQRSTUVWXYZabcdefghijklmnopqrstuvwxyz0123456789+/".toList

/-- The character of a sextet. -/
def digit (n : ℕ) : Char := alphabet.getD n 'A'

/-- The sextet of a character, in either alphabet. -/
def sextet? (c : Char) : Option ℕ :=
  if c = '-' then some 62 else if c = '_' then some 63
  else if c ∈ alphabet then some (alphabet.idxOf c) else none

/-- The sextets of some bytes, the last one filled up with zeros. -/
def sextets : List UInt8 → List ℕ
  | [] => []
  | [a] => [a.toNat / 4, a.toNat % 4 * 16]
  | [a, b] => [a.toNat / 4, a.toNat % 4 * 16 + b.toNat / 16, b.toNat % 16 * 4]
  | a :: b :: c :: rest =>
    a.toNat / 4 :: (a.toNat % 4 * 16 + b.toNat / 16) :: (b.toNat % 16 * 4 + c.toNat / 64) ::
      c.toNat % 64 :: sextets rest

/-- The whole bytes among some sextets. -/
def bytes : List ℕ → List UInt8
  | w :: x :: y :: z :: rest =>
    UInt8.ofNat (w * 4 + x / 16) :: UInt8.ofNat (x % 16 * 16 + y / 4) ::
      UInt8.ofNat (y % 4 * 64 + z) :: bytes rest
  | [w, x, y] => [UInt8.ofNat (w * 4 + x / 16), UInt8.ofNat (x % 16 * 16 + y / 4)]
  | [w, x] => [UInt8.ofNat (w * 4 + x / 16)]
  | _ => []

def padding (n : ℕ) : List Char := List.replicate ((3 - n % 3) % 3) '='

def encode (bs : List UInt8) : List Char := (sextets bs).map digit ++ padding bs.length

def decode (cs : List Char) : List UInt8 :=
  bytes ((cs.takeWhile (fun c => decide (c ≠ '='))).filterMap sextet?)

/-! ## The round trip -/

theorem sextet?_digit {n : ℕ} (hn : n < 64) : sextet? (digit n) = some n ∧ digit n ≠ '=' := by
  have hall : ∀ n : Fin 64, sextet? (digit n) = some n.val ∧ digit n ≠ '=' := by decide +kernel
  exact hall ⟨n, hn⟩

theorem ofNat_eq {n : ℕ} {b : UInt8} (h : n = b.toNat) : UInt8.ofNat n = b := by
  rw [h, UInt8.ofNat_toNat]

theorem sextets_lt (bs : List UInt8) : ∀ n ∈ sextets bs, n < 64 := by
  induction bs using sextets.induct with
  | case1 => simp [sextets]
  | case2 a =>
    have ha := a.toNat_lt
    simp only [sextets, List.forall_mem_cons]
    exact ⟨by omega, by omega, by simp⟩
  | case3 a b =>
    have ha := a.toNat_lt
    have hb := b.toNat_lt
    simp only [sextets, List.forall_mem_cons]
    exact ⟨by omega, by omega, by omega, by simp⟩
  | case4 a b c rest ih =>
    have ha := a.toNat_lt
    have hb := b.toNat_lt
    have hc := c.toNat_lt
    simp only [sextets, List.forall_mem_cons]
    exact ⟨by omega, by omega, by omega, by omega, ih⟩

theorem bytes_sextets (bs : List UInt8) : bytes (sextets bs) = bs := by
  induction bs using sextets.induct with
  | case1 => rfl
  | case2 a =>
    have ha := a.toNat_lt
    simp only [sextets, bytes]
    rw [ofNat_eq (b := a) (by omega)]
  | case3 a b =>
    have ha := a.toNat_lt
    have hb := b.toNat_lt
    simp only [sextets, bytes]
    rw [ofNat_eq (b := a) (by omega), ofNat_eq (b := b) (by omega)]
  | case4 a b c rest ih =>
    have ha := a.toNat_lt
    have hb := b.toNat_lt
    have hc := c.toNat_lt
    simp only [sextets, bytes]
    rw [ofNat_eq (b := a) (by omega), ofNat_eq (b := b) (by omega), ofNat_eq (b := c) (by omega), ih]

/-- Digits are read back, whatever padding follows them. -/
theorem decode_digits {l : List ℕ} (hl : ∀ n ∈ l, n < 64) (m : ℕ) :
    ((l.map digit ++ List.replicate m '=').takeWhile (fun c => decide (c ≠ '='))).filterMap sextet?
      = l := by
  induction l with
  | nil => cases m <;> simp [List.replicate_succ]
  | cons n l ih =>
    obtain ⟨hn, hl⟩ := List.forall_mem_cons.mp hl
    obtain ⟨hread, hne⟩ := sextet?_digit hn
    rw [List.map_cons, List.cons_append, List.takeWhile_cons_of_pos (by simpa using hne),
      List.filterMap_cons_some hread, ih hl]

/-- **Decoding undoes encoding.** -/
theorem decode_encode (bs : List UInt8) : decode (encode bs) = bs := by
  unfold decode encode padding
  rw [decode_digits (sextets_lt bs), bytes_sextets]

example : String.ofList (encode [77, 97]) = "TWE=" := by decide

end Base64
