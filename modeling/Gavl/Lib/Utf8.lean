import Mathlib.Tactic

/-!
# Decoding UTF-8

The decoder that never fails: a machine that reads byte after byte, with U+FFFD for what no
character is written as. A byte that breaks off a character is read again as the start of the next
one. On the UTF-8 of some characters it reads these characters back.
-/

namespace Utf8

/-- A character some of whose bytes are still to come. -/
structure Pending where
  /-- What the bytes so far stand for. -/
  point : ℕ
  /-- How many bytes are to come. -/
  needed : ℕ
  /-- The next byte is at least this. -/
  lower : ℕ
  /-- And at most this. -/
  upper : ℕ
deriving DecidableEq

def replacement : Char := Char.ofNat 0xfffd

/-- The first byte of a character. -/
def start (b : ℕ) : List Char × Option Pending :=
  if b < 0x80 then ([Char.ofNat b], none)
  else if b < 0xc2 then ([replacement], none)
  else if b < 0xe0 then ([], some ⟨b - 0xc0, 1, 0x80, 0xbf⟩)
  else if b < 0xf0 then
    -- no overlong forms, no surrogates
    ([], some ⟨b - 0xe0, 2, if b = 0xe0 then 0xa0 else 0x80, if b = 0xed then 0x9f else 0xbf⟩)
  else if b < 0xf5 then
    ([], some ⟨b - 0xf0, 3, if b = 0xf0 then 0x90 else 0x80, if b = 0xf4 then 0x8f else 0xbf⟩)
  else ([replacement], none)

/-- One byte: the characters it completes and what is pending after it. -/
def step (pending : Option Pending) (b : ℕ) : List Char × Option Pending :=
  match pending with
  | none => start b
  | some p =>
    if p.lower ≤ b ∧ b ≤ p.upper then
      if p.needed = 1 then ([Char.ofNat (p.point * 64 + (b - 0x80))], none)
      else ([], some ⟨p.point * 64 + (b - 0x80), p.needed - 1, 0x80, 0xbf⟩)
    else (replacement :: (start b).1, (start b).2)

def decodeFrom : Option Pending → List UInt8 → List Char
  | none, [] => []
  | some _, [] => [replacement]
  | pending, b :: bs => (step pending b.toNat).1 ++ decodeFrom (step pending b.toNat).2 bs

def decode (bs : List UInt8) : List Char := decodeFrom none bs

/-! ## The bytes of a character -/

theorem decodeFrom_cons (pending : Option Pending) {n : ℕ} (hn : n < 256) (bs : List UInt8) :
    decodeFrom pending (UInt8.ofNat n :: bs)
      = (step pending n).1 ++ decodeFrom (step pending n).2 bs := by
  have htoNat : (UInt8.ofNat n).toNat = n := by
    rw [UInt8.toNat_ofNat']
    exact Nat.mod_eq_of_lt hn
  cases pending <;> rw [decodeFrom, htoNat]

/-- A byte that goes on with the character and does not end it. -/
theorem step_continue {p : Pending} {n : ℕ} (hl : p.lower ≤ n) (hu : n ≤ p.upper)
    (hneeded : p.needed ≠ 1) :
    step (some p) n = ([], some ⟨p.point * 64 + (n - 0x80), p.needed - 1, 0x80, 0xbf⟩) := by
  simp only [step]
  rw [if_pos ⟨hl, hu⟩, if_neg hneeded]

/-- The last byte of a character. -/
theorem step_last {p : Pending} {n : ℕ} (hl : p.lower ≤ n) (hu : n ≤ p.upper)
    (hneeded : p.needed = 1) :
    step (some p) n = ([Char.ofNat (p.point * 64 + (n - 0x80))], none) := by
  simp only [step]
  rw [if_pos ⟨hl, hu⟩, if_pos hneeded]

theorem start_two {n : ℕ} (hl : 0xc2 ≤ n) (hu : n < 0xe0) :
    step none n = ([], some ⟨n - 0xc0, 1, 0x80, 0xbf⟩) := by
  simp only [step, start]
  rw [if_neg (by omega), if_neg (by omega), if_pos hu]

theorem start_three {n : ℕ} (hl : 0xe0 ≤ n) (hu : n < 0xf0) :
    step none n = ([], some ⟨n - 0xe0, 2, if n = 0xe0 then 0xa0 else 0x80,
      if n = 0xed then 0x9f else 0xbf⟩) := by
  simp only [step, start]
  rw [if_neg (by omega), if_neg (by omega), if_neg (by omega), if_pos hu]

theorem start_four {n : ℕ} (hl : 0xf0 ≤ n) (hu : n < 0xf5) :
    step none n = ([], some ⟨n - 0xf0, 3, if n = 0xf0 then 0x90 else 0x80,
      if n = 0xf4 then 0x8f else 0xbf⟩) := by
  simp only [step, start]
  rw [if_neg (by omega), if_neg (by omega), if_neg (by omega), if_neg (by omega), if_pos hu]

/-- The bytes of a character are read as that character. -/
theorem decodeFrom_char (c : Char) (bs : List UInt8) :
    decodeFrom none (String.utf8EncodeChar c ++ bs) = c :: decodeFrom none bs := by
  have hvalid : c.val.toNat < 0xd800 ∨ 0xdfff < c.val.toNat ∧ c.val.toNat < 0x110000 := c.valid
  have hc : Char.ofNat c.val.toNat = c := Char.ofNat_toNat c
  unfold String.utf8EncodeChar
  generalize c.val.toNat = v at hvalid hc
  simp only
  by_cases h1 : v ≤ 0x7f
  · rw [if_pos h1, List.cons_append, List.nil_append, decodeFrom_cons _ (by omega)]
    simp only [step, start]
    rw [if_pos (by omega), hc]
    rfl
  rw [if_neg h1]
  by_cases h2 : v ≤ 0x7ff
  · rw [if_pos h2, List.cons_append, List.cons_append, List.nil_append,
      decodeFrom_cons _ (by omega), start_two (by omega) (by omega), decodeFrom_cons _ (by omega),
      step_last (by simp only; omega) (by simp only; omega) rfl]
    have hpoint : (v / 64 % 32 + 192 - 192) * 64 + (v % 64 + 128 - 128) = v := by omega
    simp only [hpoint, hc, List.nil_append, List.cons_append]
  rw [if_neg h2]
  by_cases h3 : v ≤ 0xffff
  · rw [if_pos h3, List.cons_append, List.cons_append, List.cons_append, List.nil_append,
      decodeFrom_cons _ (by omega), start_three (by omega) (by omega), decodeFrom_cons _ (by omega),
      step_continue (by simp only; split_ifs <;> omega) (by simp only; split_ifs <;> omega)
        (by simp),
      decodeFrom_cons _ (by omega),
      step_last (by simp only; omega) (by simp only; omega) rfl]
    have hpoint : ((v / 4096 % 16 + 224 - 224) * 64 + (v / 64 % 64 + 128 - 128)) * 64
        + (v % 64 + 128 - 128) = v := by omega
    simp only [hpoint, hc, List.nil_append, List.cons_append]
  · rw [if_neg h3, List.cons_append, List.cons_append, List.cons_append, List.cons_append,
      List.nil_append, decodeFrom_cons _ (by omega), start_four (by omega) (by omega),
      decodeFrom_cons _ (by omega),
      step_continue (by simp only; split_ifs <;> omega) (by simp only; split_ifs <;> omega)
        (by simp),
      decodeFrom_cons _ (by omega),
      step_continue (by simp only; omega) (by simp only; omega) (by simp),
      decodeFrom_cons _ (by omega),
      step_last (by simp only; omega) (by simp only; omega) rfl]
    have hpoint : (((v / 262144 % 8 + 240 - 240) * 64 + (v / 4096 % 64 + 128 - 128)) * 64
        + (v / 64 % 64 + 128 - 128)) * 64 + (v % 64 + 128 - 128) = v := by omega
    simp only [hpoint, hc, List.nil_append, List.cons_append]

/-- **Decoding undoes encoding.** -/
theorem decode_encode (cs : List Char) : decode (cs.flatMap String.utf8EncodeChar) = cs := by
  unfold decode
  induction cs with
  | nil => rfl
  | cons c cs ih => rw [List.flatMap_cons, decodeFrom_char, ih]

-- the euro sign without its last byte
example : decode [0xe2, 0x82, 0x41] = [replacement, 'A'] := by decide

end Utf8
