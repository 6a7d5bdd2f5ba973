import Gavl.Det.CanonicalTheorems
import Gavl.Det.Shape
import Gavl.Lib.PrefixCode

/-!
# Fields of a hashed message

Lowercase hex, numbers of a fixed width and length-prefixed strings: what each of them contributes
to a message can be split off its front in one way only.
-/

namespace Gavl

variable {n m : ℕ} {s : String}

/-! ## Hex -/

/-- A lowercase hex digit is the digit of its value. -/
theorem hexDigit?_of_lower {c : Char}
    (h : (c.isDigit || (decide ('a' ≤ c) && decide (c ≤ 'f'))) = true) :
    ∃ n < 16, hexDigit? c = some n ∧ hexChar n = c := by
  have hrange : 48 ≤ c.toNat ∧ c.toNat ≤ 57 ∨ 97 ≤ c.toNat ∧ c.toNat ≤ 102 := by
    rw [Bool.or_eq_true, Bool.and_eq_true, decide_eq_true_eq, decide_eq_true_eq,
      Char.isDigit_iff_toNat] at h
    exact h
  have key : ∀ k : Fin 103, (48 ≤ k.val ∧ k.val ≤ 57 ∨ 97 ≤ k.val) →
      ∃ n < 16, hexDigit? (Char.ofNat k) = some n ∧ hexChar n = Char.ofNat k := by decide
  have := key ⟨c.toNat, by omega⟩ (hrange.imp id And.left)
  rwa [Char.ofNat_toNat] at this

theorem hexByte_ofNat {x y : ℕ} (hx : x < 16) (hy : y < 16) :
    hexByte (UInt8.ofNat (16 * x + y)) = [hexChar x, hexChar y] := by
  have hnat : (UInt8.ofNat (16 * x + y)).toNat = 16 * x + y := by
    rw [UInt8.toNat_ofNat']
    exact Nat.mod_eq_of_lt (by omega)
  have hdiv : (16 * x + y) / 16 = x := by omega
  have hmod : (16 * x + y) % 16 = y := by omega
  rw [hexByte, hnat, hdiv, hmod]

theorem flatMap_fromHexChars : ∀ (n : ℕ) (cs : List Char), cs.length = 2 * n →
    (∀ c ∈ cs, (c.isDigit || (decide ('a' ≤ c) && decide (c ≤ 'f'))) = true) →
      (fromHexChars cs).flatMap hexByte = cs ∧ (fromHexChars cs).length = n
  | 0, cs, hlen, _ => by
    obtain rfl := List.length_eq_zero_iff.mp hlen
    exact ⟨rfl, rfl⟩
  | n + 1, [], hlen, _ => by simp at hlen
  | n + 1, [_], hlen, _ => by simp at hlen; omega
  | n + 1, a :: b :: cs, hlen, hall => by
    obtain ⟨ha, hall⟩ := List.forall_mem_cons.mp hall
    obtain ⟨hb, hall⟩ := List.forall_mem_cons.mp hall
    obtain ⟨x, hx, hax, hxa⟩ := hexDigit?_of_lower ha
    obtain ⟨y, hy, hby, hyb⟩ := hexDigit?_of_lower hb
    obtain ⟨hrest, hcount⟩ := flatMap_fromHexChars n cs
      (by rw [List.length_cons, List.length_cons] at hlen; omega) hall
    have hbyte : fromHexChars (a :: b :: cs) = UInt8.ofNat (16 * x + y) :: fromHexChars cs := by
      rw [fromHexChars, hax, hby]
    rw [hbyte, List.flatMap_cons, hexByte_ofNat hx hy, hxa, hyb, hrest, List.length_cons, hcount]
    exact ⟨rfl, rfl⟩

/-- Lowercase hex is what its bytes are written as. -/
theorem toHex_fromHex (h : isHexOf (2 * n) s = true) : toHex (fromHex s) = s := by
  unfold isHexOf at h
  rw [Bool.and_eq_true, decide_eq_true_eq, List.all_eq_true] at h
  unfold toHex fromHex
  rw [(flatMap_fromHexChars n s.toList h.1 h.2).1, String.ofList_toList]

theorem length_fromHex (h : isHexOf (2 * n) s = true) : (fromHex s).length = n := by
  unfold isHexOf at h
  rw [Bool.and_eq_true, decide_eq_true_eq, List.all_eq_true] at h
  exact (flatMap_fromHexChars n s.toList h.1 h.2).2

theorem prefixCode_fromHex (n : ℕ) : PrefixCode {s | isHexOf (2 * n) s = true} fromHex := by
  refine PrefixCode.of_length (fun s hs => length_fromHex hs) ?_
  intro s hs t ht h
  rw [← toHex_fromHex hs, h, toHex_fromHex ht]

/-! ## Numbers -/

/-- What a byte keeps of a number. -/
theorem mod_eq_of_byte {a b : ℕ} (h : UInt8.ofNat a = UInt8.ofNat b) : a % 256 = b % 256 := by
  have := congrArg UInt8.toNat h
  rwa [UInt8.toNat_ofNat', UInt8.toNat_ofNat'] at this

/-- Big-endian unsigned 16-bit encoding. -/
def u16be (n : ℕ) : Bytes := [n / 256, n % 256].map UInt8.ofNat

theorem prefixCode_u16be : PrefixCode {n | n ≤ 0xffff} u16be := by
  refine PrefixCode.of_length (n := 2) (fun _ _ => rfl) ?_
  intro n hn m hm h
  have hn' : n ≤ 0xffff := hn
  have hm' : m ≤ 0xffff := hm
  simp only [u16be, List.map_cons, List.map_nil, List.cons.injEq, and_true] at h
  have h₁ := mod_eq_of_byte h.1
  have h₂ := mod_eq_of_byte h.2
  omega

theorem mod_eq_of_u32be (h : u32be n = u32be m) : n % 2 ^ 32 = m % 2 ^ 32 := by
  simp only [u32be, List.map_cons, List.map_nil, List.cons.injEq, and_true] at h
  obtain ⟨h₀, h₁, h₂, h₃⟩ := h
  have h₀ := mod_eq_of_byte h₀
  have h₁ := mod_eq_of_byte h₁
  have h₂ := mod_eq_of_byte h₂
  have h₃ := mod_eq_of_byte h₃
  omega

theorem prefixCode_u32be : PrefixCode {n | n < 2 ^ 32} u32be :=
  PrefixCode.of_length (n := 4) (fun _ _ => rfl) fun n hn m hm h => by
    have hn' : n < 2 ^ 32 := hn
    have hm' : m < 2 ^ 32 := hm
    have := mod_eq_of_u32be h
    omega

/-! ## Strings -/

/-- A string whose length fits the two bytes in front of it. -/
def Fits (s : String) : Prop := (utf8 s.toList).length ≤ 0xffff

instance : DecidablePred Fits := fun _ => inferInstanceAs (Decidable (_ ≤ _))

/-- A string behind the length of its UTF-8. -/
def fieldBytes (s : String) : Bytes := u16be (utf8 s.toList).length ++ utf8 s.toList

theorem prefixCode_fieldBytes : PrefixCode {s | Fits s} fieldBytes := by
  refine PrefixCode.lengthPrefixed (f := fun s : String => utf8 s.toList) prefixCode_u16be
    (fun s hs => hs) ?_
  intro s _ t _ h
  exact String.toList_injective (utf8_injective h)

theorem fieldBytes_ne_nil (s : String) : fieldBytes s ≠ [] := by
  unfold fieldBytes u16be
  simp

end Gavl
