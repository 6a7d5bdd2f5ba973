import Gavl.Det.Canonical

/-!
# Arithmetic on JSON values

What the language makes of a JSON value that stands where a number is expected: subtraction
converts both sides to doubles, whatever they are.
-/

namespace Gavl

/-! ## Doubles -/

/-- A double. A finite one is an integer multiple of the least subnormal, `2 ^ -1074`. -/
inductive Double where
  | nan
  | infinite (negative : Bool)
  | finite (units : ℤ)
deriving DecidableEq

namespace Double

/-- `n / d` to the nearest integer, ties to even. -/
def roundHalfEven (n d : ℕ) : ℕ :=
  if 2 * (n % d) < d then n / d
  else if d < 2 * (n % d) then n / d + 1
  else n / d + n / d % 2

/-- `n / d` to 53 significant bits. -/
def round53 (n d : ℕ) : ℕ := roundHalfEven n (d * 2 ^ (Nat.log2 (n / d) - 52)) * 2 ^ (Nat.log2 (n / d) - 52)

/-- The double nearest to `n / d` least subnormals. -/
def ofUnits (negative : Bool) (n d : ℕ) : Double :=
  if 2 ^ (1024 + 1074) ≤ round53 n d then .infinite negative
  else .finite (if negative then -(round53 n d : ℤ) else round53 n d)

/-- The double nearest to `digits * 10 ^ exponent`. -/
def ofDecimal (negative : Bool) (digits : ℕ) (exponent : ℤ) : Double :=
  if 0 ≤ exponent then ofUnits negative (digits * 10 ^ exponent.toNat * 2 ^ 1074) 1
  else ofUnits negative (digits * 2 ^ 1074) (10 ^ (-exponent).toNat)

/-- The sign of `x - y`; 0 where the difference is not a number. -/
def diff : Double → Double → ℤ
  | .nan, _ => 0
  | _, .nan => 0
  | .finite x, .finite y => x - y
  | .finite _, .infinite negative => if negative then 1 else -1
  | .infinite negative, .finite _ => if negative then -1 else 1
  | .infinite a, .infinite b => if a = b then 0 else if a then -1 else 1

end Double

/-- The decimal text of an integer, as a JSON number. -/
def JsNum.ofInt (n : ℤ) : JsNum :=
  if 0 ≤ n then .ofNat n.toNat
  else ⟨'-' :: Nat.toDigits 10 (-n).toNat, by simp, by
    rw [List.all_cons, (natText_wf _).2]
    rfl⟩

/-! ## Numbers in text -/

/-- An exponent part, or none. -/
def exponentOf? : List Char → Option ℤ
  | [] => some 0
  | e :: rest =>
    if e = 'e' ∨ e = 'E' then
      let (sign, digits) := match rest with
        | '-' :: ds => (-1, ds)
        | '+' :: ds => (1, ds)
        | ds => ((1 : ℤ), ds)
      if digits ≠ [] ∧ digits.all Char.isDigit then some (sign * Nat.ofDigitChars 10 digits 0) else none
    else none

/-- A decimal literal without a sign: its digits and their exponent. -/
def decimalOf? (cs : List Char) : Option (ℕ × ℤ) :=
  let (int, rest) := cs.span Char.isDigit
  let (frac, rest) := match rest with
    | '.' :: ds => ds.span Char.isDigit
    | ds => ([], ds)
  if int = [] ∧ frac = [] then none
  else (exponentOf? rest).map (fun e => (Nat.ofDigitChars 10 (int ++ frac) 0, e - frac.length))

/-- Digits of a radix up to 16, at least one. -/
def radixOf? (radix : ℕ) (digits : List Char) : Option ℕ :=
  if digits = [] then none
  else digits.foldl (fun acc c => do
    let d ← (hexDigit? c).filter (fun d => decide (d < radix))
    return radix * (← acc) + d) (some 0)

/-- White space and line terminators. -/
def isSpace (c : Char) : Bool :=
  decide (c.toNat ∈ [0x09, 0x0a, 0x0b, 0x0c, 0x0d, 0x20, 0xa0, 0x1680, 0x2028, 0x2029, 0x202f, 0x205f,
    0x3000, 0xfeff]) || (decide (0x2000 ≤ c.toNat) && decide (c.toNat ≤ 0x200a))

/-- A decimal literal or an infinity, after its sign. -/
def signedOf (negative : Bool) (cs : List Char) : Double :=
  if cs = "Infinity".toList then .infinite negative
  else match decimalOf? cs with
    | none => .nan
    | some (digits, exponent) => Double.ofDecimal negative digits exponent

/-- `Number(s)`. -/
def numberOfText (s : List Char) : Double :=
  let cs := ((s.dropWhile isSpace).reverse.dropWhile isSpace).reverse
  let radix (r : ℕ) (digits : List Char) : Double := match radixOf? r digits with
    | none => .nan
    | some n => Double.ofDecimal false n 0
  match cs with
  | [] => .finite 0
  | '0' :: 'x' :: ds => radix 16 ds
  | '0' :: 'X' :: ds => radix 16 ds
  | '0' :: 'o' :: ds => radix 8 ds
  | '0' :: 'O' :: ds => radix 8 ds
  | '0' :: 'b' :: ds => radix 2 ds
  | '0' :: 'B' :: ds => radix 2 ds
  | '-' :: ds => signedOf true ds
  | '+' :: ds => signedOf false ds
  | ds => signedOf false ds

/-- The value of a JSON number. -/
def JsNum.value (n : JsNum) : Double := numberOfText n.text

namespace Json

mutual

/-- `Array.prototype.join`: `null` is left out. -/
def joinItems : List Json → List Char
  | [] => []
  | [v] => itemText v
  | v :: vs => itemText v ++ ',' :: joinItems vs

/-- An element of an array that is turned into text. -/
def itemText : Json → List Char
  | .null => []
  | .bool b => (if b then "true" else "false").toList
  | .num n => n.text
  | .str s => s.toList
  | .arr items => joinItems items
  | .obj _ => "[object Object]".toList

end

/-- What arithmetic makes of a value. -/
def toNumber : Json → Double
  | .null => .finite 0
  | .bool b => if b then Double.ofDecimal false 1 0 else .finite 0
  | .num n => n.value
  | .str s => numberOfText s.toList
  | .arr items => numberOfText (joinItems items)
  | .obj _ => .nan

/-- The sign of `x - y`; 0 where the difference is not a number. -/
def minus (x y : Json) : ℤ := Double.diff x.toNumber y.toNumber

/-- `x === y`, for values parsed apart: no two arrays or objects are the same. -/
def strictEq : Json → Json → Bool
  | .null, .null => true
  | .bool a, .bool b => a == b
  | .num m, .num n => decide (m.value = n.value)
  | .str s, .str t => s == t
  | _, _ => false

end Json

example : Json.minus (.str " 0x10 ") (.arr [.nat 15]) = 2 ^ 1074 := by decide +kernel

example : Json.minus (.str "later") (.nat 1) = 0 := by decide +kernel

/-! ## Facts -/

namespace Double

variable {x y z : Double}

@[simp] theorem diff_self (x : Double) : diff x x = 0 := by
  cases x <;> simp [diff]

theorem diff_antisymm (x y : Double) : diff y x = -diff x y := by
  cases x with
  | nan => cases y <;> simp [diff]
  | infinite a =>
    cases y with
    | nan => simp [diff]
    | infinite b => cases a <;> cases b <;> simp [diff]
    | finite b => cases a <;> simp [diff]
  | finite a =>
    cases y with
    | nan => simp [diff]
    | infinite b => cases b <;> simp [diff]
    | finite b => simp [diff]

/-- What stands before by value stands before what that stands before. -/
theorem diff_trans (hxy : diff x y < 0) (hyz : diff y z < 0) : diff x z < 0 := by
  cases x with
  | nan => simp [diff] at hxy
  | infinite a =>
    cases y with
    | nan => simp [diff] at hxy
    | infinite b =>
      cases z with
      | nan => simp [diff] at hyz
      | infinite c => cases a <;> cases b <;> cases c <;> simp [diff] at hxy hyz ⊢
      | finite c => cases a <;> cases b <;> simp [diff] at hxy hyz ⊢
    | finite b =>
      cases z with
      | nan => simp [diff] at hyz
      | infinite c => cases a <;> cases c <;> simp [diff] at hxy hyz ⊢
      | finite c => cases a <;> simp [diff] at hxy hyz ⊢
  | finite a =>
    cases y with
    | nan => simp [diff] at hxy
    | infinite b =>
      cases z with
      | nan => simp [diff] at hyz
      | infinite c => cases b <;> cases c <;> simp [diff] at hxy hyz ⊢
      | finite c => cases b <;> simp [diff] at hxy hyz ⊢
    | finite b =>
      cases z with
      | nan => simp [diff] at hyz
      | infinite c => cases c <;> simp [diff] at hxy hyz ⊢
      | finite c =>
        simp only [diff] at hxy hyz ⊢
        omega

end Double

namespace Json

variable {x y z : Json}

theorem strictEq_symm (h : strictEq x y = true) : strictEq y x = true := by
  cases x <;> cases y <;> simp_all [strictEq]

theorem strictEq_trans (hxy : strictEq x y = true) (hyz : strictEq y z = true) :
    strictEq x z = true := by
  cases x <;> cases y <;> simp [strictEq] at hxy <;> cases z <;> simp_all [strictEq]

theorem toNumber_eq_of_strictEq (h : strictEq x y = true) : x.toNumber = y.toNumber := by
  cases x <;> cases y <;> simp_all [strictEq, toNumber]

/-- What compares equal differs by nothing. -/
theorem minus_eq_zero_of_strictEq (h : strictEq x y = true) : minus x y = 0 := by
  unfold minus
  rw [toNumber_eq_of_strictEq h, Double.diff_self]

end Json

end Gavl
