import Mathlib.Data.List.DropRight
import Mathlib.Tactic

/-!
# Amounts as the desktop shows and reads them

Coin texts have up to eight decimals, amounts are unsigned 64-bit numbers of base units. An operation
that would overflow stops the program.
-/

namespace Gavl

namespace Desktop

/-- `u64::MAX`. -/
def u64Max : ℕ := 2 ^ 64 - 1

/-- `u32::MAX`. -/
def u32Max : ℕ := 2 ^ 32 - 1

/-- Base units per coin. -/
def unitsPerCoin : ℕ := 100000000

def decimals : ℕ := 8

/-- How a function ends without a result: it panics, or it returns an error. -/
inductive Stop (ε : Type) where
  | panic
  | err (e : ε)
deriving DecidableEq

section
variable {ε : Type}

/-- The result of an operation that must fit an unsigned type. -/
def fitting (max n : ℕ) : Except (Stop ε) ℕ := if n ≤ max then .ok n else .error .panic

/-- `a - b`. -/
def subU64 (a b : ℕ) : Except (Stop ε) ℕ := if b ≤ a then .ok (a - b) else .error .panic

/-- `checked_mul`, `checked_add` and the like. -/
def checked (max n : ℕ) : Option ℕ := if n ≤ max then some n else none

/-- `ok_or`. -/
def okOr (e : ε) : Option ℕ → Except (Stop ε) ℕ
  | some n => .ok n
  | none => .error (.err e)

end

/-! ## Strings -/

/-- Unicode's `White_Space`. -/
def isWhitespace (c : Char) : Bool :=
  let n := c.toNat
  (decide (9 ≤ n) && decide (n ≤ 13)) || n == 0x20 || n == 0x85 || n == 0xa0 || n == 0x1680 ||
    (decide (0x2000 ≤ n) && decide (n ≤ 0x200a)) || n == 0x2028 || n == 0x2029 || n == 0x202f ||
    n == 0x205f || n == 0x3000

def trim (s : List Char) : List Char := (s.dropWhile isWhitespace).rdropWhile isWhitespace

/-- Before and after the first `c`. -/
def splitOnce (c : Char) (s : List Char) : Option (List Char × List Char) :=
  if c ∈ s then
    some (s.takeWhile (fun d => decide (d ≠ c)), (s.dropWhile (fun d => decide (d ≠ c))).tail)
  else none

/-- `parse` of an unsigned type: digits, after a plus sign if there is one. -/
def parseUnsigned (max : ℕ) (s : List Char) : Option ℕ :=
  let digits := if s.head? = some '+' then s.tail else s
  if digits ≠ [] ∧ digits.all Char.isDigit then checked max (Nat.ofDigitChars 10 digits 0) else none

/-! ## Formatting -/

/-- Base units to a coin text with exactly eight decimals. -/
def coin (units : ℕ) : String :=
  String.ofList (Nat.toDigits 10 (units / unitsPerCoin) ++
    '.' :: (Nat.toDigits 10 (units % unitsPerCoin)).leftpad decimals '0')

/-- Base units to the shortest exact coin text. -/
def coinInput (units : ℕ) : String :=
  let trimmed := (coin units).toList.rdropWhile (fun c => decide (c = '0'))
  String.ofList (if trimmed.getLast? = some '.' then trimmed.dropLast else trimmed)

/-! ## Parsing -/

inductive AmountError where
  | empty
  /-- Anything other than digits and one decimal point. -/
  | invalid
  /-- More than 8 decimal places. -/
  | tooPrecise
  | tooLarge
deriving DecidableEq

namespace AmountError

def message : AmountError → String
  | empty => "Enter an amount."
  | invalid => "Use digits and a decimal point, e.g. 0.015."
  | tooPrecise => "At most 8 decimal places."
  | tooLarge => "That amount is too large."

end AmountError

/-- The units of the digits before the point. -/
def wholeUnits (whole : List Char) : Except (Stop AmountError) ℕ :=
  if whole = [] then .ok 0
  else do
    let n ← okOr .tooLarge (parseUnsigned u64Max whole)
    okOr .tooLarge (checked u64Max (n * unitsPerCoin))

/-- The units of the digits behind the point. -/
def fracUnits (frac : List Char) : Except (Stop AmountError) ℕ :=
  if frac = [] then .ok 0
  else do
    let n ← okOr .invalid (parseUnsigned u64Max frac)
    let scale ← fitting u64Max (10 ^ (← subU64 decimals frac.length))
    fitting u64Max (n * scale)

/-- Coin text to base units, exactly. -/
def parseCoin (input : String) : Except (Stop AmountError) ℕ :=
  let s := trim input.toList
  if s = [] then .error (.err .empty)
  else
    let (whole, frac) := (splitOnce '.' s).getD (s, [])
    if (whole = [] ∧ frac = []) ∨ !whole.all Char.isDigit ∨ !frac.all Char.isDigit then
      .error (.err .invalid)
    else if decimals < frac.length then .error (.err .tooPrecise)
    else do
      let w ← wholeUnits whole
      let f ← fracUnits frac
      okOr .tooLarge (checked u64Max (w + f))

/-- The want-leg owed for a fill, rounded down. The products are of 128 bits; the quotient is cut to
64. -/
def proRata (fill give want : ℕ) : ℕ := if give = 0 then 0 else fill * want / give % 2 ^ 64

end Desktop

end Gavl
