import Gavl.Det.Canonical

/-!
# Shape checks on parsed JSON

The primitive tests the strict parsers are written in: objects with exactly the specified
keys, lowercase hex of a fixed length, canonical positive decimals, small non-negative
integers.
-/

namespace Gavl

namespace Json

/-- The own keys of a plain object. -/
def keys? : Json → Option (List String)
  | .obj fields => some (fields.map Prod.fst)
  | _ => none

/-- `v[key]`; `none` for `undefined`, also on what is no object. -/
def get? (v : Json) (key : String) : Option Json :=
  match v with
  | .obj fields => (fields.find? (fun f => decide (f.1 = key))).map Prod.snd
  | _ => none

/-- `typeof v === "string"`, and the string. -/
def asString? : Json → Option String
  | .str s => some s
  | _ => none

/-- An integer from zero to `max`, at most 2^53: a number this small prints as its digits. -/
def asNat? (max : ℕ) : Json → Option ℕ
  | .num n =>
    if n.text.all Char.isDigit ∧ Nat.ofDigitChars 10 n.text 0 ≤ max then
      some (Nat.ofDigitChars 10 n.text 0)
    else none
  | _ => none

/-- A string member of an object. -/
def string? (v : Json) (key : String) : Option String := (v.get? key).bind asString?

/-- A plain object whose own keys are exactly `required` plus any of `optional`. -/
def exact (v : Json) (required optional : List String) : Bool :=
  match v.keys? with
  | none => false
  | some keys =>
    required.all (fun k => decide (k ∈ keys)) &&
      keys.all (fun k => decide (k ∈ required) || decide (k ∈ optional))

/-- `Object.keys(v).sort().join(",")`. -/
def joinedKeys (keys : List String) : String :=
  String.intercalate "," (keys.insertionSort (fun a b => a ≤ b))

end Json

/-- Exactly `len` lowercase hex digits. -/
def isHexOf (len : ℕ) (s : String) : Bool :=
  decide (s.toList.length = len) &&
    s.toList.all (fun c => c.isDigit || (decide ('a' ≤ c) && decide (c ≤ 'f')))

/-- A positive decimal of at most `maxDigits` digits, without sign or leading zero. -/
def isDecimal (maxDigits : ℕ) (s : String) : Bool :=
  match s.toList with
  | [] => false
  | first :: rest =>
    first.isDigit && decide (first ≠ '0') && rest.all Char.isDigit &&
      decide (rest.length + 1 ≤ maxDigits)

/-- `BigInt(s)` of a string of digits. -/
def decimalValue (s : String) : ℕ := Nat.ofDigitChars 10 s.toList 0

end Gavl
