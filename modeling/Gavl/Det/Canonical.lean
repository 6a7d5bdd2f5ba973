import Mathlib.Data.List.Sort
import Mathlib.Data.String.Basic
import Mathlib.Tactic

/-!
# Deterministic encoding and hashing

The canonical bytes every consensus hash is taken over: JSON with its object keys sorted
recursively, no incidental whitespace, UTF-8.

SHA-256 and Ed25519 are the platform's; a `Crypto` carries them. Everything between a value
and the bytes they are applied to is defined here.
-/

namespace Gavl

/-! ## Bytes and hex -/

abbrev Bytes := List UInt8

/-- UTF-8 encoding. -/
def utf8 (cs : List Char) : Bytes := cs.flatMap String.utf8EncodeChar

def hexChar (n : ℕ) : Char := Nat.digitChar n

/-- Two lowercase hex digits a byte. -/
def hexByte (b : UInt8) : List Char := [hexChar (b.toNat / 16), hexChar (b.toNat % 16)]

def toHex (b : Bytes) : String := String.ofList (b.flatMap hexByte)

/-- The value of a hex digit of either case. -/
def hexDigit? (c : Char) : Option ℕ :=
  if '0' ≤ c ∧ c ≤ '9' then some (c.toNat - '0'.toNat)
  else if 'a' ≤ c ∧ c ≤ 'f' then some (c.toNat - 'a'.toNat + 10)
  else if 'A' ≤ c ∧ c ≤ 'F' then some (c.toNat - 'A'.toNat + 10)
  else none

/-- Hex decoding: pairs of digits up to the first pair that is not hex, an odd digit at the
end dropped. -/
def fromHexChars : List Char → Bytes
  | a :: b :: rest =>
    match hexDigit? a, hexDigit? b with
    | some x, some y => UInt8.ofNat (16 * x + y) :: fromHexChars rest
    | _, _ => []
  | _ => []

def fromHex (h : String) : Bytes := fromHexChars h.toList

/-- `BigInt("0x" + h)` for a non-empty `h`; `none` where the conversion throws. -/
def hexToNat? (h : String) : Option ℕ :=
  h.toList.foldl (fun acc c => do return 16 * (← acc) + (← hexDigit? c)) (some 0)

/-- Big-endian unsigned 32-bit encoding. -/
def u32be (n : ℕ) : Bytes :=
  [n / 2 ^ 24, n / 2 ^ 16, n / 2 ^ 8, n].map UInt8.ofNat

/-! ## Hash and signature -/

/-- The platform's hash and signature check. -/
structure Crypto where
  sha256 : Bytes → Bytes
  /-- `ed.verify(publicKey, message, signature)`. -/
  edVerify : Bytes → Bytes → Bytes → Bool

def Crypto.sha256Hex (C : Crypto) (data : Bytes) : String := toHex (C.sha256 data)

/-! ## JSON -/

/-- Whether `c` can stand in the text of a number. -/
def isNumberChar (c : Char) : Bool := c.isDigit || c == '-' || c == '+' || c == '.' || c == 'e'

/-- A JSON number: a finite double, named by the text the language prints for it. That text
is a round trip, so distinct doubles have distinct texts (`-0` prints as `0`). -/
structure JsNum where
  text : List Char
  wf : text ≠ [] ∧ text.all isNumberChar
deriving DecidableEq

theorem natText_wf (n : ℕ) : Nat.toDigits 10 n ≠ [] ∧ (Nat.toDigits 10 n).all isNumberChar := by
  refine ⟨Nat.toDigits_ne_nil, ?_⟩
  rw [List.all_eq_true]
  intro c hc
  have := Nat.isDigit_of_mem_toDigits (by norm_num) (by norm_num) hc
  simp [isNumberChar, this]

/-- A non-negative integer as a JSON number. -/
def JsNum.ofNat (n : ℕ) : JsNum := ⟨Nat.toDigits 10 n, natText_wf n⟩

/-- A JSON value. An object keeps its keys in insertion order. -/
inductive Json where
  | null
  | bool (b : Bool)
  | num (n : JsNum)
  | str (s : String)
  | arr (items : List Json)
  | obj (fields : List (String × Json))

namespace Json

/-- A non-negative integer. -/
def nat (n : ℕ) : Json := .num (JsNum.ofNat n)

/-- A decimal string, the way a `bigint` crosses the wire. -/
def decimal (n : ℕ) : Json := .str (String.ofList (Nat.toDigits 10 n))

/-- `null` or a string. -/
def nullable : Option String → Json
  | none => .null
  | some s => .str s

/-- The UTF-16 code units of a string. -/
def utf16 (s : String) : List ℕ :=
  s.toList.flatMap (fun c =>
    if c.toNat < 0x10000 then [c.toNat]
    else [0xD800 + (c.toNat - 0x10000) / 0x400, 0xDC00 + (c.toNat - 0x10000) % 0x400])

/-- A key that is an array index: the decimal of a number below `2^32 - 1`. -/
def arrayIndex? (k : String) : Option ℕ :=
  if k.toList.all Char.isDigit ∧ k.toList = Nat.toDigits 10 (Nat.ofDigitChars 10 k.toList 0) ∧
      Nat.ofDigitChars 10 k.toList 0 < 2 ^ 32 - 1 then
    some (Nat.ofDigitChars 10 k.toList 0)
  else none

/-- What the place of a key is decided by: array indices come first, in numeric order. -/
def keyRank (k : String) : List ℕ :=
  match arrayIndex? k with
  | some n => [0, n]
  | none => 1 :: utf16 k

/-- The order in which an object lists its keys that was filled in the order of
`Array.prototype.sort`, the one of the UTF-16 code units. -/
def keyLe (a b : String × Json) : Prop := keyRank a.1 ≤ keyRank b.1

instance : DecidableRel keyLe := fun a b => inferInstanceAs (Decidable (keyRank a.1 ≤ keyRank b.1))

mutual

/-- `sortValue`: object keys sorted, recursively. Assigning to the key `__proto__` of a plain
object sets its prototype instead of a property, so that key does not survive. -/
def sortValue : Json → Json
  | .arr items => .arr (sortItems items)
  | .obj fields =>
    .obj (((sortFields fields).filter (fun e => decide (e.1 ≠ "__proto__"))).insertionSort keyLe)
  | .null => .null
  | .bool b => .bool b
  | .num n => .num n
  | .str s => .str s

def sortItems : List Json → List Json
  | [] => []
  | v :: vs => sortValue v :: sortItems vs

def sortFields : List (String × Json) → List (String × Json)
  | [] => []
  | (k, v) :: fs => (k, sortValue v) :: sortFields fs

end

/-- The four hex digits of a `\u` escape of a control character. -/
def unicodeEscape (c : Char) : List Char :=
  ['\\', 'u', '0', '0', hexChar (c.toNat / 16), hexChar (c.toNat % 16)]

/-- One character inside a JSON string literal. -/
def escapeChar (c : Char) : List Char :=
  if c = '"' then ['\\', '"']
  else if c = '\\' then ['\\', '\\']
  else if c.toNat = 8 then ['\\', 'b']
  else if c.toNat = 9 then ['\\', 't']
  else if c.toNat = 10 then ['\\', 'n']
  else if c.toNat = 12 then ['\\', 'f']
  else if c.toNat = 13 then ['\\', 'r']
  else if c.toNat < 32 then unicodeEscape c
  else [c]

def quote (s : String) : List Char := '"' :: s.toList.flatMap escapeChar ++ ['"']

mutual

/-- `JSON.stringify` without indentation. -/
def stringify : Json → List Char
  | .null => ['n', 'u', 'l', 'l']
  | .bool true => ['t', 'r', 'u', 'e']
  | .bool false => ['f', 'a', 'l', 's', 'e']
  | .num n => n.text
  | .str s => quote s
  | .arr items => '[' :: stringifyItems items ++ [']']
  | .obj fields => '{' :: stringifyFields fields ++ ['}']

def stringifyItems : List Json → List Char
  | [] => []
  | [v] => stringify v
  | v :: w :: vs => stringify v ++ ',' :: stringifyItems (w :: vs)

def stringifyFields : List (String × Json) → List Char
  | [] => []
  | [(k, v)] => quote k ++ ':' :: stringify v
  | (k, v) :: f :: fs => quote k ++ ':' :: stringify v ++ ',' :: stringifyFields (f :: fs)

end

end Json

/-- Deterministic JSON text: recursively key-sorted, no extra whitespace. -/
def canonicalize (value : Json) : List Char := value.sortValue.stringify

/-- UTF-8 bytes of the canonical JSON encoding. -/
def canonicalBytes (value : Json) : Bytes := utf8 (canonicalize value)

end Gavl
