import Gavl.Det.Number
import Gavl.Det.Shape
import Gavl.Lib.OrderedMap

/-!
# `JSON.parse`

The value a text stands for. Strings are well-formed Unicode: an escape of a lone surrogate names
no character and is refused. So is a literal beyond the largest double, an infinity in the language,
which no JSON value holds.
-/

namespace Gavl

/-! ## Numbers in print -/

namespace Double

/-- The multiple of `10 ^ e` nearest to a double that the double is read back from, else the one on
the other side of it. -/
def candidate? (units : ℕ) (e : ℤ) : Option (ℕ × ℤ) :=
  let num := if 0 ≤ e then units else units * 10 ^ (-e).toNat
  let den := if 0 ≤ e then 2 ^ 1074 * 10 ^ e.toNat else 2 ^ 1074
  let near := roundHalfEven num den
  ([near, 2 * (num / den) + 1 - near].find? (fun s =>
    decide (0 < s) && decide (ofDecimal false s e = .finite units))).map (fun s => (s, e))

/-- The fewest digits a positive double is read back from, and their exponent: a coarser unit needs
fewer digits. -/
def shortest? (units : ℕ) : Option (ℕ × ℤ) :=
  (List.range 633).findSome? (fun i : ℕ => candidate? units (308 - (i : ℤ)))

/-- Digits times `10 ^ e`, the way `Number.prototype.toString` lays them out. -/
def layout (digits : List Char) (e : ℤ) : List Char :=
  let point : ℤ := digits.length + e
  if 0 ≤ e ∧ point ≤ 21 then digits ++ List.replicate e.toNat '0'
  else if 0 < point ∧ point ≤ 21 then
    digits.take point.toNat ++ '.' :: digits.drop point.toNat
  else if -6 < point ∧ point ≤ 0 then
    '0' :: '.' :: (List.replicate (-point).toNat '0' ++ digits)
  else
    digits.take 1 ++ (if digits.length = 1 then [] else '.' :: digits.drop 1) ++
      'e' :: (if 0 ≤ point - 1 then '+' else '-') :: Nat.toDigits 10 (point - 1).natAbs

theorem layout_wf {digits : List Char} (e : ℤ) (hne : digits ≠ [])
    (hall : digits.all isNumberChar = true) :
    layout digits e ≠ [] ∧ (layout digits e).all isNumberChar = true := by
  have hzeros : ∀ n, (List.replicate n '0').all isNumberChar = true := fun n => by
    rw [List.all_eq_true]
    intro c hc
    rw [(List.mem_replicate.mp hc).2]
    decide
  have htake : ∀ n, (digits.take n).all isNumberChar = true := fun n =>
    List.all_eq_true.mpr fun c hc => List.all_eq_true.mp hall c (List.mem_of_mem_take hc)
  have hdrop : ∀ n, (digits.drop n).all isNumberChar = true := fun n =>
    List.all_eq_true.mpr fun c hc => List.all_eq_true.mp hall c (List.mem_of_mem_drop hc)
  have htail : digits.tail.all isNumberChar = true := by
    rw [← List.drop_one]
    exact hdrop 1
  have hzero : isNumberChar '0' = true := by decide
  have hpoint : isNumberChar '.' = true := by decide
  have he : isNumberChar 'e' = true := by decide
  have hsigns : isNumberChar '+' = true ∧ isNumberChar '-' = true := by decide
  unfold layout
  simp only
  split_ifs <;>
    simp [-List.all_eq_true, -List.all_replicate, hne, hall, hzeros, htake, hdrop, htail, hzero,
      hpoint, he, hsigns, (natText_wf _).2]

end Double

/-- The number a double prints as; nothing for what is no finite double. -/
def JsNum.ofDouble? : Double → Option JsNum
  | .finite units =>
    if units = 0 then some (.ofNat 0)
    else (Double.shortest? units.natAbs).map (fun (digits, e) =>
      ⟨(if units < 0 then ['-'] else []) ++ Double.layout (Nat.toDigits 10 digits) e, by
        obtain ⟨hne, hall⟩ := Double.layout_wf e (natText_wf digits).1 (natText_wf digits).2
        split_ifs
        · exact ⟨by simp, by rw [List.all_append, hall]; rfl⟩
        · exact ⟨hne, hall⟩⟩)
  | _ => none

namespace Json

/-! ## Literals -/

def isBlank (c : Char) : Bool := c == ' ' || c == '\t' || c == '\n' || c == '\r'

def skip (cs : List Char) : List Char := cs.dropWhile isBlank

/-- A fraction part, when there is one: its digits. -/
def fraction? : List Char → Option (List Char × List Char)
  | '.' :: cs =>
    if cs.takeWhile Char.isDigit = [] then none
    else some (cs.takeWhile Char.isDigit, cs.dropWhile Char.isDigit)
  | cs => some ([], cs)

/-- The digits of an exponent, after its sign. -/
def exponentDigits? (sign : ℤ) (cs : List Char) : Option (ℤ × List Char) :=
  if cs.takeWhile Char.isDigit = [] then none
  else some (sign * Nat.ofDigitChars 10 (cs.takeWhile Char.isDigit) 0, cs.dropWhile Char.isDigit)

/-- An exponent part, when there is one. -/
def exponent? : List Char → Option (ℤ × List Char)
  | c :: cs =>
    if c = 'e' ∨ c = 'E' then
      match cs with
      | '-' :: cs => exponentDigits? (-1) cs
      | '+' :: cs => exponentDigits? 1 cs
      | cs => exponentDigits? 1 cs
    else some (0, c :: cs)
  | [] => some (0, [])

/-- A number after its sign: the whole part has no leading zero. -/
def unsigned? (negative : Bool) (cs : List Char) : Option (JsNum × List Char) :=
  let whole := cs.takeWhile Char.isDigit
  if whole = [] ∨ (whole.head? = some '0' ∧ whole ≠ ['0']) then none
  else do
    let (frac, rest) ← fraction? (cs.dropWhile Char.isDigit)
    let (e, rest) ← exponent? rest
    let n ← JsNum.ofDouble?
      (Double.ofDecimal negative (Nat.ofDigitChars 10 (whole ++ frac) 0) (e - frac.length))
    return (n, rest)

def number? : List Char → Option (JsNum × List Char)
  | '-' :: cs => unsigned? true cs
  | cs => unsigned? false cs

/-- Four hex digits. -/
def hex4? : List Char → Option (ℕ × List Char)
  | a :: b :: c :: d :: rest => do
    return (16 * (16 * (16 * (← hexDigit? a) + (← hexDigit? b)) + (← hexDigit? c)) + (← hexDigit? d),
      rest)
  | _ => none

/-- The character of a `\u` escape. A high surrogate is one only with the low one after it. -/
def unicode? (cs : List Char) : Option (Char × List Char) := do
  let (unit, rest) ← hex4? cs
  if unit < 0xD800 ∨ 0xDFFF < unit then return (Char.ofNat unit, rest)
  else if 0xDC00 ≤ unit then none
  else
    match rest with
    | '\\' :: 'u' :: rest =>
      let (low, rest) ← hex4? rest
      if 0xDC00 ≤ low ∧ low ≤ 0xDFFF then
        return (Char.ofNat (0x10000 + (unit - 0xD800) * 0x400 + (low - 0xDC00)), rest)
      else none
    | _ => none

/-- The character of an escape, after its backslash. -/
def escaped? : List Char → Option (Char × List Char)
  | '"' :: rest => some ('"', rest)
  | '\\' :: rest => some ('\\', rest)
  | '/' :: rest => some ('/', rest)
  | 'b' :: rest => some (Char.ofNat 8, rest)
  | 'f' :: rest => some (Char.ofNat 12, rest)
  | 'n' :: rest => some (Char.ofNat 10, rest)
  | 'r' :: rest => some (Char.ofNat 13, rest)
  | 't' :: rest => some (Char.ofNat 9, rest)
  | 'u' :: rest => unicode? rest
  | _ => none

/-- A string after its opening quote. Every round takes a character off the text. -/
def chars? : ℕ → List Char → Option (List Char × List Char)
  | 0, _ => none
  | _ + 1, [] => none
  | n + 1, c :: rest =>
    if c = '"' then some ([], rest)
    else if c = '\\' then do
      let (d, rest) ← escaped? rest
      let (cs, rest) ← chars? n rest
      return (d :: cs, rest)
    else if c.toNat < 32 then none
    else do
      let (cs, rest) ← chars? n rest
      return (c :: cs, rest)

def string?' (cs : List Char) : Option (String × List Char) :=
  (chars? cs.length cs).map (fun (s, rest) => (String.ofList s, rest))

/-! ## Values -/

/-- Array indices come first in an object, in numeric order; the other keys stay as they were set. -/
def indexLe (a b : String × Json) : Bool :=
  match arrayIndex? a.1, arrayIndex? b.1 with
  | some m, some n => decide (m ≤ n)
  | some _, none => true
  | none, some _ => false
  | none, none => true

/-- The object with the given members assigned in turn. -/
def ofMembers (members : List (String × Json)) : Json :=
  .obj ((members.foldl (fun m e => OrderedMap.set m e.1 e.2) (∅ : OrderedMap String Json)).entries.insertionSort
    (fun a b => indexLe a b = true))

mutual

/-- A value at the front of a text, and the text after it. Two rounds for each character are
enough. -/
def value? : ℕ → List Char → Option (Json × List Char)
  | 0, _ => none
  | n + 1, cs =>
    match skip cs with
    | 'n' :: 'u' :: 'l' :: 'l' :: rest => some (.null, rest)
    | 't' :: 'r' :: 'u' :: 'e' :: rest => some (.bool true, rest)
    | 'f' :: 'a' :: 'l' :: 's' :: 'e' :: rest => some (.bool false, rest)
    | '"' :: rest => (string?' rest).map (fun (s, rest) => (.str s, rest))
    | '[' :: rest =>
      match skip rest with
      | ']' :: rest => some (.arr [], rest)
      | rest => (items? n rest).map (fun (items, rest) => (.arr items, rest))
    | '{' :: rest =>
      match skip rest with
      | '}' :: rest => some (.obj [], rest)
      | rest => (members? n rest).map (fun (members, rest) => (ofMembers members, rest))
    | rest => (number? rest).map (fun (x, rest) => (.num x, rest))

/-- The items of an array, one at least, up to its closing bracket. -/
def items? : ℕ → List Char → Option (List Json × List Char)
  | 0, _ => none
  | n + 1, cs => do
    let (v, rest) ← value? n cs
    match skip rest with
    | ',' :: rest =>
      let (vs, rest) ← items? n rest
      return (v :: vs, rest)
    | ']' :: rest => return ([v], rest)
    | _ => none

/-- The members of an object, one at least, up to its closing brace. -/
def members? : ℕ → List Char → Option (List (String × Json) × List Char)
  | 0, _ => none
  | n + 1, cs =>
    match skip cs with
    | '"' :: rest => do
      let (k, rest) ← string?' rest
      match skip rest with
      | ':' :: rest =>
        let (v, rest) ← value? n rest
        match skip rest with
        | ',' :: rest =>
          let (fs, rest) ← members? n rest
          return ((k, v) :: fs, rest)
        | '}' :: rest => return ([(k, v)], rest)
        | _ => none
      | _ => none
    | _ => none

end

/-- `JSON.parse`; `none` where it throws. -/
def parse (cs : List Char) : Option Json :=
  match value? (2 * cs.length + 2) cs with
  | none => none
  | some (v, rest) => if skip rest = [] then some v else none

end Json

end Gavl
