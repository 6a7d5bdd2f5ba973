import Gavl.Det.Number
import Gavl.Det.Record

/-!
# Deserializing arbitrary JSON

The types of a state are not there when it is read: a field is copied whatever it is, `undefined`
where it is missing, and only the comparison of the encodings decides what passes.
-/

namespace Gavl

namespace Untyped

open Json (Field ofFields)

/-! ## The language -/

/-- `BigInt(text)`. -/
def bigIntOfText (text : List Char) : Option ℤ :=
  let cs := ((text.dropWhile isSpace).reverse.dropWhile isSpace).reverse
  let digitsOf (ds : List Char) : Option ℤ :=
    if ds ≠ [] ∧ ds.all Char.isDigit then some (Nat.ofDigitChars 10 ds 0 : ℕ) else none
  match cs with
  | [] => some 0
  | '0' :: 'x' :: ds => (radixOf? 16 ds).map Int.ofNat
  | '0' :: 'X' :: ds => (radixOf? 16 ds).map Int.ofNat
  | '0' :: 'o' :: ds => (radixOf? 8 ds).map Int.ofNat
  | '0' :: 'O' :: ds => (radixOf? 8 ds).map Int.ofNat
  | '0' :: 'b' :: ds => (radixOf? 2 ds).map Int.ofNat
  | '0' :: 'B' :: ds => (radixOf? 2 ds).map Int.ofNat
  | '-' :: ds => (digitsOf ds).map (fun n => -n)
  | '+' :: ds => digitsOf ds
  | ds => digitsOf ds

/-- `BigInt(v)`; `none` where it throws. -/
def bigIntOf : Json → Option ℤ
  | .null => none
  | .bool b => some (if b then 1 else 0)
  | .num n =>
    match n.value with
    | .finite units => if units % 2 ^ 1074 = 0 then some (units / 2 ^ 1074) else none
    | _ => none
  | .str s => bigIntOfText s.toList
  | .arr items => bigIntOfText (Json.joinItems items)
  | .obj _ => none

def bigInt (f : Field) : Option ℤ := f.bind bigIntOf

/-- `n.toString()` of a `bigint`. -/
def decimal (n : ℤ) : Json := .str (String.ofList (JsNum.ofInt n).text)

def truthy : Field → Bool
  | none => false
  | some .null => false
  | some (.bool b) => b
  | some (.num n) => decide (n.value ≠ .finite 0)
  | some (.str s) => decide (s ≠ "")
  | some (.arr _) => true
  | some (.obj _) => true

/-- `v[key]`, on a `v` that may be `null`. What arrays and strings inherit is a function, which no
encoding shows. -/
def read (v : Json) (key : String) : Option Field :=
  match v with
  | .null => none
  | v => some (v.get? key)

/-- The values of `for (const x of f)`. -/
def iterate : Field → Option (List Json)
  | some (.arr items) => some items
  | some (.str s) => some (s.toList.map (fun c => .str (String.ofList [c])))
  | _ => none

/-- What a `Map` tells keys apart by. No two arrays or objects that were parsed are the same. -/
inductive Key where
  | undefined
  | null
  | bool (b : Bool)
  | number (value : Double)
  | text (s : String)
  | reference (n : ℕ)
deriving DecidableEq

/-- The key of an id, of the item at place `n`. -/
def keyOf (n : ℕ) : Field → Key
  | none => .undefined
  | some .null => .null
  | some (.bool b) => .bool b
  | some (.num m) => .number m.value
  | some (.str s) => .text s
  | some (.arr _) => .reference n
  | some (.obj _) => .reference n

/-- The engine's sort by id. What it makes of ids that are not all strings is left open. -/
structure IdOrder where
  /-- The places of the ids in sorted order; `none` where comparing them throws. -/
  order : List Field → Option (List ℕ)
  perm : ∀ ids places, order ids = some places → places.Perm (List.range ids.length)
  strings : ∀ ids : List String, ∃ places, order (ids.map (fun s => some (.str s))) = some places ∧
    (places.filterMap (fun i => ids[i]?)).Pairwise (fun s t => Json.utf16 s ≤ Json.utf16 t)

/-- `.sort(byId)`. -/
def IdOrder.sort (S : IdOrder) (items : List Json) : Option (List Json) :=
  (S.order (items.map (fun v => v.get? "id"))).map (fun places =>
    places.filterMap (fun i => items[i]?))

/-! ## Copies -/

/-- The members of a copy, each taken over in its own way; `none` where one throws. -/
def copyFields (fields : List (String × (Field → Option Field))) (v : Json) :
    Option (List (String × Field)) :=
  fields.mapM (fun e => do return (e.1, ← e.2 (← read v e.1)))

def utxoFields : List (String × (Field → Option Field)) :=
  [("txid", some), ("vout", some), ("value", some)]

/-- `utxos.map(..)`. -/
def copyUtxos : Field → Option Field
  | some (.arr utxos) => (utxos.mapM (fun u => (copyFields utxoFields u).map ofFields)).map
    (fun copied => some (.arr copied))
  | _ => none

def proofFields : List (String × (Field → Option Field)) :=
  [("chain", some), ("net", some), ("pubkey", some), ("utxos", copyUtxos), ("sig", some)]

def lockFields : List (String × (Field → Option Field)) :=
  [("txid", some), ("vout", some), ("at", some)]

def cancelledFields : List (String × (Field → Option Field)) := [("at", some), ("reason", some)]

/-- `f && { .. }`. -/
def copyTruthy (fields : List (String × (Field → Option Field))) (f : Field) : Option Field :=
  if truthy f then (f.bind (copyFields fields)).map (fun copies => some (ofFields copies))
  else some f

def copyProof : Field → Option Field := copyTruthy proofFields

def copyLock : Field → Option Field := copyTruthy lockFields

def matchFields : List (String × (Field → Option Field)) :=
  [("id", some), ("offerId", some), ("maker", some), ("taker", some), ("takeSeq", some),
    ("makerChain", some), ("makerRefundBlocks", some), ("takerChain", some),
    ("takerRefundBlocks", some), ("hash", some), ("takerKey", some), ("makerKey", some),
    ("status", some), ("takenAt", some), ("proofDeadline", some), ("pruneAt", some),
    ("makerProof", copyProof), ("takerProof", copyProof), ("makerLock", copyLock),
    ("takerLock", copyLock), ("cancelled", copyTruthy cancelledFields)]

/-- Every field of a match but the two amounts. -/
def matchBody : Json → Option (List (String × Field)) := copyFields matchFields

/-! ## The view -/

structure Leg where
  chain : Field
  amount : ℤ

structure Offer where
  id : Field
  maker : Field
  give : Leg
  want : Leg
  minFill : ℤ
  remaining : ℤ
  postedAt : Field
  expiresAt : Field

structure Match where
  /-- What `matchBody` copied. -/
  body : List (String × Field)
  makerAmount : ℤ
  takerAmount : ℤ

structure View where
  offers : OrderedMap Key Offer
  «matches» : OrderedMap Key Match

/-! ## Serialize -/

def canonLeg (l : Leg) : Json := ofFields [("chain", l.chain), ("amount", some (decimal l.amount))]

def canonOffer (o : Offer) : Json :=
  ofFields [("id", o.id), ("maker", o.maker), ("give", some (canonLeg o.give)),
    ("want", some (canonLeg o.want)), ("minFill", some (decimal o.minFill)),
    ("remaining", some (decimal o.remaining)), ("postedAt", o.postedAt), ("expiresAt", o.expiresAt)]

def canonMatch (m : Match) : Option Json := do
  let body ← matchBody (ofFields m.body)
  return ofFields (body ++
    [("makerAmount", some (decimal m.makerAmount)), ("takerAmount", some (decimal m.takerAmount))])

def serializeView (S : IdOrder) (view : View) : Option Json := do
  let offers ← S.sort (view.offers.values.map canonOffer)
  let «matches» ← S.sort (← view.matches.values.mapM canonMatch)
  return .obj [("offers", .arr offers), ("matches", .arr «matches»)]

/-! ## Deserialize -/

def leg (l : Field) : Option Leg := do
  let l ← l
  return ⟨← read l "chain", ← bigInt (← read l "amount")⟩

def offerOf (o : Json) : Option Offer := do
  return {
    id := ← read o "id"
    maker := ← read o "maker"
    give := ← leg (← read o "give")
    want := ← leg (← read o "want")
    minFill := ← bigInt (← read o "minFill")
    remaining := ← bigInt (← read o "remaining")
    postedAt := ← read o "postedAt"
    expiresAt := ← read o "expiresAt" }

def matchOf (m : Json) : Option Match := do
  return ⟨← matchBody m, ← bigInt (← read m "makerAmount"), ← bigInt (← read m "takerAmount")⟩

/-- The id of a match. -/
def Match.id (m : Match) : Field := (ofFields m.body).get? "id"

/-- The items under their ids. -/
def byId {α : Type} (id : α → Field) (items : List α) : OrderedMap Key α :=
  (items.zipIdx.map (fun e => (keyOf e.2 (id e.1), e.1))).foldl (fun m e => m.set e.1 e.2) ∅

/-- The view that the fields are copied into. -/
def copiedView (s : Json) : Option View := do
  let offers ← (← iterate (← read s "offers")).mapM offerOf
  let «matches» ← (← iterate (← read s "matches")).mapM matchOf
  return ⟨byId Offer.id offers, byId Match.id «matches»⟩

def deserializeView (S : IdOrder) (s : Json) : Option View := do
  let view ← copiedView s
  let keys ← s.keys?
  let state ← serializeView S view
  if keys.length = 2 ∧ canonicalize state = canonicalize s then some view else none

end Untyped

end Gavl
