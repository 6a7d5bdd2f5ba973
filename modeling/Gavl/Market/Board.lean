import Gavl.Consensus.Order
import Gavl.Market.Fold

/-!
# The board as anchors commit to it

The canonical encoding of a view, the root anchors carry, the way back from a checkpoint's
state, and the view a given anchor certifies.
-/

namespace Gavl

namespace Net

def name : Net → String
  | mainnet => "mainnet"
  | testnet => "testnet"
  | regtest => "regtest"

end Net

namespace MatchStatus

def name : MatchStatus → String
  | awaitingProofs => "awaitingProofs"
  | escrow => "escrow"
  | cancelled => "cancelled"

def ofName? (s : String) : Option MatchStatus :=
  [awaitingProofs, escrow, cancelled].find? (fun m => decide (m.name = s))

end MatchStatus

namespace CancelReason

def name : CancelReason → String
  | noProof => "noProof"
  | abort => "abort"

def ofName? (s : String) : Option CancelReason :=
  [noProof, abort].find? (fun r => decide (r.name = s))

end CancelReason

/-! ## Serialize -/

/-- A height. -/
def Json.int (n : ℤ) : Json := .num (.ofInt n)

/-- `null`, or the encoding of a value. -/
def Json.orNull {α : Type*} (f : α → Json) : Option α → Json
  | none => .null
  | some x => f x

def canonLeg (l : Leg) : Json := .obj [("chain", .str l.chain.name), ("amount", .decimal l.amount)]

def canonOffer (o : Offer) : Json :=
  .obj [("id", .str o.id), ("maker", .str o.maker), ("give", canonLeg o.give),
    ("want", canonLeg o.want), ("minFill", .decimal o.minFill),
    ("remaining", .decimal o.remaining), ("postedAt", .int o.postedAt),
    ("expiresAt", .int o.expiresAt)]

def copyUtxo (u : ProofUtxo) : Json :=
  .obj [("txid", .str u.txid), ("vout", .nat u.vout), ("value", .str u.value)]

def copyProof (p : FundsProof) : Json :=
  .obj [("chain", .str p.chain.name), ("net", .str p.net.name), ("pubkey", .str p.pubkey),
    ("utxos", .arr (p.utxos.map copyUtxo)), ("sig", .str p.sig)]

def copyLock (l : LockHint) : Json :=
  .obj [("txid", .str l.txid), ("vout", .nat l.vout), ("at", .int l.at)]

def copyCancelled (c : Cancelled) : Json :=
  .obj [("at", .int c.at), ("reason", .str c.reason.name)]

/-- Every field of a match but the two amounts. -/
def matchBody (m : Match) : List (String × Json) :=
  [("id", .str m.id), ("offerId", .str m.offerId), ("maker", .str m.maker),
    ("taker", .str m.taker), ("takeSeq", .nat m.takeSeq), ("makerChain", .str m.makerChain.name),
    ("makerRefundBlocks", .nat m.makerRefundBlocks), ("takerChain", .str m.takerChain.name),
    ("takerRefundBlocks", .nat m.takerRefundBlocks), ("hash", .str m.hash),
    ("takerKey", .str m.takerKey), ("makerKey", .nullable m.makerKey),
    ("status", .str m.status.name), ("takenAt", .int m.takenAt),
    ("proofDeadline", .int m.proofDeadline), ("pruneAt", .int m.pruneAt),
    ("makerProof", .orNull copyProof m.makerProof), ("takerProof", .orNull copyProof m.takerProof),
    ("makerLock", .orNull copyLock m.makerLock), ("takerLock", .orNull copyLock m.takerLock),
    ("cancelled", .orNull copyCancelled m.cancelled)]

def canonMatch (m : Match) : Json :=
  .obj (matchBody m ++
    [("makerAmount", .decimal m.makerAmount), ("takerAmount", .decimal m.takerAmount)])

/-- The canonical state: both maps as arrays sorted by id. -/
def serializeView (view : View) : Json :=
  .obj [("offers", .arr ((view.offers.values.insertionSort (fun a b => a.id ≤ b.id)).map canonOffer)),
    ("matches",
      .arr ((view.matches.values.insertionSort (fun a b => a.id ≤ b.id)).map canonMatch))]

/-- The application-state commitment. -/
def viewRoot (C : Crypto) (view : View) : String :=
  C.sha256Hex (canonicalBytes (serializeView view))

/-! ## Deserialize

Members are read at the types a state declares for them. -/

namespace Json

/-- An integer. -/
def asInt? : Json → Option ℤ
  | .num n =>
    match n.text with
    | '-' :: digits => if digits.all Char.isDigit then some (-(Nat.ofDigitChars 10 digits 0)) else none
    | digits => if digits.all Char.isDigit then some (Nat.ofDigitChars 10 digits 0) else none
  | _ => none

/-- `BigInt` of a string of digits; other spellings do not survive the round trip. -/
def asBigInt? (v : Json) : Option ℕ :=
  (v.asString?.filter (fun s => s.toList ≠ [] && s.toList.all Char.isDigit)).map decimalValue

def asArray? : Json → Option (List Json)
  | .arr items => some items
  | _ => none

/-- A member that is `null` or of the given shape. -/
def nullOr? {α : Type*} (f : Json → Option α) : Json → Option (Option α)
  | .null => some none
  | v => (f v).map some

def int? (v : Json) (key : String) : Option ℤ := (v.get? key).bind asInt?

/-- A non-negative integer of any size: the state declares no bound. -/
def asCount? : Json → Option ℕ
  | .num n => if n.text.all Char.isDigit then some (Nat.ofDigitChars 10 n.text 0) else none
  | _ => none

def count? (v : Json) (key : String) : Option ℕ := (v.get? key).bind asCount?

def bigInt? (v : Json) (key : String) : Option ℕ := (v.get? key).bind asBigInt?

def chain? (v : Json) (key : String) : Option Chain := (v.string? key).bind Chain.ofName?

end Json

def leg (v : Json) : Option Leg := do
  return ⟨← v.chain? "chain", ← v.bigInt? "amount"⟩

def offerOf (o : Json) : Option Offer := do
  return {
    id := ← o.string? "id"
    maker := ← o.string? "maker"
    give := ← (o.get? "give").bind leg
    want := ← (o.get? "want").bind leg
    minFill := ← o.bigInt? "minFill"
    remaining := ← o.bigInt? "remaining"
    postedAt := ← o.int? "postedAt"
    expiresAt := ← o.int? "expiresAt" }

def utxoOfState (u : Json) : Option ProofUtxo := do
  return ⟨← u.string? "txid", ← u.count? "vout", ← u.string? "value"⟩

def proofOfState (p : Json) : Option FundsProof := do
  return {
    chain := ← p.chain? "chain"
    net := ← (p.string? "net").bind Net.ofName?
    pubkey := ← p.string? "pubkey"
    utxos := ← ((← p.get? "utxos").asArray?).bind (List.mapM utxoOfState)
    sig := ← p.string? "sig" }

def lockOf (l : Json) : Option LockHint := do
  return ⟨← l.string? "txid", ← l.count? "vout", ← l.int? "at"⟩

def cancelledOf (c : Json) : Option Cancelled := do
  return ⟨← c.int? "at", ← (c.string? "reason").bind CancelReason.ofName?⟩

def matchOf (m : Json) : Option Match := do
  return {
    id := ← m.string? "id"
    offerId := ← m.string? "offerId"
    maker := ← m.string? "maker"
    taker := ← m.string? "taker"
    takeSeq := ← m.count? "takeSeq"
    makerChain := ← m.chain? "makerChain"
    makerAmount := ← m.bigInt? "makerAmount"
    makerRefundBlocks := ← m.count? "makerRefundBlocks"
    takerChain := ← m.chain? "takerChain"
    takerAmount := ← m.bigInt? "takerAmount"
    takerRefundBlocks := ← m.count? "takerRefundBlocks"
    hash := ← m.string? "hash"
    takerKey := ← m.string? "takerKey"
    makerKey := ← (← m.get? "makerKey").nullOr? Json.asString?
    status := ← (m.string? "status").bind MatchStatus.ofName?
    takenAt := ← m.int? "takenAt"
    proofDeadline := ← m.int? "proofDeadline"
    pruneAt := ← m.int? "pruneAt"
    makerProof := ← (← m.get? "makerProof").nullOr? proofOfState
    takerProof := ← (← m.get? "takerProof").nullOr? proofOfState
    makerLock := ← (← m.get? "makerLock").nullOr? lockOf
    takerLock := ← (← m.get? "takerLock").nullOr? lockOf
    cancelled := ← (← m.get? "cancelled").nullOr? cancelledOf }

/-- The view of a canonical state. Whatever does not encode back to the same bytes is
refused. -/
def deserializeView (s : Json) : Option View := do
  let offers ← (← (← s.get? "offers").asArray?).mapM offerOf
  let «matches» ← (← (← s.get? "matches").asArray?).mapM matchOf
  let view : View :=
    ⟨offers.foldl (fun m o => m.set o.id o) ∅, «matches».foldl (fun m x => m.set x.id x) ∅⟩
  let keys ← s.keys?
  if keys.length = 2 ∧ canonicalize (serializeView view) = canonicalize s then some view else none

/-! ## Copies -/

def cloneProof (p : FundsProof) : FundsProof :=
  ⟨p.chain, p.net, p.pubkey, p.utxos.map (fun u => ⟨u.txid, u.vout, u.value⟩), p.sig⟩

def cloneLock (l : LockHint) : LockHint := ⟨l.txid, l.vout, l.at⟩

def cloneCancelled (c : Cancelled) : Cancelled := ⟨c.at, c.reason⟩

/-- `matchBody` and the two amounts, field by field. -/
def cloneMatch (m : Match) : Match where
  id := m.id
  offerId := m.offerId
  maker := m.maker
  taker := m.taker
  takeSeq := m.takeSeq
  makerChain := m.makerChain
  makerAmount := m.makerAmount
  makerRefundBlocks := m.makerRefundBlocks
  takerChain := m.takerChain
  takerAmount := m.takerAmount
  takerRefundBlocks := m.takerRefundBlocks
  hash := m.hash
  takerKey := m.takerKey
  makerKey := m.makerKey
  status := m.status
  takenAt := m.takenAt
  proofDeadline := m.proofDeadline
  pruneAt := m.pruneAt
  makerProof := m.makerProof.map cloneProof
  takerProof := m.takerProof.map cloneProof
  makerLock := m.makerLock.map cloneLock
  takerLock := m.takerLock.map cloneLock
  cancelled := m.cancelled.map cloneCancelled

def cloneOffer (o : Offer) : Offer :=
  { o with give := { o.give with }, want := { o.want with } }

/-- Every entry set in turn in an empty view. -/
def cloneView (v : View) : View where
  offers := v.offers.entries.foldl (fun m e => m.set e.1 (cloneOffer e.2)) ∅
  «matches» := v.matches.entries.foldl (fun m e => m.set e.1 (cloneMatch e.2)) ∅

/-! ## The view an anchor certifies -/

/-- Fold an ordering onto the base; the base itself where there is no anchor. -/
def viewOf (K : Curve) (o : FinalOrdering) (base : Option View) : View :=
  match o.nowHeight with
  | none => base.getD emptyView
  | some h => computeView K o.included h ⟨o.order, o.bornAt, base⟩

/-- The state anchor `anchorId` commits its child to. -/
def viewAtAnchor (K : Curve) (writes : List Write) (anchors : AnchorChain) (anchorId : String)
    (base : Option View) : View :=
  viewOf K (orderingFor writes anchors (anchors.get anchorId)) base

end Gavl
