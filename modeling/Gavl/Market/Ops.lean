import Gavl.Swap.Proof

/-!
# The order-board op vocabulary

Every op rides in a signed write. `parseOp` checks shape only: exact key sets, types,
encodings and the ranges that need no state.
-/

namespace Gavl

/-- Longest an offer may stay listed, in anchors. -/
def maxOfferTtl : ℕ := 2880

structure Leg where
  chain : Chain
  amount : ℕ
deriving DecidableEq

inductive Op where
  | offerPost (give want : Leg) (minFill expiresIn : ℕ)
  | offerCancel (offerId : String)
  | offerTake (offerId : String) (fill : ℕ) (hash takerKey : String)
  | swapProof (matchId : String) (makerKey : Option String) (proof : FundsProof)
  | swapLocked (matchId txid : String) (vout : ℕ)
  | swapAbort (matchId : String)
deriving DecidableEq

/-- The curve check of the signature library: whether `lift_x` accepts a coordinate. -/
structure Curve where
  liftsX : ℕ → Bool

/-! ## Primitive checks -/

def isHex64 (v : Json) : Option String := v.asString?.filter (isHexOf 64)

/-- A 64-hex x-only key that lifts to a curve point. -/
def isXOnlyKey (K : Curve) (v : Json) : Option String :=
  (isHex64 v).filter (fun s => ((hexToNat? s).map K.liftsX).getD false)

/-- Canonical positive decimal up to `max`. -/
def parseAmount (v : Json) (max : ℕ) : Option ℕ :=
  ((v.asString?.filter (isDecimal 19)).map decimalValue).filter (fun n => decide (n ≤ max))

def parseLeg (v : Json) : Option Leg :=
  if !v.exact ["chain", "amount"] [] then none
  else do
    let chain ← (v.string? "chain").bind Chain.ofName?
    let amount ← parseAmount (← v.get? "amount") (maxMoney chain)
    return ⟨chain, amount⟩

/-! ## Parser -/

def parseOfferPost (p : Json) : Option Op :=
  if !p.exact ["kind", "give", "want", "minFill", "expiresIn"] [] then none
  else do
    let give ← (p.get? "give").bind parseLeg
    let want ← (p.get? "want").bind parseLeg
    if give.chain = want.chain then none
    else
      let minFill ← parseAmount (← p.get? "minFill") give.amount
      let ttl ← (p.get? "expiresIn").bind (Json.asNat? maxOfferTtl)
      if ttl < 1 then none else return .offerPost give want minFill ttl

def parseOfferTake (K : Curve) (p : Json) : Option Op :=
  if !p.exact ["kind", "offerId", "fill", "hash", "takerKey"] [] then none
  else do
    let offerId ← (p.get? "offerId").bind isHex64
    let hash ← (p.get? "hash").bind isHex64
    let takerKey ← (p.get? "takerKey").bind (isXOnlyKey K)
    -- the offer bounds the fill further
    let fill ← parseAmount (← p.get? "fill") (maxMoney .litecoin)
    return .offerTake offerId fill hash takerKey

def parseSwapProof (K : Curve) (p : Json) : Option Op :=
  if !p.exact ["kind", "matchId", "proof"] ["makerKey"] then none
  else do
    let matchId ← (p.get? "matchId").bind isHex64
    let proof ← (p.get? "proof").bind (fun x => (fundsProofOf x).toOption)
    match p.get? "makerKey" with
    | none => return .swapProof matchId none proof
    | some key => return .swapProof matchId (some (← isXOnlyKey K key)) proof

def parseSwapLocked (p : Json) : Option Op :=
  if !p.exact ["kind", "matchId", "txid", "vout"] [] then none
  else do
    let matchId ← (p.get? "matchId").bind isHex64
    let txid ← (p.get? "txid").bind isHex64
    let vout ← (p.get? "vout").bind (Json.asNat? maxVout)
    return .swapLocked matchId txid vout

/-- An op that carries one id under `field` and nothing else. -/
def parseIdOp (p : Json) (field : String) (op : String → Op) : Option Op :=
  if !p.exact ["kind", field] [] then none else ((p.get? field).bind isHex64).map op

/-- The op of a payload; a payload that is not a well-formed op is ignored by the fold. -/
def parseOp (K : Curve) (payload : Json) : Option Op :=
  match payload.string? "kind" with
  | some "offer.post" => parseOfferPost payload
  | some "offer.cancel" => parseIdOp payload "offerId" Op.offerCancel
  | some "offer.take" => parseOfferTake K payload
  | some "swap.proof" => parseSwapProof K payload
  | some "swap.locked" => parseSwapLocked payload
  | some "swap.abort" => parseIdOp payload "matchId" Op.swapAbort
  | _ => none

end Gavl
