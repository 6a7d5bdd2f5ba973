import Gavl.Market.Account
import Gavl.Swap.Keys

/-!
# What a daemon posts

The order-board calls of its API and the ops that the swap engine hands to it. What a take says of
hash and key is derived from the seed of the identity and the seq that the write takes, what a maker's
proof says of its key from the match.
-/

namespace Gavl

/-- Anchors an offer is listed for that names no lifetime. -/
def defaultOfferTtl : ℕ := 1440

/-- A call that posts. What is left out of one is null here; the parser takes neither. -/
inductive Request where
  | postOffer (giveChain giveAmount wantChain wantAmount minFill expiresIn : Json)
  | cancelOffer (offerId : Json)
  /-- With the offer that was found on the board. -/
  | takeOffer (offerId : String) (fill : Json) (offer : Offer)
  /-- `submitOp` for a side of a match. -/
  | swapProof (matchId : String) (role : Role) (makerChain : Chain) (proof : FundsProof)
  | swapLocked (matchId txid : String) (vout : ℕ)
  | swapAbort (matchId : String)

namespace Request

variable (K : Curve) (lib : SwapLib) (pubHex : String) (seed : Bytes)

/-- The hash and the key of a take. -/
def derived (swapId : String) (takerChain : Chain) : String × String :=
  (toHex (lib.hashOf (lib.swapSecret seed swapId)),
    toHex (lib.xOnly (lib.swapKey seed swapId takerChain .taker)))

/-- The key that a side's proof carries. -/
def makerKey (matchId : String) (makerChain : Chain) : Role → Option String
  | .maker => some (toHex (lib.xOnly (lib.swapKey seed matchId makerChain .maker)))
  | .taker => none

/-- What is built for a seq; `none` where that throws. -/
def build (seq : ℕ) : Request → Option Json
  | postOffer giveChain giveAmount wantChain wantAmount minFill expiresIn =>
    some (.obj [("kind", .str "offer.post"),
      ("give", .obj [("chain", giveChain), ("amount", giveAmount)]),
      ("want", .obj [("chain", wantChain), ("amount", wantAmount)]), ("minFill", minFill),
      ("expiresIn", match expiresIn with
        | .null => .nat defaultOfferTtl
        | ttl => ttl)])
  | cancelOffer offerId => some (.obj [("kind", .str "offer.cancel"), ("offerId", offerId)])
  | takeOffer offerId fill offer =>
    match Keys.takeSwapId offerId pubHex seq with
    | .error _ => none
    | .ok swapId =>
      let d := derived lib seed swapId offer.want.chain
      some (.obj [("kind", .str "offer.take"), ("offerId", .str offerId), ("fill", fill),
        ("hash", .str d.1), ("takerKey", .str d.2)])
  | swapProof matchId role makerChain proof =>
    some (opPayload (.swapProof matchId (makerKey lib seed matchId makerChain role) proof))
  | swapLocked matchId txid vout => some (opPayload (.swapLocked matchId txid vout))
  | swapAbort matchId => some (opPayload (.swapAbort matchId))

/-- The request as its account posts it. -/
def builder (r : Request) : Builder := fun board seq =>
  (r.build lib pubHex seed seq).bind (fun payload =>
    Builder.submit K pubHex (fun _ => payload) board seq)

end Request

end Gavl
