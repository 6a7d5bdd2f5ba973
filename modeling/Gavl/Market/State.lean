import Gavl.Lib.OrderedMap
import Gavl.Market.Ops

/-!
# The board

The application state an anchor commits to: listed offers and the matches taken against them.
Heights are anchor heights.
-/

namespace Gavl

/-- A listed offer: the maker gives `give` for `want`, in fills of at least `minFill`. -/
structure Offer where
  id : String
  maker : String
  give : Leg
  want : Leg
  minFill : ℕ
  /-- Give-units still takeable. -/
  remaining : ℕ
  postedAt : ℤ
  /-- First height at which the offer is gone. -/
  expiresAt : ℤ
deriving DecidableEq

inductive MatchStatus where
  | awaitingProofs
  | escrow
  | cancelled
deriving DecidableEq

structure LockHint where
  txid : String
  vout : ℕ
  «at» : ℤ
deriving DecidableEq

inductive CancelReason where
  | noProof
  | abort
deriving DecidableEq

structure Cancelled where
  «at» : ℤ
  reason : CancelReason
deriving DecidableEq

/-- A take against an offer, with the full swap terms. -/
structure Match where
  id : String
  offerId : String
  maker : String
  taker : String
  takeSeq : ℕ
  makerChain : Chain
  makerAmount : ℕ
  makerRefundBlocks : ℕ
  takerChain : Chain
  takerAmount : ℕ
  takerRefundBlocks : ℕ
  hash : String
  takerKey : String
  /-- Set by the maker's proof. -/
  makerKey : Option String
  status : MatchStatus
  takenAt : ℤ
  /-- Last height at which a proof is accepted. -/
  proofDeadline : ℤ
  /-- First height at which the record is dropped. -/
  pruneAt : ℤ
  makerProof : Option FundsProof
  takerProof : Option FundsProof
  makerLock : Option LockHint
  takerLock : Option LockHint
  cancelled : Option Cancelled
deriving DecidableEq

/-- The folded application state. -/
structure View where
  offers : OrderedMap String Offer
  «matches» : OrderedMap String Match
deriving DecidableEq

def emptyView : View := ⟨∅, ∅⟩

end Gavl
