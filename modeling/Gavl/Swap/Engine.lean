import Gavl.Market.Fold
import Gavl.Swap.Scan

/-!
# The swap engine

Drives one local side of a match. A tick reads the board, the chains and the side's saved state, and
says in order what it does: what it saves, funds, broadcasts and posts. A tick that is cut short by
a crash has done a prefix of that.
-/

namespace Gavl

inductive SwapStage where
  | proofs
  | waitingTakerLock
  | waitingMakerLock
  | claiming
  | waitingCounterClaim
  | refundPending
  | refunded
  | done
  | cancelled
  | failed
deriving DecidableEq

/-- Stages after which a side never acts again. -/
def SwapStage.terminal : SwapStage → Bool
  | refunded | done | cancelled | failed => true
  | proofs | waitingTakerLock | waitingMakerLock | claiming | waitingCounterClaim | refundPending =>
    false

structure SwapPolicy where
  /-- Confirmations a counterparty HTLC needs before we act on it. -/
  confirmations : Chain → ℕ
  feeRate : Chain → FeeRate
  /-- Maker: seconds the taker's refund must open after its own would. -/
  windowMarginSecs : ℕ
  /-- Taker: anchors it keeps in hand before the lock window closes. -/
  lockMarginAnchors : ℕ

/-- The full engine, or everything except funding an HTLC. -/
inductive EngineMode where
  | on
  | nolock
deriving DecidableEq

/-- vbytes a proof of funds budgets for the funding transaction. -/
def fundingVsizeBudget : ℕ := 500

/-- A saved lock intent younger than this blocks funding again. -/
def lockIntentGraceMs : ℕ := 30000

/-- Anchors after which an op that has not reached the board is posted again. -/
def repostAfter : ℕ := 8

/-! ## Saved state -/

/-- The agreed terms, copied from the match so that the swap survives its pruning. -/
structure Terms where
  offerId : String
  maker : String
  taker : String
  takeSeq : ℕ
  makerChain : Chain
  makerAmount : ℕ
  makerRefundBlocks : ℕ
  takerChain : Chain
  takerAmount : ℕ
  takerRefundBlocks : ℕ
  hash : String
  takerKey : String
  makerKey : Option String
  proofDeadline : ℤ
  pruneAt : ℤ
deriving DecidableEq

def termsOf (m : Match) : Terms :=
  ⟨m.offerId, m.maker, m.taker, m.takeSeq, m.makerChain, m.makerAmount, m.makerRefundBlocks,
    m.takerChain, m.takerAmount, m.takerRefundBlocks, m.hash, m.takerKey, m.makerKey,
    m.proofDeadline, m.pruneAt⟩

inductive ProofVerdict where
  | ok
  | bad (reason : String)
deriving DecidableEq

structure RawTx where
  txid : String
  hex : String
deriving DecidableEq

structure Side where
  role : Role
  identity : String
  stage : SwapStage
  note : Option String
  /-- Verdict on the counterparty's proof of funds, none before it was checked. -/
  theirProof : Option ProofVerdict
  /-- Set right before funding my HTLC, cleared once the lock is known. Milliseconds. -/
  lockIntentAt : Option ℕ
  myLock : Option Outpoint
  theirLock : Option Outpoint
  claim : Option RawTx
  refund : Option RawTx
  /-- Maker: why it decided to abort. -/
  abort : Option String
  /-- `swap.locked` was posted. -/
  lockPosted : Bool
deriving DecidableEq

def Side.new (role : Role) (identity : String) : Side :=
  ⟨role, identity, .proofs, none, none, none, none, none, none, none, none, false⟩

/-! ## What a tick reads and does -/

/-- An op the engine posts. -/
inductive PostBody where
  /-- A proof of funds for so much on a chain, built when it is posted. -/
  | proof (makerKey : Option String) (chain : Chain) (required : ℕ)
  | locked (lock : Outpoint)
  | abort
deriving DecidableEq

inductive PostKind where
  | proof
  | locked
  | abort
deriving DecidableEq

/-- As the notes spell it. -/
def PostKind.text : PostKind → String
  | proof => "swap.proof"
  | locked => "swap.locked"
  | abort => "swap.abort"

def PostBody.kind : PostBody → PostKind
  | proof _ _ _ => .proof
  | locked _ => .locked
  | abort => .abort

/-- An op posted: in flight, or at which height it was. -/
structure Post where
  pending : Bool
  «at» : Option ℤ
deriving DecidableEq

inductive SpendKind where
  | claim
  | refund
deriving DecidableEq

inductive SwapEffect where
  /-- The file is written with the side in this form. -/
  | save (side : Side)
  /-- The wallet is asked to fund an HTLC. -/
  | fund (chain : Chain) (address : String) (amount : ℕ)
  /-- The wallet's funding transaction reached an explorer. -/
  | funded (lock : Outpoint)
  /-- A spend is handed to an explorer. -/
  | broadcast (kind : SpendKind) (chain : Chain) (tx : RawTx)
  | post (identity : String) (body : PostBody)
deriving DecidableEq

/-- How the wallet answers `fundHtlc`. -/
inductive FundAnswer where
  | paid (lock : Outpoint)
  /-- It threw after its transaction had reached an explorer. -/
  | lost (lock : Outpoint) (err : String)
  | failed (err : String)

/-- What a tick is answered, each request on its own. An error is what the request throws. -/
structure Reads where
  /-- The wall clock, milliseconds. -/
  now : ℕ
  /-- The scan of my HTLC's address. -/
  mine : Except String ScanAnswer
  /-- The scan of theirs before the maker locks. -/
  theirsBefore : Except String ScanAnswer
  /-- The maker's second look, after a bad proof. -/
  theirsAgain : Except String ScanAnswer
  /-- The scan of theirs once I have locked. -/
  theirs : Except String ScanAnswer
  /-- Unspent outputs of an address, for checking a proof of funds. -/
  utxos : String → Except String (List EsploraUtxo)
  fund : FundAnswer
  getTx : Except String (Option EsploraTx)
  claimSent : Except String Unit
  refundSent : Except String Unit

structure Engine where
  lib : SwapLib
  policy : SwapPolicy
  mode : EngineMode
  net : Chain → Net

/-- What a step needs besides its side. -/
structure Ctx where
  matchId : String
  terms : Terms
  /-- The board's match, none where it is pruned or the board is not synced. -/
  m : Option Match
  /-- Board height on the match's channel. -/
  h : Option ℤ
  seed : Bytes

namespace Ctx

variable (c : Ctx)

def hash : Bytes := fromHex c.terms.hash

def pruned : Bool :=
  match c.h with
  | some h => decide (c.terms.pruneAt ≤ h)
  | none => false

def hasStatus (status : MatchStatus) : Bool := decide (c.m.map Match.status = some status)

/-- The board cancelled the match, or has dropped it. -/
def gone : Bool := c.hasStatus .cancelled || c.pruned

def cancelReason : Option CancelReason := (c.m.bind Match.cancelled).map Cancelled.reason

/-- Last height at which the taker may lock. -/
def lockDeadline : ℤ := c.terms.proofDeadline + takerLockWindow

end Ctx

/-- A step under way. -/
structure Tick where
  side : Side
  posts : OrderedMap (Role × PostKind) Post
  effects : List SwapEffect

/-- A step that has returned or thrown stops with what it has done. -/
abbrev Flow := Except Tick

/-- What a step has done, stopped or not. -/
def Flow.tick : Flow Tick → Tick
  | .ok k => k
  | .error k => k

namespace Tick

variable (k : Tick)

def set (side : Side) : Tick := { k with side := side }

def emit (e : SwapEffect) : Tick := { k with effects := k.effects ++ [e] }

/-- `save`. -/
def save : Tick := k.emit (.save k.side)

def setNote (note : Option String) : Tick := k.set { k.side with note := note }

def setStage (stage : SwapStage) : Tick := k.set { k.side with stage := stage }

def finish (stage : SwapStage) (note : Option String) : Tick :=
  k.set { k.side with stage := stage, note := note }

/-- `pending`. -/
def refundLater (note : String) : Tick := k.finish .refundPending (some note)

/-- An error that nothing in the step catches. -/
def throw {α : Type} (err : String) : Flow α := .error (k.setNote (some err))

/-- Whether an op of this kind is in flight, or was posted too short a time ago. -/
def postBlocked (c : Ctx) (kind : PostKind) : Bool :=
  match k.posts.get? (k.side.role, kind) with
  | none => false
  | some prev =>
    prev.pending ||
      match c.h, prev.at with
      | some h, some height => decide (h ≤ height + repostAfter)
      | _, _ => true

/-- Post an op without waiting for it. -/
def postOp (c : Ctx) (body : PostBody) : Tick :=
  if k.postBlocked c body.kind then k
  else { k.emit (.post k.side.identity body) with
    posts := k.posts.set (k.side.role, body.kind) ⟨true, c.h⟩ }

def postProof (E : Engine) (c : Ctx) (chain : Chain) (amount : ℕ) (makerKey : Option String) : Tick :=
  k.postOp c
    (.proof makerKey chain (amount + (E.policy.feeRate chain).fee fundingVsizeBudget))

/-- Decide to abort, and post it. -/
def abort (c : Ctx) (reason : String) : Tick :=
  Tick.postOp (k.set { k.side with abort := some reason, stage := .cancelled, note := some reason })
    c .abort

def broadcast (sent : Except String Unit) (kind : SpendKind) (chain : Chain) (tx : RawTx) : Tick :=
  let k := k.emit (.broadcast kind chain tx)
  match sent with
  | .ok _ => k
  | .error err => k.setNote (some s!"broadcast on {chain.name}: {err}")

/-- Check a counterparty's proof and record the verdict; explorer trouble leaves a note. -/
def verifyProof (E : Engine) (c : Ctx) (r : Reads) (proof : FundsProof) (chain : Chain)
    (amount : ℕ) : Tick :=
  match verifyFundsProof E.lib.schnorr (copyProof proof) c.matchId amount
    ⟨chain, E.net chain, r.utxos⟩ with
  | .ok check =>
    k.set { k.side with
      theirProof := some (if check.ok then .ok else .bad (check.reason.getD "invalid")) }
  | .error err =>
    k.setNote (some s!"verifying the counterparty's proof: {err} — retrying")

/-- Record an output at my HTLC's address as my lock. -/
def adoptLock (o : HtlcOut) : Tick :=
  Tick.save (k.set { k.side with myLock := some o.outpoint, lockIntentAt := none })

/-- Adopt an output of exactly `amount`, unless a lock is recorded. -/
def adopt (mine : Scan) (amount : ℕ) : Tick :=
  if k.side.myLock.isSome then k
  else
    match pickExact mine.outs amount false with
    | some o => k.adoptLock o
    | none => k

/-- Whether a saved intent is too young to fund again. -/
def intentFresh (r : Reads) : Bool :=
  match k.side.lockIntentAt with
  | some intent => decide (r.now < intent + lockIntentGraceMs)
  | none => false

/-- Fund my HTLC. The intent is saved first; the lock once the wallet has answered. -/
def lock (r : Reads) (chain : Chain) (address : String) (amount : ℕ) : Flow Tick :=
  if k.intentFresh r then
    .error (k.setNote (some "a lock may be in flight — re-checking the chain before funding again"))
  else
    let k := Tick.save (k.set { k.side with lockIntentAt := some r.now })
    let k := k.emit (.fund chain address amount)
    match r.fund with
    | .failed err => k.throw err
    | .lost lock err => (k.emit (.funded lock)).throw err
    | .paid lock =>
      let k := k.emit (.funded lock)
      .ok (Tick.save (k.set
        { k.side with myLock := some lock, lockIntentAt := none, note := none }))

/-- Where claims and refunds pay to. -/
def spendTo (E : Engine) (c : Ctx) (chain : Chain) : SpendTo :=
  ⟨chain, E.net chain, walletAddress E.lib.schnorr
    (E.lib.xOnly (E.lib.walletKey c.seed chain (E.net chain))) chain (E.net chain),
    E.policy.feeRate chain⟩

/-- Take my HTLC back once its lock has matured, and again until it is spent. -/
def maybeRefund (E : Engine) (c : Ctx) (r : Reads) (chain : Chain) (params : HtlcParams)
    (myOut : Option HtlcOut) (tip : ℕ) (key : Bytes) : Flow Tick :=
  match myOut with
  | none => .ok k
  | some o =>
    if o.spend.isSome then .ok k
    else
      match k.side.refund with
      | some tx => .ok (k.broadcast r.refundSent .refund chain tx)
      | none =>
        if confsOf o.height tip < params.refundBlocks then .ok k
        else
          match buildRefundTx E.lib ⟨o.txid, o.vout, o.value⟩ params (spendTo E c chain) key with
          | .error err => k.throw err
          | .ok spend =>
            let tx : RawTx := ⟨spend.txid, spend.hex⟩
            let k := Tick.save (k.set { k.side with refund := some tx })
            .ok (k.broadcast r.refundSent .refund chain tx)

end Tick

end Gavl
