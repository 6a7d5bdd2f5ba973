import Gavl.Lib.LargestFirst
import Gavl.Swap.Digest

/-!
# The hot wallet

One key and one address on one chain. Coins are picked largest first over what the explorer lists;
outpoints this wallet spent stay excluded until the explorer stops listing them.
-/

namespace Gavl

open LargestFirst

structure ChainWallet where
  chain : Chain
  net : Net
  /-- The internal key. -/
  key : Bytes
  /-- The wallet's own scriptPubKey. -/
  script : Bytes
  /-- Transactions this instance broadcast: their unconfirmed change is spendable. -/
  ownTxids : List String
  /-- Outpoints this instance spent that the explorer may still list. -/
  spent : List String

/-- A decoded address. -/
structure Destination where
  /-- `type === "tr"`. -/
  isTaproot : Bool
  /-- Its output script. -/
  script : Bytes

/-- A fee rate, base units per vbyte. -/
structure FeeRate where
  /-- As it prints. -/
  text : String
  /-- Finite and above zero. -/
  valid : Bool
  /-- `Math.ceil(feeRate * vsize)`. -/
  fee : ℕ → ℕ

structure PayArgs where
  /-- Destination address. -/
  «to» : String
  /-- What the destination output receives, base units. -/
  amount : ℤ
  feeRate : FeeRate

/-- A transaction as it is signed: the target output at index 0, change, if any, at index 1. -/
structure BuiltTx where
  inputs : List EsploraUtxo
  outScript : Bytes
  amount : ℤ
  change : Option ℤ
  vsize : ℕ

/-- The transaction library, as far as a key-path payment uses it. -/
structure TxLib where
  /-- The address of a chain's network that a text spells, or `none` where decoding throws. -/
  decode : Chain → Net → String → Option Destination
  /-- vsize of the signed transaction: so many inputs, an output paying a script, change or not. -/
  vsize : ℕ → Bytes → Bool → ℕ
  /-- `tx.id`. -/
  txid : BuiltTx → String

/-- Summed value of some coins. -/
def coinSum (coins : List EsploraUtxo) : ℕ := (coins.map (fun u => u.value)).sum

namespace ChainWallet

variable (w : ChainWallet) (S : Schnorr)

def address : String := walletAddress S (S.getPublicKey w.key) w.chain w.net

/-! ## Funds proofs -/

/-- The loop of `proveFunds`: take coins until `required` is covered, as many as a proof may list. -/
def pickFunds (required : ℤ) : List EsploraUtxo → List EsploraUtxo → List EsploraUtxo
  | picked, [] => picked
  | picked, u :: rest =>
    if required ≤ coinSum picked ∧ 0 < picked.length then picked
    else if picked.length = maxProofUtxos then picked
    else pickFunds required (picked ++ [u]) rest

/-- The outpoint as a proof lists it. -/
def proofUtxo (u : EsploraUtxo) : ProofUtxo :=
  ⟨u.txid, u.vout, String.ofList (Nat.toDigits 10 u.value)⟩

/-- A funds proof for `matchId` covering at least `required`, over what the explorer lists. -/
def proveFunds (listed : List EsploraUtxo) (matchId : String) (required : ℤ) :
    Except String FundsProof :=
  let confirmed := largestFirst (fun u => u.value) (listed.filter (fun u => u.confirmed))
  let picked := pickFunds required [] confirmed
  if (coinSum picked : ℤ) < required ∨ picked.length = 0 then
    .error (s!"proveFunds: {coinSum picked} confirmed in ≤ {maxProofUtxos} utxos, "
      ++ s!"need {required}")
  else signFundsProof S w.key matchId w.chain w.net (picked.map proofUtxo)

/-! ## Payments -/

/-- Forget the spent outpoints that are not listed: the explorer caught up. -/
def caughtUp (listed : List EsploraUtxo) : ChainWallet :=
  { w with spent := w.spent.filter (fun o => decide (o ∈ listed.map EsploraUtxo.key)) }

/-- Neither spent by this instance nor someone else's unconfirmed deposit. -/
def isSpendable (u : EsploraUtxo) : Bool :=
  !decide (u.key ∈ w.spent) && (u.confirmed || decide (u.txid ∈ w.ownTxids))

/-- What a payment may spend, the largest first. -/
def spendable (listed : List EsploraUtxo) : List EsploraUtxo :=
  largestFirst (fun u => u.value) (listed.filter w.isSpendable)

variable (L : TxLib)

def changeDust : ℕ := dustThreshold (networks w.chain) w.script

/-- The loop of `payNow`: add inputs until the target is covered at the exact fee. A leftover that
would be dust goes to the fee. -/
def selectCoins (outScript : Bytes) (args : PayArgs) :
    List EsploraUtxo → List EsploraUtxo → Option BuiltTx
  | _, [] => none
  | inputs, u :: rest =>
    let inputs := inputs ++ [u]
    let inSum : ℤ := coinSum inputs
    if inSum < args.amount then selectCoins outScript args inputs rest
    else
      let withChange := L.vsize inputs.length outScript true
      let change := inSum - args.amount - args.feeRate.fee withChange
      if (w.changeDust : ℤ) ≤ change then
        some ⟨inputs, outScript, args.amount, some change, withChange⟩
      else
        let noChange := L.vsize inputs.length outScript false
        if (args.feeRate.fee noChange : ℤ) ≤ inSum - args.amount then
          some ⟨inputs, outScript, args.amount, none, noChange⟩
        else selectCoins outScript args inputs rest

/-- The output script of a request that is not refused outright. -/
def checkPay (args : PayArgs) : Except String Bytes :=
  if !args.feeRate.valid then .error s!"feeRate must be a positive sat/vB, got {args.feeRate.text}"
  else
    match L.decode w.chain w.net args.to with
    | none => .error s!"{args.to} is not a {w.chain.name} {w.net.name} address"
    | some destination =>
      let minOut := dustThreshold (networks w.chain) destination.script
      if args.amount < minOut then
        .error s!"amount {args.amount} below dust {minOut} for {args.to}"
      else .ok destination.script

/-- One payment over what the explorer lists, up to the transaction to sign. A request that is
refused outright asks for no listing. -/
def payNow (args : PayArgs) (listed : List EsploraUtxo) : ChainWallet × Except String BuiltTx :=
  match w.checkPay L args with
  | .error err => (w, .error err)
  | .ok outScript =>
    let w := w.caughtUp listed
    match w.selectCoins L outScript args [] (w.spendable listed) with
    | none => (w, .error (s!"insufficient funds: {coinSum (w.spendable listed)} spendable at "
        ++ s!"{w.address S}, need {args.amount} + fee at {args.feeRate.text} sat/vB"))
    | some tx => (w, .ok tx)

/-- After an accepted broadcast: the change is spendable, the inputs are not. -/
def broadcasted (txid : String) (tx : BuiltTx) : ChainWallet :=
  { w with ownTxids := w.ownTxids ++ [txid], spent := w.spent ++ tx.inputs.map EsploraUtxo.key }

end ChainWallet

end Gavl
