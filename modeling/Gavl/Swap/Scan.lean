import Gavl.Lib.OrderedMap
import Gavl.Lib.StableSort
import Gavl.Swap.Htlc

/-!
# What an explorer shows of an HTLC

The outputs at an HTLC's address with the spend of each, and what the engine reads off them.
-/

namespace Gavl

structure Outpoint where
  txid : String
  vout : ℕ
deriving DecidableEq

/-- The transaction that spends an output. -/
structure HtlcSpend where
  txid : String
  height : Option ℕ
  witness : List String
deriving DecidableEq

structure HtlcOut where
  txid : String
  vout : ℕ
  value : ℕ
  /-- Block height, none while in the mempool. -/
  height : Option ℕ
  spend : Option HtlcSpend
deriving DecidableEq

structure Scan where
  address : String
  outs : List HtlcOut
  tip : ℕ

def HtlcOut.outpoint (o : HtlcOut) : Outpoint := ⟨o.txid, o.vout⟩

/-- Confirmations of what is at a height, none in the mempool. -/
def confsOf (height : Option ℕ) (tip : ℕ) : ℕ :=
  match height with
  | none => 0
  | some height => tip + 1 - height

/-- Unspent and confirmed before unspent, before spent. -/
def HtlcOut.rank (o : HtlcOut) : ℕ :=
  if o.spend.isSome then 2 else if o.height.isNone then 1 else 0

/-- The order outputs are picked in; one without a height comes last. -/
def HtlcOut.before (a b : HtlcOut) : Bool :=
  decide (a.rank < b.rank) ||
    (decide (a.rank = b.rank) &&
      match a.height, b.height with
      | _, none => true
      | none, some _ => false
      | some x, some y => decide (x ≤ y))

/-- The output the counterparty owes: of exactly `amount`, the unspent and most confirmed first. -/
def pickExact (outs : List HtlcOut) (amount : ℕ) (unspentOnly : Bool) : Option HtlcOut :=
  ((outs.filter (fun o => decide (o.value = amount) && (!unspentOnly || o.spend.isNone))).insertionSort
    (fun a b => a.before b = true)).head?

/-- The preimage of `hash` in a claim-shaped witness, or `none`. -/
def secretFromWitness (C : Crypto) (witness : List String) (hash : Bytes) : Option Bytes :=
  match witness with
  | [_, item, _, _] =>
    if item.toList.length = 64 ∧ item.toList.all (fun c => (hexDigit? c).isSome) = true then
      let s := fromHex item
      if C.sha256 s = hash then some s else none
    else none
  | _ => none

/-- Blocks of the maker's refund window the taker leaves ahead when it claims: a quarter. -/
def claimSafetyBlocks (makerRefundBlocks : ℕ) : ℕ := (makerRefundBlocks + 3) / 4

/-! ## The scan -/

/-- `${txid}:${vout}`. -/
def outKey (txid : String) (vout : ℕ) : String := s!"{txid}:{vout}"

/-- Add the outputs of one transaction that pay the script. -/
def addOuts (script : String) (outs : OrderedMap String HtlcOut) (tx : EsploraTx) :
    OrderedMap String HtlcOut :=
  tx.vout.zipIdx.foldl (fun outs v =>
    if v.1.scriptpubkey = some script then
      outs.set (outKey tx.txid v.2) ⟨tx.txid, v.2, v.1.value, tx.height, none⟩
    else outs) outs

/-- Mark what one input spends. -/
def markSpent (tx : EsploraTx) (outs : OrderedMap String HtlcOut) (vin : EsploraVin) :
    OrderedMap String HtlcOut :=
  match vin.txid, vin.vout with
  | some txid, some vout =>
    match outs.get? (outKey txid vout) with
    | some o => outs.set (outKey txid vout) { o with spend := some ⟨tx.txid, tx.height, vin.witness⟩ }
    | none => outs
  | _, _ => outs

/-- The outputs that pay a script in some transactions, with their spends in them. -/
def scanTxs (script : String) (txs : List EsploraTx) : OrderedMap String HtlcOut :=
  txs.foldl (fun outs tx => tx.vin.foldl (markSpent tx) outs) (txs.foldl (addOuts script) ∅)

/-- What the explorer answers a scan: the newest transactions of the address, and its tip. -/
structure ScanAnswer where
  txs : List EsploraTx
  tip : ℕ

/-- The outputs at an HTLC's address. -/
def scan (L : SwapLib) (chain : Chain) (net : Net) (params : HtlcParams)
    (answer : Except String ScanAnswer) : Except String Scan := do
  let htlc ← htlcScript L params
  let answer ← answer
  return ⟨L.trAddress htlc.outputKey chain net,
    (scanTxs (toHex htlc.scriptPubKey) answer.txs).values, answer.tip⟩

end Gavl
