import Gavl.Det.Shape
import Gavl.Swap.Networks

/-!
# Proofs of funds

The `proof` field of a `swap.proof` op: outpoints that pay a wallet key, signed for one match.
The fold checks its shape only, and reads it only once the shape has been found good.
-/

namespace Gavl

structure ProofUtxo where
  /-- 64 lowercase hex. -/
  txid : String
  vout : ℕ
  /-- Base units, decimal string. -/
  value : String
deriving DecidableEq

structure FundsProof where
  chain : Chain
  net : Net
  /-- X-only hex of the wallet's internal key. -/
  pubkey : String
  utxos : List ProofUtxo
  sig : String
deriving DecidableEq

def maxProofUtxos : ℕ := 32

/-- All the coins there can be, in base units. -/
def maxMoney : Chain → ℕ
  | .bitcoin => 2100000000000000
  | .litecoin => 8400000000000000

/-- Largest output index. -/
def maxVout : ℕ := 0xffffffff

/-! ## Shape -/

/-- One outpoint, or why it is not well formed. -/
def utxoOf (u : Json) (i : ℕ) (chain : Chain) : Except String ProofUtxo :=
  match u.keys? with
  | none => .error s!"utxos[{i}] is not an object"
  | some keys =>
    if Json.joinedKeys keys ≠ "txid,value,vout" then
      .error s!"utxos[{i}] fields must be exactly txid, vout, value"
    else
      match (u.string? "txid").filter (isHexOf 64) with
      | none => .error s!"utxos[{i}].txid must be 64 lowercase hex"
      | some txid =>
        match (u.get? "vout").bind (Json.asNat? maxVout) with
        | none => .error s!"utxos[{i}].vout must be an integer in 0..4294967295"
        | some vout =>
          match (u.string? "value").filter
            (fun v => isDecimal 16 v && decide (decimalValue v ≤ maxMoney chain)) with
          | none => .error s!"utxos[{i}].value must be a canonical decimal in 1..{maxMoney chain}"
          | some value => .ok ⟨txid, vout, value⟩

/-- The outpoint's key in the set of those seen. -/
def ProofUtxo.key (u : ProofUtxo) : String := s!"{u.txid}:{u.vout}"

/-- The loop over the outpoints, from the `i`-th on. -/
def utxosFrom (chain : Chain) : ℕ → List String → List Json → Except String (List ProofUtxo)
  | _, _, [] => .ok []
  | i, seen, u :: rest =>
    match utxoOf u i chain with
    | .error e => .error e
    | .ok utxo =>
      if utxo.key ∈ seen then .error s!"duplicate utxo {utxo.key}"
      else (utxosFrom chain (i + 1) (utxo.key :: seen) rest).map (fun us => utxo :: us)

/-- 1 to 32 well-formed, distinct outpoints. -/
def utxosOf (utxos : Option Json) (chain : Chain) : Except String (List ProofUtxo) :=
  match utxos with
  | some (.arr items) =>
    if items.length = 0 then .error "utxos is empty"
    else if maxProofUtxos < items.length then .error s!"more than {maxProofUtxos} utxos"
    else utxosFrom chain 0 [] items
  | _ => .error "utxos must be an array"

/-- The proof a payload carries, or why it is not a well-formed one. -/
def fundsProofOf (x : Json) : Except String FundsProof :=
  match x.keys? with
  | none => .error "proof is not an object"
  | some keys =>
    if Json.joinedKeys keys ≠ "chain,net,pubkey,sig,utxos" then
      .error "proof fields must be exactly chain, net, pubkey, utxos, sig"
    else
      match (x.string? "chain").bind Chain.ofName? with
      | none => .error "proof.chain must be bitcoin | litecoin"
      | some chain =>
        match (x.string? "net").bind Net.ofName? with
        | none => .error "proof.net must be mainnet | testnet | regtest"
        | some net =>
          match (x.string? "pubkey").filter (isHexOf 64) with
          | none => .error "proof.pubkey must be 64 lowercase hex"
          | some pubkey =>
            match (x.string? "sig").filter (isHexOf 128) with
            | none => .error "proof.sig must be 128 lowercase hex"
            | some sig => (utxosOf (x.get? "utxos") chain).map (fun us => ⟨chain, net, pubkey, us, sig⟩)

/-- Why `x` is not a well-formed proof, or `none`. -/
def fundsProofShapeError (x : Json) : Option String :=
  match fundsProofOf x with
  | .error e => some e
  | .ok _ => none

end Gavl
