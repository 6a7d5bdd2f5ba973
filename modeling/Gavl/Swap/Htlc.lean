import Gavl.Lib.Tapscript
import Gavl.Wallet.ChainWallet

/-!
# Taproot HTLCs

A P2TR output with an unspendable internal key and two leaves: the receiver claims with the
preimage of a hash, the sender takes back after a relative lock.
-/

namespace Gavl

/-- Which side of a match; the taker holds the secret and locks first. -/
inductive Role where
  | taker
  | maker
deriving DecidableEq

structure HtlcParams where
  /-- SHA256 of the secret. -/
  hash : Bytes
  /-- Claims with the secret. -/
  receiver : Bytes
  /-- Refunds after `refundBlocks` confirmations of the output. -/
  sender : Bytes
  /-- Relative lock in blocks. -/
  refundBlocks : ℕ
deriving DecidableEq

structure Htlc where
  claimLeaf : Bytes
  refundLeaf : Bytes
  claimControlBlock : Bytes
  refundControlBlock : Bytes
  merkleRoot : Bytes
  outputKey : Bytes
  scriptPubKey : Bytes

structure HtlcUtxo where
  txid : String
  vout : ℕ
  amount : ℕ

/-- A signed spend of an HTLC. -/
structure SignedSpend where
  hex : String
  txid : String
  vsize : ℕ
  fee : ℕ
  /-- Value of the single output. -/
  value : ℕ

/-- The curve, the hash functions and the transaction library. -/
structure SwapLib where
  crypto : Crypto
  schnorr : Schnorr
  curve : Curve
  tx : TxLib
  tapLeafHash : Bytes → Bytes
  /-- `taprootTweakPubkey`: output key and parity of an internal key and a merkle root. -/
  tweak : Bytes → Bytes → Bytes × UInt8
  /-- The address of an output key. -/
  trAddress : Bytes → Chain → Net → String
  /-- vsize of a spend: one input with a witness, one output paying a script. -/
  spendVsize : List Bytes → Bytes → ℕ
  /-- What a signature of a spend signs: outpoint, sequence, output script and value, leaf. -/
  sighash : HtlcUtxo → ℕ → Bytes → ℕ → Bytes → Bytes
  /-- Hex and txid of a spend with its witness. -/
  rawSpend : HtlcUtxo → ℕ → Bytes → ℕ → List Bytes → String × String
  /-- The hot-wallet key of a seed. -/
  walletKey : Bytes → Chain → Net → Bytes
  /-- The taker's preimage for a swap id. -/
  swapSecret : Bytes → String → Bytes
  /-- A party's key for a swap id on a chain. -/
  swapKey : Bytes → String → Chain → Role → Bytes

namespace SwapLib

variable (L : SwapLib)

/-- BIP340 x-only public key of a secret key. -/
def xOnly (secretKey : Bytes) : Bytes := L.schnorr.getPublicKey secretKey

def hashOf (secret : Bytes) : Bytes := L.crypto.sha256 secret

end SwapLib

/-! ## Script -/

/-- BIP341's point without a known logarithm. -/
def numsInternalKey : Bytes :=
  fromHex "50929b74c1a04954b78b4b6035e97a5e078a5a0f28ec96d547bfee9ace803ac0"

def tapscriptLeafVersion : UInt8 := 0xc0

/-- BIP68 relative block locks use the low 16 bits of a sequence. -/
def htlcMaxRefundBlocks : ℕ := 0xffff

/-- A claim signals replaceability. -/
def claimSequence : ℕ := 0xfffffffd

/-- A positive script number below 2^16: little-endian, a zero byte above a set sign bit. -/
def scriptNum (n : ℕ) : Bytes :=
  if n < 0x80 then [UInt8.ofNat n]
  else if n < 0x8000 then [UInt8.ofNat n, UInt8.ofNat (n / 256)]
  else [UInt8.ofNat n, UInt8.ofNat (n / 256), 0]

def claimLeafOps (params : HtlcParams) : List Tapscript.Op :=
  [.sha256, .push params.hash, .equalVerify, .push params.receiver, .checkSig]

def refundLeafOps (params : HtlcParams) : List Tapscript.Op :=
  [.push (scriptNum params.refundBlocks), .checkSequenceVerify, .drop, .push params.sender,
    .checkSig]

/-- The order a branch hashes its children in. -/
def leBytes : Bytes → Bytes → Bool
  | [], _ => true
  | _ :: _, [] => false
  | a :: as, b :: bs => if a = b then leBytes as bs else decide (a < b)

/-- The number of a big-endian byte string. -/
def bytesToNat (b : Bytes) : ℕ := b.foldl (fun n x => 256 * n + x.toNat) 0

/-- Why a key cannot be a party's, or `none`. -/
def keyError (L : SwapLib) (name : String) (key : Bytes) : Option String :=
  if key.length ≠ 32 then some s!"htlc: {name} must be a 32-byte x-only key, got {key.length}"
  else if !L.curve.liftsX (bytesToNat key) then some "bad point: is not on curve"
  else none

/-- The taproot HTLC of some terms. -/
def htlcScript (L : SwapLib) (params : HtlcParams) : Except String Htlc :=
  if params.hash.length ≠ 32 then
    .error s!"htlc: hash must be 32 bytes, got {params.hash.length}"
  else
    match (keyError L "receiver" params.receiver).or (keyError L "sender" params.sender) with
    | some err => .error err
    | none =>
      if params.refundBlocks < 1 ∨ htlcMaxRefundBlocks < params.refundBlocks then
        .error (s!"htlc: refundBlocks must be an integer in 1..{htlcMaxRefundBlocks}, "
          ++ s!"got {params.refundBlocks}")
      else
        let claimLeaf := Tapscript.encode (claimLeafOps params)
        let refundLeaf := Tapscript.encode (refundLeafOps params)
        let claimHash := L.tapLeafHash claimLeaf
        let refundHash := L.tapLeafHash refundLeaf
        let branch :=
          if leBytes claimHash refundHash then claimHash ++ refundHash else refundHash ++ claimHash
        let merkleRoot := L.schnorr.taggedHash "TapBranch" branch
        let (outputKey, parity) := L.tweak numsInternalKey merkleRoot
        let controlHeader := [tapscriptLeafVersion ||| parity]
        .ok
          { claimLeaf := claimLeaf
            refundLeaf := refundLeaf
            claimControlBlock := controlHeader ++ numsInternalKey ++ refundHash
            refundControlBlock := controlHeader ++ numsInternalKey ++ claimHash
            merkleRoot := merkleRoot
            outputKey := outputKey
            scriptPubKey := [0x51, 0x20] ++ outputKey }

/-! ## Spends -/

/-- Where a spend goes, and at what rate. -/
structure SpendTo where
  chain : Chain
  net : Net
  /-- Destination address. -/
  «to» : String
  feeRate : FeeRate

/-- One input, one output, through a leaf. The fee is exact: the witness has a fixed size. -/
def spend (L : SwapLib) (utxo : HtlcUtxo) (dest : SpendTo) (leaf : Bytes) (sequence : ℕ)
    (key : Bytes) (witness : Bytes → List Bytes) : Except String SignedSpend :=
  if !dest.feeRate.valid then
    .error s!"feeRate must be a positive sat/vB, got {dest.feeRate.text}"
  else
    match L.tx.decode dest.chain dest.net dest.to with
    | none => .error s!"{dest.to} is not a {dest.chain.name} {dest.net.name} address"
    | some destination =>
      let vsize := L.spendVsize (witness (List.replicate 64 0)) destination.script
      let fee := dest.feeRate.fee vsize
      let dust := dustThreshold (networks dest.chain) destination.script
      if utxo.amount < fee + dust then
        .error (s!"output {(utxo.amount : ℤ) - fee} below dust {dust} (amount {utxo.amount}, "
          ++ s!"fee {fee} = {dest.feeRate.text} sat/vB × {vsize} vB)")
      else
        let value := utxo.amount - fee
        let sig := L.schnorr.sign (L.sighash utxo sequence destination.script value leaf) key
        let (hex, txid) := L.rawSpend utxo sequence destination.script value (witness sig)
        .ok ⟨hex, txid, vsize, fee, value⟩

/-- The receiver spends the HTLC with the secret. -/
def buildClaimTx (L : SwapLib) (utxo : HtlcUtxo) (params : HtlcParams) (dest : SpendTo)
    (secret receiverKey : Bytes) : Except String SignedSpend :=
  if L.hashOf secret ≠ params.hash then .error "claim: secret does not hash to params.hash"
  else if L.xOnly receiverKey ≠ params.receiver then
    .error "claim: receiverKey does not match params.receiver"
  else
    match htlcScript L params with
    | .error err => .error err
    | .ok htlc => spend L utxo dest htlc.claimLeaf claimSequence receiverKey
        (fun sig => [sig, secret, htlc.claimLeaf, htlc.claimControlBlock])

/-- The sender takes the HTLC back. -/
def buildRefundTx (L : SwapLib) (utxo : HtlcUtxo) (params : HtlcParams) (dest : SpendTo)
    (senderKey : Bytes) : Except String SignedSpend :=
  if L.xOnly senderKey ≠ params.sender then
    .error "refund: senderKey does not match params.sender"
  else
    match htlcScript L params with
    | .error err => .error err
    | .ok htlc => spend L utxo dest htlc.refundLeaf params.refundBlocks senderKey
        (fun sig => [sig, htlc.refundLeaf, htlc.refundControlBlock])

end Gavl
