import Gavl.Chains.Esplora
import Gavl.Market.Board

/-!
# Signing and checking proofs of funds

A proof is signed under the wallet's internal key, bound to a match, and checked against what the
explorer lists at the key's address now.
-/

namespace Gavl

/-- The platform's BIP340 signatures and taproot addresses. -/
structure Schnorr where
  /-- X-only. -/
  getPublicKey : Bytes → Bytes
  /-- `sign(message, key)`, without auxiliary randomness. -/
  sign : Bytes → Bytes → Bytes
  /-- `verify(signature, message, publicKey)`, false where it throws. -/
  verify : Bytes → Bytes → Bytes → Bool
  taggedHash : String → Bytes → Bytes
  /-- BIP86 key-path address of an internal key. -/
  p2trAddress : Bytes → Chain → Net → String

def fundsProofTag : String := "gavl/funds-proof/v1"

/-- Length-prefixed UTF-8. -/
def lp (s : String) : Except String Bytes :=
  let b := utf8 s.toList
  if 0xffff < b.length then .error "proof: field longer than 65535 bytes"
  else .ok ([b.length / 256, b.length % 256].map UInt8.ofNat ++ b)

/-- Big-endian unsigned 64-bit encoding. -/
def u64be (n : ℕ) : Bytes := u32be (n / 2 ^ 32) ++ u32be n

def utxoBytes (u : ProofUtxo) : Bytes := fromHex u.txid ++ u32be u.vout ++ u64be (decimalValue u.value)

/-- The message a proof signs. -/
def proofDigest (S : Schnorr) (matchId : String) (chain : Chain) (net : Net) (pubkey : String)
    (utxos : List ProofUtxo) : Except String Bytes :=
  if matchId = "" then .error "proof: matchId must be a non-empty string"
  else if !isHexOf 64 pubkey then .error "proof: pubkey must be 64 lowercase hex"
  else
    match utxosOf (some (.arr (utxos.map copyUtxo))) chain with
    | .error err => .error s!"proof: {err}"
    | .ok _ => do
      let body := (← lp matchId) ++ (← lp chain.name) ++ (← lp net.name) ++ fromHex pubkey ++
        [UInt8.ofNat utxos.length] ++ utxos.flatMap utxoBytes
      return S.taggedHash fundsProofTag body

/-- Sign `utxos`, which must pay the wallet's key, as a proof for `matchId`. -/
def signFundsProof (S : Schnorr) (walletPriv : Bytes) (matchId : String) (chain : Chain) (net : Net)
    (utxos : List ProofUtxo) : Except String FundsProof := do
  let pubkey := toHex (S.getPublicKey walletPriv)
  let digest ← proofDigest S matchId chain net pubkey utxos
  return ⟨chain, net, pubkey, utxos, toHex (S.sign digest walletPriv)⟩

def walletAddress (S : Schnorr) (pubkey : Bytes) (chain : Chain) (net : Net) : String :=
  S.p2trAddress pubkey chain net

structure ProofCheck where
  ok : Bool
  reason : Option String
deriving DecidableEq

/-- The listed value of every outpoint, by key. -/
def liveValues (listed : List EsploraUtxo) : OrderedMap String ℕ :=
  listed.foldl (fun live u => live.set u.key u.value) ∅

/-- The first outpoint that is not unspent at the address with the claimed value. -/
def utxosMismatch (live : OrderedMap String ℕ) (address : String) : List ProofUtxo → Option String
  | [] => none
  | u :: rest =>
    match live.get? u.key with
    | none => some s!"utxo {u.txid}:{u.vout} is not an unspent output of {address}"
    | some value =>
      if value ≠ decimalValue u.value then
        some s!"utxo {u.txid}:{u.vout} holds {value}, proof claims {u.value}"
      else utxosMismatch live address rest

def utxosSum (utxos : List ProofUtxo) : ℕ := (utxos.map (fun u => decimalValue u.value)).sum

/-- Check a proof for `matchId` against the explorer. -/
def verifyFundsProof (S : Schnorr) (proof : Json) (matchId : String) (required : ℤ)
    (esplora : Esplora) : Except String ProofCheck :=
  match fundsProofOf proof with
  | .error shape => .ok ⟨false, some shape⟩
  | .ok proof =>
    if proof.chain ≠ esplora.chain ∨ proof.net ≠ esplora.net then
      .ok ⟨false, some (s!"wrong network: proof is {proof.chain.name} {proof.net.name}, "
        ++ s!"expected {esplora.chain.name} {esplora.net.name}")⟩
    else if required < 0 then .error s!"proof: required must be ≥ 0, got {required}"
    else
      let sigOk := match proofDigest S matchId proof.chain proof.net proof.pubkey proof.utxos with
        | .ok digest => S.verify (fromHex proof.sig) digest (fromHex proof.pubkey)
        | .error _ => false
      if !sigOk then .ok ⟨false, some "bad signature"⟩
      else if utxosSum proof.utxos < required then
        .ok ⟨false, some s!"insufficient: proof sums to {utxosSum proof.utxos}, need {required}"⟩
      else
        let address := walletAddress S (fromHex proof.pubkey) proof.chain proof.net
        match esplora.utxos address with
        | .error err => .error err
        | .ok listed =>
          match utxosMismatch (liveValues listed) address proof.utxos with
          | some reason => .ok ⟨false, some reason⟩
          | none => .ok ⟨true, none⟩

end Gavl
