import Gavl.Swap.Step

/-!
# Swap keys and secrets

Everything a party signs or reveals in a swap is derived from its identity's seed: an HMAC of a
message that names what the key or secret is for.
-/

namespace Gavl

namespace Keys

def domain : String := "gavl/swap-keys/v1"

def chains : List String := ["bitcoin", "litecoin"]

def nets : List String := ["mainnet", "testnet", "regtest"]

def roles : List String := ["maker", "taker"]

/-- The order of the secp256k1 group. -/
def groupOrder : ℕ := 0xfffffffffffffffffffffffffffffffebaaedce6af48a03bbfd25e8cd0364141

/-- `Number.MAX_SAFE_INTEGER`. -/
def maxSafe : ℕ := 2 ^ 53 - 1

/-! ## The message -/

/-- A field behind its length. -/
def lp (field : String) : Except String Bytes :=
  let b := utf8 field.toList
  if 0xffff < b.length then .error "keys: field longer than 65535 bytes"
  else .ok ([b.length / 256, b.length % 256].map UInt8.ofNat ++ b)

/-- What is hashed under the seed. -/
def message (purpose : String) (fields : List String) : Except String Bytes :=
  ((domain :: purpose :: fields).mapM lp).map List.flatten

section
variable (hmacSha256 : Bytes → Bytes → Bytes) (seed : Bytes)

def prf (purpose : String) (fields : List String) : Except String Bytes :=
  if seed.length ≠ 32 then .error s!"keys: seed must be 32 bytes, got {seed.length}"
  else (message purpose fields).map (hmacSha256 seed)

/-- 32 bytes, big-endian. -/
def be32 (n : ℕ) : Bytes := (List.range 32).map fun i => UInt8.ofNat (n / 256 ^ (31 - i))

/-- A secret key: the hash modulo the order of the group, never zero. -/
def scalar (purpose : String) (fields : List String) : Except String Bytes := do
  let d := bytesToNat (← prf hmacSha256 seed purpose fields) % groupOrder
  if d = 0 then .error s!"keys: derived {purpose} key is zero" else return be32 d

def check (what v : String) (allowed : List String) : Except String Unit :=
  if v ∈ allowed then .ok ()
  else .error s!"keys: unknown {what} {String.ofList (Json.quote v)}"

def checkSwapId (swapId : String) : Except String Unit :=
  if swapId = "" then .error "keys: swapId must be a non-empty string" else .ok ()

/-! ## Keys and secrets -/

/-- The hot-wallet key of a chain's network. -/
def walletKey (chain net : String) : Except String Bytes := do
  check "chain" chain chains
  check "net" net nets
  scalar hmacSha256 seed "wallet" [chain, net]

/-- A party's key for one swap on one chain. -/
def swapKey (swapId chain role : String) : Except String Bytes := do
  checkSwapId swapId
  check "chain" chain chains
  check "role" role roles
  scalar hmacSha256 seed "swap-key" [swapId, chain, role]

/-- The taker's preimage. -/
def swapSecret (swapId : String) : Except String Bytes := do
  checkSwapId swapId
  prf hmacSha256 seed "swap-secret" [swapId]

end

/-- The taker's swap id, known before the take is signed. -/
def takeSwapId (offerId takerPub : String) (takeSeq : ℕ) : Except String String :=
  if offerId = "" ∨ takerPub = "" then .error "keys: offerId and takerPub are required"
  else if maxSafe < takeSeq then
    .error s!"keys: takeSeq must be a non-negative integer, got {takeSeq}"
  else .ok (Gavl.takeSwapId offerId takerPub takeSeq)

/-! ## Calls -/

/-- One derivation with its arguments. -/
inductive Call where
  | walletKey (chain net : String)
  | swapKey (swapId chain role : String)
  | swapSecret (swapId : String)
deriving DecidableEq

namespace Call

/-- What a call asks of its arguments. -/
def checked : Call → Except String Unit
  | walletKey chain net => do
    check "chain" chain chains
    check "net" net nets
  | swapKey swapId chain role => do
    checkSwapId swapId
    check "chain" chain chains
    check "role" role roles
  | swapSecret swapId => checkSwapId swapId

def purpose : Call → String
  | walletKey _ _ => "wallet"
  | swapKey _ _ _ => "swap-key"
  | swapSecret _ => "swap-secret"

def fields : Call → List String
  | walletKey chain net => [chain, net]
  | swapKey swapId chain role => [swapId, chain, role]
  | swapSecret swapId => [swapId]

/-- The message a call hashes, where its arguments are accepted. -/
def message (call : Call) : Except String Bytes := do
  call.checked
  Keys.message call.purpose call.fields

/-- What a call returns. -/
def run (hmacSha256 : Bytes → Bytes → Bytes) (seed : Bytes) : Call → Except String Bytes
  | walletKey chain net => Keys.walletKey hmacSha256 seed chain net
  | swapKey swapId chain role => Keys.swapKey hmacSha256 seed swapId chain role
  | swapSecret swapId => Keys.swapSecret hmacSha256 seed swapId

/-- What a call makes of the hash. -/
def finish (call : Call) (hash : Bytes) : Except String Bytes :=
  match call with
  | swapSecret _ => .ok hash
  | walletKey _ _ | swapKey _ _ _ =>
    if bytesToNat hash % groupOrder = 0 then .error s!"keys: derived {call.purpose} key is zero"
    else .ok (be32 (bytesToNat hash % groupOrder))

end Call

/-! ## The derivations of a match -/

/-- What a match derives: the maker's key, and the taker's key and secret. -/
inductive Use where
  | makerKey
  | takerKey
  | takerSecret
deriving DecidableEq

/-- The derivation of a match for one use. -/
def Use.call (m : Match) : Use → Call
  | makerKey => .swapKey m.id m.makerChain.name "maker"
  | takerKey => .swapKey (Gavl.takeSwapId m.offerId m.taker m.takeSeq) m.takerChain.name "taker"
  | takerSecret => .swapSecret (Gavl.takeSwapId m.offerId m.taker m.takeSeq)

end Keys

end Gavl
