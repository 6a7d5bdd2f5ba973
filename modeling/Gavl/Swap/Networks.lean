import Gavl.Det.Canonical

/-!
# Chain parameters of the two sides of a swap

Block spacing and dust policy of Bitcoin and Litecoin, and the refund windows derived from
them. Policy does not differ between a chain's networks, so a `Chain` determines it.
-/

namespace Gavl

inductive Chain where
  | bitcoin
  | litecoin
deriving DecidableEq, Repr

inductive Net where
  | mainnet
  | testnet
  | regtest
deriving DecidableEq, Repr

namespace Chain

def name : Chain → String
  | bitcoin => "bitcoin"
  | litecoin => "litecoin"

/-- The chain a name stands for. -/
def ofName? (s : String) : Option Chain :=
  if s = "bitcoin" then some bitcoin else if s = "litecoin" then some litecoin else none

end Chain

namespace Net

/-- The network a name stands for. -/
def ofName? (s : String) : Option Net :=
  if s = "mainnet" then some mainnet
  else if s = "testnet" then some testnet
  else if s = "regtest" then some regtest
  else none

end Net

/-- The policy of a chain's networks. -/
structure SwapNetwork where
  /-- Consensus target block spacing, seconds. -/
  blockSeconds : ℕ
  /-- Base units per 1000 vbytes. -/
  dustRelayFeePerKvB : ℕ
  minRelayFeePerKvB : ℕ

def networks : Chain → SwapNetwork
  | .bitcoin => ⟨600, 3000, 100⟩
  | .litecoin => ⟨150, 30000, 1000⟩

/-! ## Dust -/

/-- `OP_0` or `OP_1..OP_16` followed by one direct push of 2 to 40 bytes. -/
def isWitnessProgram (script : Bytes) : Bool :=
  match script with
  | version :: push :: _ =>
    decide (4 ≤ script.length) && decide (script.length ≤ 42) &&
      (version = 0x00 || (decide (0x51 ≤ version) && decide (version ≤ 0x60))) &&
      decide (push.toNat + 2 = script.length)
  | _ => false

/-- Smallest non-dust value for an output paying `script`. -/
def dustThreshold (network : SwapNetwork) (script : Bytes) : ℕ :=
  if script.head? = some 0x6a then 0
  else
    let outSize := 8 + (if script.length < 0xfd then 1 else 3) + script.length
    let inSize := if isWitnessProgram script then 32 + 4 + 1 + 107 / 4 + 4 else 32 + 4 + 1 + 107 + 4
    (outSize + inSize) * network.dustRelayFeePerKvB / 1000

/-! ## Refund windows -/

/-- Who locks first and holds the secret, and who locks second. -/
inductive SwapRole where
  | initiator
  | counterparty
deriving DecidableEq

def initiatorRefundHours : ℕ := 24
def counterpartyRefundHours : ℕ := 12

/-- The largest relative lock in blocks. -/
def maxRefundBlocks : ℕ := 65535

/-- Blocks covering `hours` at the chain's target spacing, rounded up. -/
def minRefundBlocks (chain : Chain) (hours : ℕ) : Except String ℕ :=
  if hours = 0 then .error s!"hours must be positive, got {hours}"
  else
    let spacing := (networks chain).blockSeconds
    let blocks := (hours * 3600 + (spacing - 1)) / spacing
    if maxRefundBlocks < blocks then
      .error (s!"{hours}h is {blocks} {chain.name} blocks, above the BIP68 maximum "
        ++ s!"{maxRefundBlocks}")
    else .ok blocks

def refundHours : SwapRole → ℕ
  | .initiator => initiatorRefundHours
  | .counterparty => counterpartyRefundHours

/-- Default refund window in blocks of the chain the lock sits on. -/
def defaultRefundBlocks : Chain → SwapRole → ℕ
  | .bitcoin, .initiator => 144
  | .bitcoin, .counterparty => 72
  | .litecoin, .initiator => 576
  | .litecoin, .counterparty => 288

/-- The table is what `minRefundBlocks` computes; it throws for no default. -/
theorem minRefundBlocks_refundHours (chain : Chain) (role : SwapRole) :
    minRefundBlocks chain (refundHours role) = .ok (defaultRefundBlocks chain role) := by
  cases chain <;> cases role <;> rfl

end Gavl
