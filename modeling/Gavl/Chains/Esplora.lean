import Gavl.Swap.Networks

/-!
# The explorer

What an Esplora-compatible server answers, as far as wallets and proofs read it.
-/

namespace Gavl

/-- A row of an address's unspent outputs. -/
structure EsploraUtxo where
  txid : String
  vout : ℕ
  /-- Base units. -/
  value : ℕ
  /-- `status.confirmed`. -/
  confirmed : Bool
deriving DecidableEq

namespace EsploraUtxo

/-- `${u.txid}:${u.vout}`. -/
def key (u : EsploraUtxo) : String := s!"{u.txid}:{u.vout}"

def outpoint (u : EsploraUtxo) : String × ℕ := (u.txid, u.vout)

end EsploraUtxo

structure EsploraVout where
  scriptpubkey : Option String
  /-- Base units. -/
  value : ℕ

structure EsploraVin where
  /-- Absent on a coinbase. -/
  txid : Option String
  vout : Option ℕ
  /-- Hex stack items; none when absent. -/
  witness : List String

structure EsploraTx where
  txid : String
  vin : List EsploraVin
  vout : List EsploraVout
  /-- `status.block_height` of a confirmed transaction. -/
  height : Option ℕ

/-- The transactions of an address, the newest first. -/
structure AddressHistory where
  mempool : List EsploraTx
  confirmed : List EsploraTx

def AddressHistory.all (history : AddressHistory) : List EsploraTx :=
  history.mempool ++ history.confirmed

def mempoolTxsLimit : ℕ := 50
def chainTxsLimit : ℕ := 25

/-- `/address/:addr/txs`: the newest transactions only. -/
def AddressHistory.page (history : AddressHistory) : List EsploraTx :=
  history.mempool.take mempoolTxsLimit ++ history.confirmed.take chainTxsLimit

/-- A client of one chain's explorer, as it answers at some moment. -/
structure Esplora where
  chain : Chain
  net : Net
  /-- Unspent outputs of an address, confirmed or in the mempool; an error where no endpoint
  answers. -/
  utxos : String → Except String (List EsploraUtxo)

end Gavl
