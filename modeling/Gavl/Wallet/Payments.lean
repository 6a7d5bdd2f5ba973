import Gavl.Wallet.ChainWallet

/-!
# Overlapping payments of one wallet

Calls are serialized: a call waits until the one before it has settled, reads a listing, and hands
its transaction to an explorer. The address has been in some states; a listing is one of them, of
whichever endpoint answered, so it may be older than the listing before it.
-/

namespace Gavl

inductive PayCall where
  | fundHtlc (args : PayArgs)
  | send (args : PayArgs)

structure PayState where
  wallet : ChainWallet
  /-- The payment running, then those that wait for it. -/
  queue : List PayArgs
  /-- What the running payment has signed, once it has read a listing. -/
  built : Option BuiltTx
  /-- The states the address has been in, the newest first. -/
  moments : List (List EsploraUtxo)
  /-- The payments that broadcast successfully. -/
  paid : List BuiltTx

inductive PayEvent where
  | call (c : PayCall)
  /-- The running payment is answered with the state that many moments ago, or not at all. -/
  | listing (age : Option ℕ)
  /-- Its broadcast is answered with a txid, or fails. -/
  | broadcast (answer : Option String)
  /-- Someone pays the address. -/
  | deposit (u : EsploraUtxo)
  | confirm (txid : String)

namespace PayState

variable (S : Schnorr) (L : TxLib) (s : PayState)

def start (w : ChainWallet) (listed : List EsploraUtxo) : PayState := ⟨w, [], none, [listed], []⟩

/-- The state of the address now. -/
def current : List EsploraUtxo := s.moments.headD []

/-- `pay`: an HTLC call for what is no taproot address is refused before it is queued. -/
def pay : PayCall → PayState
  | .fundHtlc args =>
    match L.decode s.wallet.chain s.wallet.net args.to with
    | some destination => if destination.isTaproot then { s with queue := s.queue ++ [args] } else s
    | none => s
  | .send args => { s with queue := s.queue ++ [args] }

/-- The running payment has settled, well or not. -/
def settle : PayState := { s with queue := s.queue.tail, built := none }

/-- The running payment reads a listing. -/
def read (listed : List EsploraUtxo) : PayState :=
  match s.queue, s.built with
  | args :: _, none =>
    match s.wallet.payNow S L args listed with
    | (w, .ok tx) => { s with wallet := w, built := some tx }
    | (w, .error _) => { s with wallet := w }.settle
  | _, _ => s

/-- The outputs of `tx` that pay the wallet. -/
def ownOutputs (tx : BuiltTx) : List EsploraUtxo :=
  (if tx.outScript = s.wallet.script then [⟨L.txid tx, 0, tx.amount.toNat, false⟩] else []) ++
    (match tx.change with
    | some c => [⟨L.txid tx, 1, c.toNat, false⟩]
    | none => [])

/-- A transaction an explorer took: its inputs leave the address, its change reaches it. -/
def accept (tx : BuiltTx) : PayState :=
  { s with
    wallet := s.wallet.broadcasted (L.txid tx) tx
    paid := s.paid ++ [tx]
    moments :=
      (s.current.filter (fun u => !decide (u.outpoint ∈ tx.inputs.map EsploraUtxo.outpoint)) ++
        s.ownOutputs L tx) :: s.moments }

def step : PayEvent → PayState
  | .call c => s.pay L c
  | .listing age =>
    match age with
    | none => if s.built.isNone then s.settle else s
    | some age =>
      match s.moments[age]? with
      | some listed => s.read S L listed
      | none => s
  | .broadcast answer =>
    match s.built with
    | some tx => if answer = some (L.txid tx) then (s.accept L tx).settle else s.settle
    | none => s
  | .deposit u =>
    if u.outpoint ∈ s.moments.flatten.map EsploraUtxo.outpoint then s
    else { s with moments := (s.current ++ [u]) :: s.moments }
  | .confirm txid =>
    { s with
      moments := s.current.map (fun u => if u.txid = txid then { u with confirmed := true } else u) ::
        s.moments }

end PayState

end Gavl
