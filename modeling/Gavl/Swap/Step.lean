import Gavl.Swap.Engine

/-!
# One tick of a side

`stepTaker` and `stepMaker`, cut at their early returns: what happens before the side has locked,
the claim of the counterparty's HTLC, the refund, and the stage that comes out.
-/

namespace Gavl

/-- The taker's swap id. -/
def takeSwapId (offerId takerPub : String) (takeSeq : ℕ) : String :=
  s!"{offerId}:{takerPub}:{takeSeq}"

/-- `Math.round(secs / 60)`. -/
def roundMinutes (secs : ℤ) : ℤ := (secs + 30) / 60

namespace Tick

variable (E : Engine) (c : Ctx) (r : Reads) (k : Tick)

/-- Tell the board of my lock, once. -/
def postLocked (hint : Option LockHint) : Tick :=
  match k.side.myLock with
  | some lock =>
    if c.hasStatus .escrow && hint.isNone && !k.side.lockPosted then k.postOp c (.locked lock) else k
  | none => k

/-- The recorded output of the counterparty, else one that pays exactly what is owed. -/
def theirOut (outs : List HtlcOut) (amount : ℕ) (unspentOnly : Bool) : Option HtlcOut :=
  match k.side.theirLock with
  | some lock => outs.find? (fun o => decide (o.outpoint = lock))
  | none => pickExact outs amount unspentOnly

/-- My lock as the scan shows it. -/
def myOut (outs : List HtlcOut) : Option HtlcOut :=
  k.side.myLock.bind (fun lock => outs.find? (fun o => decide (o.outpoint = lock)))

/-- Build the claim, save it, broadcast it. -/
def sendClaim (chain : Chain) (params : HtlcParams) (secret key : Bytes) (o : HtlcOut) : Flow Tick :=
  match buildClaimTx E.lib ⟨o.txid, o.vout, o.value⟩ params (spendTo E c chain) secret key with
  | .error err => k.throw err
  | .ok spend =>
    let tx : RawTx := ⟨spend.txid, spend.hex⟩
    -- before the broadcast: a crash right after still knows the claim, and sends it again
    let k := Tick.save (k.set { k.side with claim := some tx })
    .ok (k.broadcast r.claimSent .claim chain tx)

/-- The claim is on the chain. -/
def claimConfirmed (theirOut : Option HtlcOut) : Bool :=
  match k.side.claim, theirOut.bind HtlcOut.spend with
  | some claim, some spend => decide (spend.txid = claim.txid) && spend.height.isSome
  | _, _ => false

/-- Someone else spent what the claim spends. -/
def claimLost (theirOut : Option HtlcOut) : Bool :=
  match k.side.claim, theirOut.bind HtlcOut.spend with
  | some claim, some spend => decide (spend.txid ≠ claim.txid)
  | _, _ => false

def refundConfirmed (myOut : Option HtlcOut) : Bool :=
  match k.side.refund, myOut.bind HtlcOut.spend with
  | some refund, some spend => decide (spend.txid = refund.txid) && spend.height.isSome
  | _, _ => false

/-- A spend of my HTLC that is not my refund. -/
def counterClaim (myOut : Option HtlcOut) : Option HtlcSpend :=
  (myOut.bind HtlcOut.spend).filter (fun spend =>
    decide (k.side.refund.map RawTx.txid ≠ some spend.txid))

/-! ## Taker -/

/-- Post my proof while it is missing, check the maker's while I have not locked. -/
def takerProofs : Tick :=
  let k :=
    if c.hasStatus .awaitingProofs && (c.m.bind Match.takerProof).isNone then
      k.postProof E c c.terms.takerChain c.terms.takerAmount none
    else k
  match c.m.bind Match.makerProof with
  | some proof =>
    if k.side.theirProof.isNone && k.side.myLock.isNone then
      k.verifyProof E c r proof c.terms.makerChain c.terms.makerAmount
    else k
  | none => k

/-- Without a lock: wait, give up, or fund one. -/
def takerLock (mine : Scan) : Flow Tick :=
  if k.side.myLock.isSome then .ok k
  else if c.gone then
    .error (k.finish .cancelled (some (match c.cancelReason with
      | some .abort => "the maker aborted"
      | some .noProof => "proofs of funds missed the deadline"
      | none => "match gone")))
  else
    match c.m, c.h with
    | some m, some h =>
      if m.status = .awaitingProofs then .error (k.setStage .proofs)
      else
        let k := k.setStage .waitingTakerLock
        match k.side.theirProof with
        | none =>
          .error (k.setNote (k.side.note.or (some "verifying the maker's proof of funds")))
        | some (.bad reason) =>
          .error (k.finish .failed
            (some s!"not locking: the maker's proof of funds is invalid ({reason})"))
        | some .ok =>
          if c.lockDeadline - E.policy.lockMarginAnchors < h then
            .error (k.finish .cancelled (some "the lock window closed before we locked"))
          else if E.mode = .nolock then
            .error (k.setNote (some "HTLC funding disabled (GAVL_SWAP_ENGINE=nolock)"))
          else k.lock r c.terms.takerChain mine.address c.terms.takerAmount
    | _, _ => .error k

/-- Whether a lock so many blocks old leaves too little of its refund window to reveal the secret. -/
def tooLate (confs : ℕ) : Bool :=
  decide (c.terms.makerRefundBlocks - claimSafetyBlocks c.terms.makerRefundBlocks < confs)

/-- An unspent output of the maker that is confirmed well enough to act on. -/
def claimable (theirOut : Option HtlcOut) (tip : ℕ) : Option HtlcOut :=
  theirOut.filter (fun o => o.spend.isNone &&
    decide (E.policy.confirmations c.terms.makerChain ≤ confsOf o.height tip))

/-- Claim the maker's HTLC, which reveals the secret, or send the saved claim again. -/
def takerClaim (params : HtlcParams) (secret key : Bytes) (theirOut : Option HtlcOut) (tip : ℕ) :
    Flow Tick :=
  match k.side.claim with
  | some tx =>
    match theirOut with
    | some o =>
      -- dropped from the mempool
      if o.spend.isNone then .ok (k.broadcast r.claimSent .claim c.terms.makerChain tx) else .ok k
    | none => .ok k
  | none =>
    match claimable E c theirOut tip with
    | none => .ok k
    | some o =>
      if tooLate c (confsOf o.height tip) then
        .ok (k.setNote (some (s!"the maker's lock is {confsOf o.height tip}/"
          ++ s!"{c.terms.makerRefundBlocks} blocks into its refund window — not revealing the secret")))
      else
        sendClaim E c r (k.set { k.side with theirLock := some o.outpoint }) c.terms.makerChain params
          secret key o

/-- The stage a locked taker is left in. -/
def takerStage (theirOut myOut : Option HtlcOut) (wrong late : Bool) : Tick :=
  let confirmed := k.claimConfirmed theirOut
  let lost := k.claimLost theirOut
  let refunded := k.refundConfirmed myOut
  if confirmed && ((k.counterClaim myOut).isSome || refunded) then
    k.finish .done
      (if refunded then some "the maker never claimed our lock; it was refunded" else none)
  else if refunded then k.finish .refunded k.side.note
  else if k.side.claim.isSome && !confirmed && !lost then k.setStage .claiming
  else if confirmed then k.setStage .waitingCounterClaim
  else if k.side.refund.isSome then k.setStage .refundPending
  else if lost then k.refundLater "the maker refunded its HTLC before our claim confirmed"
  else if c.gone || wrong || late || (theirOut.bind HtlcOut.spend).isSome then
    k.refundLater (k.side.note.getD "the maker will not lock; refund after our timelock")
  else k.setStage .waitingMakerLock

/-- A locked taker. -/
def takerLocked (mine : Scan) (mineP theirP : HtlcParams) (secret key : Bytes) : Flow Tick :=
  let k := postLocked c k (c.m.bind Match.takerLock)
  let myOut := myOut k mine.outs
  match scan E.lib c.terms.makerChain (E.net c.terms.makerChain) theirP r.theirs with
  | .error err => k.throw err
  | .ok theirs => do
    let theirOut := theirOut k theirs.outs c.terms.makerAmount false
    let wrong :=
      if theirOut.isNone then
        theirs.outs.find? (fun o => o.spend.isNone && decide (o.value ≠ c.terms.makerAmount))
      else none
    let k := k.setNote (wrong.map (fun o => s!"the maker's HTLC holds {o.value}, expected exactly "
      ++ s!"{c.terms.makerAmount} — not claiming"))
    let late := k.side.claim.isNone &&
      ((claimable E c theirOut theirs.tip).map (fun o => tooLate c (confsOf o.height theirs.tip))).getD
        false
    let k ← takerClaim E c r k theirP secret key theirOut theirs.tip
    let k ← k.maybeRefund E c r c.terms.takerChain mineP myOut mine.tip key
    return takerStage c k theirOut myOut wrong.isSome late

def stepTaker : Tick :=
  let t := c.terms
  let swapId := takeSwapId t.offerId t.taker t.takeSeq
  let secret := E.lib.swapSecret c.seed swapId
  let key := E.lib.swapKey c.seed swapId t.takerChain .taker
  if E.lib.hashOf secret ≠ c.hash ∨ toHex (E.lib.xOnly key) ≠ t.takerKey then
    k.finish .failed (some "the take's hash / takerKey don't derive from this identity's seed")
  else if k.side.stage.terminal && k.side.myLock.isNone then k
  else
    let k := takerProofs E c r k
    match t.makerKey with
    | none =>
      -- the maker has not proven funds, so neither HTLC exists yet
      if c.gone then
        k.finish .cancelled (some (if c.cancelReason = some .noProof then
          "the maker never proved funds" else "match cancelled"))
      else k.setStage .proofs
    | some makerKey =>
      let mineP : HtlcParams := ⟨c.hash, fromHex makerKey, fromHex t.takerKey, t.takerRefundBlocks⟩
      let theirP : HtlcParams := ⟨c.hash, fromHex t.takerKey, fromHex makerKey, t.makerRefundBlocks⟩
      Flow.tick (match scan E.lib t.takerChain (E.net t.takerChain) mineP r.mine with
        | .error err => k.throw err
        | .ok mine => do
          let k ← takerLock E c r (k.adopt mine t.takerAmount) mine
          takerLocked E c r k mine mineP theirP secret key)

/-! ## Maker -/

/-- Post my proof while it is missing, check the taker's early. -/
def makerProofs (myKey : String) : Tick :=
  let k :=
    if c.hasStatus .awaitingProofs && (c.m.bind Match.makerProof).isNone then
      k.postProof E c c.terms.makerChain c.terms.makerAmount (some myKey)
    else k
  match c.m.bind Match.takerProof with
  | some proof =>
    if k.side.myLock.isNone && c.hasStatus .awaitingProofs && k.side.theirProof.isNone then
      k.verifyProof E c r proof c.terms.takerChain c.terms.takerAmount
    else k
  | none => k

/-- The taker's unspent lock, looked for again when its proof turns out bad. -/
def findTakerLock (m : Match) (theirP : HtlcParams) : Flow (Tick × Scan × Option HtlcOut) :=
  match scan E.lib c.terms.takerChain (E.net c.terms.takerChain) theirP r.theirsBefore with
  | .error err => k.throw err
  | .ok theirs =>
    match pickExact theirs.outs c.terms.takerAmount true with
    | some o => .ok (k, theirs, some o)
    | none =>
      if (pickExact theirs.outs c.terms.takerAmount false).isSome then
        .error (k.abort c "the taker's lock is already spent (refunded)")
      else
        match m.takerProof, k.side.theirProof with
        | some proof, none =>
          let k := k.verifyProof E c r proof c.terms.takerChain c.terms.takerAmount
          match k.side.theirProof with
          | some (.bad _) =>
            -- it may have locked meanwhile, which spends its proof
            match scan E.lib c.terms.takerChain (E.net c.terms.takerChain) theirP r.theirsAgain with
            | .error err => k.throw err
            | .ok theirs => .ok (k, theirs, pickExact theirs.outs c.terms.takerAmount true)
          | _ => .ok (k, theirs, none)
        | _, _ => .ok (k, theirs, none)

/-- No lock of the taker is there to lock against. -/
def noTakerLock (h : ℤ) (theirs : Scan) : Tick :=
  let wrong := theirs.outs.find? (fun o => o.spend.isNone && decide (o.value ≠ c.terms.takerAmount))
  let k := match wrong with
    | some o => k.setNote (some (s!"the taker's HTLC holds {o.value}, expected exactly "
        ++ s!"{c.terms.takerAmount} — not locking"))
    | none => k
  match k.side.theirProof with
  | some (.bad reason) =>
    k.abort c s!"the taker's proof of funds is invalid ({reason}) and no lock was seen"
  | _ =>
    if c.lockDeadline < h then k.abort c "the taker never locked within the lock window" else k

/-- Seconds until the taker's refund opens, at its chain's target spacing. -/
def theirRefundSecs (theirOut : HtlcOut) (tip : ℕ) : ℤ :=
  ((theirOut.height.getD 0 : ℤ) + c.terms.takerRefundBlocks - tip) *
    (networks c.terms.takerChain).blockSeconds

/-- Seconds the taker's refund must be away for me to lock. -/
def needSecs : ℤ :=
  (c.terms.makerRefundBlocks + 1) * (networks c.terms.makerChain).blockSeconds +
    E.policy.windowMarginSecs

/-- Against the taker's lock: wait for its confirmations, refuse a short window, or fund mine. -/
def lockAgainst (h : ℤ) (mine theirs : Scan) (theirOut : HtlcOut) : Flow Tick :=
  let confs := confsOf theirOut.height theirs.tip
  let need := E.policy.confirmations c.terms.takerChain
  if confs < need then
    let k := k.setNote (some s!"the taker's lock has {confs}/{need} confirmations")
    .error (if c.lockDeadline + takerLockWindow < h then k.abort c "the taker's lock never confirmed"
      else k)
  else if theirRefundSecs c theirOut theirs.tip < needSecs E c then
    .error (k.abort c (s!"refusing to lock: the taker's refund opens in "
      ++ s!"~{roundMinutes (theirRefundSecs c theirOut theirs.tip)} min, "
      ++ s!"need ≥ {roundMinutes (needSecs E c)} min"))
  else
    let k := k.set
      { k.side with stage := .waitingMakerLock, theirLock := some theirOut.outpoint, note := none }
    if E.mode = .nolock then
      .error (k.setNote (some "HTLC funding disabled (GAVL_SWAP_ENGINE=nolock)"))
    else k.lock r c.terms.makerChain mine.address c.terms.makerAmount

/-- Without a lock: wait, give up, abort, or fund one. -/
def makerLock (mine : Scan) (theirP : HtlcParams) : Flow Tick :=
  if k.side.myLock.isSome then .ok k
  else if c.gone then
    .error (k.finish .cancelled (k.side.abort.or (some (if c.cancelReason = some .noProof then
      "proofs of funds missed the deadline" else "match cancelled"))))
  else
    match c.m, c.h with
    | some m, some h =>
      if m.status = .awaitingProofs then .error (k.setStage .proofs)
      else
        match k.side.abort with
        | some reason => .error (k.abort c reason)
        | none => do
          let (k, theirs, theirOut) ← findTakerLock E c r (k.setStage .waitingTakerLock) m theirP
          match theirOut with
          | none => .error (noTakerLock c k h theirs)
          | some o => lockAgainst E c r k h mine theirs o
    | _, _ => .error k

/-- The secret a spend of my HTLC reveals, in what the scan shows of it or in the transaction. -/
def learnSecret (spend : Option HtlcSpend) : Flow (Option Bytes) :=
  match spend with
  | none => .ok none
  | some spend =>
    match secretFromWitness E.lib.crypto spend.witness c.hash with
    | some secret => .ok (some secret)
    | none =>
      match r.getTx with
      | .error err => k.throw err
      | .ok tx => .ok ((tx.map EsploraTx.vin).getD [] |>.findSome? (fun vin =>
          secretFromWitness E.lib.crypto vin.witness c.hash))

/-- Claim the taker's HTLC with the secret, or send the saved claim again. -/
def makerClaim (params : HtlcParams) (secret : Option Bytes) (key : Bytes)
    (theirOut : Option HtlcOut) : Flow Tick :=
  match theirOut with
  | none => .ok k
  | some o =>
    if o.spend.isSome then .ok k
    else
      match k.side.claim, secret with
      | some tx, _ => .ok (k.broadcast r.claimSent .claim c.terms.takerChain tx)
      | none, some secret => sendClaim E c r k c.terms.takerChain params secret key o
      | none, none => .ok k

/-- The stage a locked maker is left in. -/
def makerStage (theirOut myOut : Option HtlcOut) (counterClaimed learned : Bool) : Tick :=
  if k.claimConfirmed theirOut then k.finish .done none
  else if k.claimLost theirOut then
    k.finish .failed (some "the taker refunded its HTLC before our claim confirmed")
  else if k.side.claim.isSome then k.setStage .claiming
  else if k.refundConfirmed myOut then
    k.finish .refunded (some "the taker never claimed; our lock was refunded")
  else if k.side.refund.isSome then k.setStage .refundPending
  else if counterClaimed && !learned then
    k.refundLater "our HTLC was spent without revealing the secret"
  else if counterClaimed then
    k.finish .claiming (some (if (theirOut.bind HtlcOut.spend).isSome then
      "the taker's HTLC is already spent — cannot claim"
      else "secret learned; waiting to see the taker's HTLC"))
  else k.setStage .waitingCounterClaim

/-- A locked maker. -/
def makerLocked (mine : Scan) (mineP theirP : HtlcParams) (key : Bytes) : Flow Tick :=
  let k := postLocked c k (c.m.bind Match.makerLock)
  let myOut := myOut k mine.outs
  match scan E.lib c.terms.takerChain (E.net c.terms.takerChain) theirP r.theirs with
  | .error err => k.throw err
  | .ok theirs => do
    let theirOut := theirOut k theirs.outs c.terms.takerAmount true
    let k := k.set { k.side with theirLock := k.side.theirLock.or (theirOut.map HtlcOut.outpoint) }
    let counter := k.counterClaim myOut
    let secret ← learnSecret E c r k counter
    let k ← makerClaim E c r k theirP secret key theirOut
    let k ← k.maybeRefund E c r c.terms.makerChain mineP myOut mine.tip key
    return makerStage k theirOut myOut counter.isSome secret.isSome

def stepMaker : Tick :=
  let t := c.terms
  let key := E.lib.swapKey c.seed c.matchId t.makerChain .maker
  let myKey := toHex (E.lib.xOnly key)
  if t.makerKey.isSome && t.makerKey ≠ some myKey then
    k.finish .failed (some "the board's makerKey doesn't derive from this identity's seed")
  else if k.side.stage.terminal && k.side.myLock.isNone then k
  else
    let mineP : HtlcParams := ⟨c.hash, fromHex t.takerKey, fromHex myKey, t.makerRefundBlocks⟩
    let theirP : HtlcParams := ⟨c.hash, fromHex myKey, fromHex t.takerKey, t.takerRefundBlocks⟩
    let k := makerProofs E c r k myKey
    Flow.tick (match scan E.lib t.makerChain (E.net t.makerChain) mineP r.mine with
      | .error err => k.throw err
      | .ok mine => do
        let k ← makerLock E c r (k.adopt mine t.makerAmount) mine theirP
        makerLocked E c r k mine mineP theirP key)

/-- One step of a side. -/
def step : Tick :=
  match k.side.role with
  | .taker => stepTaker E c r k
  | .maker => stepMaker E c r k

end Tick

end Gavl
