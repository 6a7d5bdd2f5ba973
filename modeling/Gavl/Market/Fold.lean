import Gavl.Chain.Writer
import Gavl.Det.Number
import Gavl.Market.State

/-!
# The order-board fold

Certified writes and the anchor clock to a view. A write certified at height `h` first moves
the state to `h`, then applies.
-/

namespace Gavl

/-! ## Protocol constants -/

/-- Anchor target spacing, seconds. -/
def anchorSeconds : ℕ := 60

/-- Anchors after the take during which both sides must post a proof. -/
def proofWindow : ℕ := 10

/-- Anchors the taker gets to lock once proofs are in. -/
def takerLockWindow : ℕ := 30

/-- Slack on top of the taker's refund window before a match record is dropped. -/
def pruneMargin : ℕ := 720

/-- A chain's refund window in anchors, rounded up. -/
def refundAnchors (chain : Chain) (role : SwapRole) : ℕ :=
  (defaultRefundBlocks chain role * (networks chain).blockSeconds + (anchorSeconds - 1))
    / anchorSeconds

/-- Anchors a match record lives after its take. -/
def matchLifetime (takerChain : Chain) : ℕ :=
  proofWindow + takerLockWindow + refundAnchors takerChain .initiator + pruneMargin

/-- The shape of every HTLC output. -/
def p2trScript : Bytes := 0x51 :: 0x20 :: List.replicate 32 0

/-- Smallest HTLC output the chain relays. -/
def dust (chain : Chain) : ℕ := dustThreshold (networks chain) p2trScript

/-- The want-leg owed for a fill. -/
def proRata (give want fill : ℕ) : ℕ := fill * want / give

/-! ## Advancing the clock -/

def restoreCapacity (view : View) (m : Match) : View :=
  match view.offers.get? m.offerId with
  | none => view
  | some offer =>
    { view with
      offers := view.offers.set m.offerId { offer with remaining := offer.remaining + m.makerAmount } }

/-- Whether the proof deadline passed. -/
def Match.timedOut (m : Match) (h : ℤ) : Bool :=
  decide (m.status = .awaitingProofs) && decide (m.proofDeadline < h)

/-- The match once its deadline is seen to have passed: stamped with the deadline, not with the
height it was observed at. -/
def Match.expire (m : Match) (h : ℤ) : Match :=
  if m.timedOut h then
    { m with status := .cancelled, cancelled := some ⟨m.proofDeadline + 1, .noProof⟩ }
  else m

/-- Cancel a match whose deadline passed and give its capacity back. -/
def expireMatch (h : ℤ) (view : View) (e : String × Match) : View :=
  if e.2.timedOut h then
    restoreCapacity { view with «matches» := view.matches.set e.1 (e.2.expire h) } e.2
  else view

/-- One round of the loop over the matches. -/
def advanceMatch (h : ℤ) (view : View) (e : String × Match) : View :=
  if e.2.pruneAt ≤ h then
    { expireMatch h view e with «matches» := (expireMatch h view e).matches.delete e.1 }
  else expireMatch h view e

/-- One round of the loop over the offers. -/
def advanceOffer (h : ℤ) (view : View) (e : String × Offer) : View :=
  if e.2.expiresAt ≤ h then { view with offers := view.offers.delete e.1 } else view

/-- Move the state to height `h`. -/
def advance (view : View) (h : ℤ) : View :=
  let view := view.matches.entries.foldl (advanceMatch h) view
  view.offers.entries.foldl (advanceOffer h) view

/-! ## Applying an op -/

def applyOfferPost (view : View) (w : Write) (give want : Leg) (minFill expiresIn : ℕ) (h : ℤ) :
    View × Option String :=
  if give.amount < dust give.chain ∨ want.amount < dust want.chain then
    (view, some "an offer leg is below the dust floor")
  else if minFill < dust give.chain ∨ proRata give.amount want.amount minFill < dust want.chain then
    (view, some "minFill would allow a dust leg")
  else if view.offers.has w.id then (view, some "duplicate offer id")
  else
    ({ view with
        offers := view.offers.set w.id
          ⟨w.id, w.writer, give, want, minFill, give.amount, h, h + expiresIn⟩ }, none)

def applyOfferCancel (view : View) (w : Write) (offerId : String) : View × Option String :=
  match view.offers.get? offerId with
  | none => (view, some "no such offer")
  | some offer =>
    if offer.maker ≠ w.writer then (view, some "only the maker may cancel an offer")
    -- open matches keep their reserved fill
    else ({ view with offers := view.offers.delete offerId }, none)

def applyOfferTake (view : View) (w : Write) (offerId : String) (fill : ℕ) (hash takerKey : String)
    (h : ℤ) : View × Option String :=
  match view.offers.get? offerId with
  | none => (view, some "no such offer")
  | some offer =>
    let takerAmount := proRata offer.give.amount offer.want.amount fill
    if offer.maker = w.writer then (view, some "a maker cannot take its own offer")
    else if fill < offer.minFill then (view, some "fill is below the offer's minimum")
    else if offer.remaining < fill then
      (view, some "fill exceeds the offer's remaining capacity")
    else if fill < dust offer.give.chain ∨ takerAmount < dust offer.want.chain then
      (view, some "fill makes a dust leg")
    else if view.matches.has w.id then (view, some "duplicate match id")
    else if view.matches.values.any (fun m => decide (m.hash = hash)) then
      (view, some "hash already used by another match")
    else
      ({ offers := view.offers.set offerId { offer with remaining := offer.remaining - fill }
         «matches» := view.matches.set w.id
          { id := w.id
            offerId := offer.id
            maker := offer.maker
            taker := w.writer
            takeSeq := w.seq
            makerChain := offer.give.chain
            makerAmount := fill
            makerRefundBlocks := defaultRefundBlocks offer.give.chain .counterparty
            takerChain := offer.want.chain
            takerAmount := takerAmount
            takerRefundBlocks := defaultRefundBlocks offer.want.chain .initiator
            hash := hash
            takerKey := takerKey
            makerKey := none
            status := .awaitingProofs
            takenAt := h
            proofDeadline := h + proofWindow
            pruneAt := h + matchLifetime offer.want.chain
            makerProof := none
            takerProof := none
            makerLock := none
            takerLock := none
            cancelled := none } }, none)

/-- Once both proofs are in, the match is in escrow. -/
def Match.escrowed (m : Match) : Match :=
  if m.makerProof.isSome && m.takerProof.isSome then { m with status := .escrow } else m

def applySwapProof (view : View) (w : Write) (matchId : String) (makerKey : Option String)
    (proof : FundsProof) (h : ℤ) : View × Option String :=
  match view.matches.get? matchId with
  | none => (view, some "no such match")
  | some m =>
    if m.status ≠ .awaitingProofs ∨ m.proofDeadline < h then
      (view, some "match is not awaiting proofs")
    else if w.writer = m.maker then
      if m.makerProof.isSome then (view, some "maker already posted a proof")
      else if makerKey = none then (view, some "the maker's proof must carry makerKey")
      else if makerKey = some m.takerKey then (view, some "makerKey equals takerKey")
      else if proof.chain ≠ m.makerChain then (view, some "proof is for the wrong chain")
      else
        ({ view with
            «matches» := view.matches.set matchId
              { m with makerProof := some proof, makerKey := makerKey }.escrowed }, none)
    else if w.writer = m.taker then
      if m.takerProof.isSome then (view, some "taker already posted a proof")
      else if makerKey ≠ none then (view, some "only the maker's proof carries makerKey")
      else if proof.chain ≠ m.takerChain then (view, some "proof is for the wrong chain")
      else
        ({ view with
            «matches» := view.matches.set matchId
              { m with takerProof := some proof }.escrowed }, none)
    else (view, some "not a party to the match")

def applySwapLocked (view : View) (w : Write) (matchId txid : String) (vout : ℕ) (h : ℤ) :
    View × Option String :=
  match view.matches.get? matchId with
  | none => (view, some "no such match")
  | some m =>
    if m.status ≠ .escrow then (view, some "match is not in escrow")
    else if w.writer = m.maker then
      if m.makerLock.isSome then (view, some "maker lock already recorded")
      else
        ({ view with
            «matches» := view.matches.set matchId { m with makerLock := some ⟨txid, vout, h⟩ } },
          none)
    else if w.writer = m.taker then
      if m.takerLock.isSome then (view, some "taker lock already recorded")
      else
        ({ view with
            «matches» := view.matches.set matchId { m with takerLock := some ⟨txid, vout, h⟩ } },
          none)
    else (view, some "not a party to the match")

def applySwapAbort (view : View) (w : Write) (matchId : String) (h : ℤ) : View × Option String :=
  match view.matches.get? matchId with
  | none => (view, some "no such match")
  | some m =>
    if w.writer ≠ m.maker then (view, some "only the maker may abort")
    else if m.status = .cancelled then (view, some "match already cancelled")
    else if m.makerLock.isSome then (view, some "maker already locked")
    else
      (restoreCapacity
        { view with
          «matches» := view.matches.set matchId
            { m with status := .cancelled, cancelled := some ⟨h, .abort⟩ } } m, none)

/-- Apply one op authored by `w` at certifying height `h`, with the reason when it is
rejected. -/
def applyOp (view : View) (w : Write) (op : Op) (h : ℤ) : View × Option String :=
  match op with
  | .offerPost give want minFill expiresIn => applyOfferPost view w give want minFill expiresIn h
  | .offerCancel offerId => applyOfferCancel view w offerId
  | .offerTake offerId fill hash takerKey => applyOfferTake view w offerId fill hash takerKey h
  | .swapProof matchId makerKey proof => applySwapProof view w matchId makerKey proof h
  | .swapLocked matchId txid vout => applySwapLocked view w matchId txid vout h
  | .swapAbort matchId => applySwapAbort view w matchId h

/-! ## Folds -/

/-- Negative: the first comes first; zero: as they came. -/
abbrev WriteOrder := Write → Write → ℤ

/-- `byTs`: by stamp, writer and sequence number. -/
def byTs : WriteOrder := fun a b =>
  if Json.minus a.ts b.ts ≠ 0 then Json.minus a.ts b.ts
  else if a.writer < b.writer then -1
  else if b.writer < a.writer then 1
  else (a.seq : ℤ) - b.seq

structure FoldOptions where
  /-- Order within one certifying height. -/
  order : WriteOrder
  /-- Write id to certifying height. -/
  bornAt : OrderedMap String ℤ
  /-- Resume from this state. -/
  base : Option View

/-- Certifying height of a write; one without folds at `nowHeight`. -/
def heightOf (bornAt : OrderedMap String ℤ) (nowHeight : ℤ) (w : Write) : ℤ :=
  min ((bornAt.get? w.id).getD nowHeight) nowHeight

/-- `heightOf(a) - heightOf(b) || order(a, b)`. -/
def foldOrder (opts : FoldOptions) (nowHeight : ℤ) : WriteOrder := fun a b =>
  if heightOf opts.bornAt nowHeight a - heightOf opts.bornAt nowHeight b ≠ 0 then
    heightOf opts.bornAt nowHeight a - heightOf opts.bornAt nowHeight b
  else opts.order a b

/-- A stable sort by a comparator. -/
def sortWrites (cmp : WriteOrder) (writes : List Write) : List Write :=
  writes.insertionSort (fun a b => cmp a b ≤ 0)

/-- Fold one write at height `h`. -/
def foldWrite (K : Curve) (view : View) (w : Write) (h : ℤ) : View :=
  let view := advance view h
  match parseOp K w.payload with
  | none => view
  | some op => (applyOp view w op h).1

/-- Fold `writes` onto the base, ending advanced to `nowHeight`. -/
def computeView (K : Curve) (writes : List Write) (nowHeight : ℤ) (opts : FoldOptions) : View :=
  let view := (sortWrites (foldOrder opts nowHeight) writes).foldl
    (fun view w => foldWrite K view w (heightOf opts.bornAt nowHeight w)) (opts.base.getD emptyView)
  advance view nowHeight

end Gavl
