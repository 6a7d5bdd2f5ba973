import Gavl.Daemon
import Gavl.Lib.Runs

/-!
# The gossip node

What a node does with each message, with its queue of anchor batches and with what is produced
locally. A step runs to the next `await`: the steps of the queue, of the handlers and of local
producers interleave in any order.
-/

namespace Gavl

/-- Cap on buffered orphan anchors. -/
def orphanCap : ℕ := 50000

namespace Daemon

variable {V : Type} (cfg : DaemonConfig V) (d : Daemon V)

/-! ## Peers -/

/-- Wire up a connection and greet it. -/
def addPeer (conn : Conn) : Daemon V :=
  let d := { d with conns := if conn ∈ d.conns then d.conns else d.conns ++ [conn] }
  let d := d.send conn (d.hello cfg)
  let d := match d.anchorTipMsg with
    | none => d
    | some tip => d.send conn tip
  match d.lastSnapshot with
  | none => d
  | some snap =>
    (d.send conn (.snapshotOffer ⟨snap.anchorId, snap.height⟩)).send conn
      (.snapshotHave ⟨snap.anchorId, snap.height⟩)

/-- The connection closed: its vote no longer counts. -/
def close (conn : Conn) : Daemon V :=
  { d with
    conns := d.conns.filter (fun c => decide (c ≠ conn))
    snapshotOffers := d.snapshotOffers.delete conn }

/-! ## Writes -/

/-- What to pull from a peer with these heads: all of an unknown writer, the rest of one that is
ahead, and a seq on which ids differ, to expose the fork. -/
def diffWant (theirs : Heads) : OrderedMap String ℕ :=
  theirs.entries.foldl (fun want e =>
    match d.ledger.heads.get? e.1 with
    | none => want.set e.1 0
    | some mine =>
      if mine.seq < e.2.seq then want.set e.1 (mine.seq + 1)
      else if d.ledger.idAt e.1 e.2.seq ≠ some e.2.id then want.set e.1 e.2.seq
      else want) ∅

/-- Some write is held here that a peer with these heads lacks. -/
def aheadOf (theirs : Heads) : Bool :=
  d.ledger.heads.entries.any (fun e =>
    match theirs.get? e.1 with
    | none => true
    | some their => decide (their.seq < e.2.seq))

def onHello (conn : Conn) (heads : Heads) : Daemon V :=
  if (d.diffWant heads).size ≠ 0 then d.send conn (.want (d.diffWant heads))
  else if d.aheadOf heads then d.send conn (d.hello cfg)
  else d

def onWant (conn : Conn) (fromSeq : OrderedMap String ℕ) : Daemon V :=
  let writes := fromSeq.entries.flatMap (fun e => d.ledger.writesFrom e.1 e.2)
  if writes.isEmpty then d else d.send conn (.writes writes)

def onWrites (conn : Conn) (writes : List Write) : Daemon V :=
  match d.ledger.applyAll cfg.chain.crypto cfg.chain.params false writes with
  | (ledger, none) => { d with ledger := ledger }
  | (ledger, some (learned, changed)) =>
    let d := { d with ledger := ledger }
    let d := if learned.isEmpty then d else d.broadcastExcept conn (.announce learned)
    if changed then d.send conn (d.hello cfg) else d

/-- Apply a locally produced write and gossip it. -/
def submit (w : Write) : Daemon V :=
  match d.ledger.apply cfg.chain.crypto cfg.chain.params false w with
  | (ledger, .applied applied _) =>
    let d := { d with ledger := ledger }
    if applied.isEmpty then d else d.broadcast (.announce applied)
  | (ledger, _) => { d with ledger := ledger }

/-! ## Checkpoints -/

def recordOffer (conn : Conn) (offer : SnapshotOffer) : Daemon V :=
  { d with snapshotOffers := d.snapshotOffers.set conn offer }

def onSnapshotOffer (conn : Conn) (offer : SnapshotOffer) : Daemon V :=
  let d := d.recordOffer conn offer
  if d.wantSnapshot offer && d.snapshotQuorumMet cfg offer.anchorId then d.send conn .snapshotWant
  else d

def onSnapshotWant (conn : Conn) : Daemon V :=
  match d.lastSnapshot with
  | none => d
  | some snap => d.send conn (.snapshot snap)

/-- A full checkpoint is a vouch as well. What cannot be seeded directly may let a floor be
adopted beneath the buffered suffix. -/
def onSnapshot (conn : Conn) (snap : StoredSnapshot) : Daemon V :=
  match (d.recordOffer conn ⟨snap.anchorId, snap.height⟩).ingestSnapshot cfg snap with
  | (d, true) => d.advertise cfg
  | (d, false) => { d with anchorQueue := d.anchorQueue ++ [.bootstrap] }

/-! ## Anchors -/

def onAnchorTip (conn : Conn) (height weight : ℕ) (id : String) : Daemon V :=
  if (d.anchors.get id).isSome then d
  else
    match d.anchors.tip with
    | none =>
      let d := d.send conn (.anchorWant 0)
      if 0 < height then d.send conn .snapshotWant else d
    | some myTip =>
      if weight < myTip.weight then d
      else
        let d := d.send conn (.anchorWant myTip.height)
        if myTip.height = 0 ∧ 0 < height then d.send conn .snapshotWant else d

def onAnchorWant (conn : Conn) (fromHeight : ℕ) : Daemon V :=
  let anchors := d.anchors.tipChain.filter (fun a => decide (fromHeight ≤ a.height))
  if anchors.isEmpty then d else d.send conn (.anchorChain anchors)

/-- In height order, as they came within one height. -/
def byHeight (anchors : List Anchor) : List Anchor :=
  anchors.insertionSort (fun x y => x.height ≤ y.height)

/-- Ask for a trusted floor beneath the buffered suffix; once it is there the suffix is added. -/
def resolveBootstrap : Daemon V :=
  if !d.anchors.fresh || decide (d.orphanAnchors.size = 0) then d
  else
    match d.adoptFloor cfg d.orphanAnchors.values with
    | (d, false) => d
    | (d, true) =>
      { d with anchorQueue := .relink (byHeight d.orphanAnchors.values) :: d.anchorQueue }

/-- Push the own branch from the fork up to a peer whose branch the lock refused. -/
def pushBranch (conn : Conn) (anchors : List Anchor) : Daemon V :=
  let ours := d.anchors.tipChain
  let foreign := anchors.filter (fun a => decide (a.id ∉ ours.map (·.id)))
  d.send conn (.anchorChain
    (ours.filter (fun a => foreign.any (fun x => decide (x.height ≤ a.height)))))

/-- A tip move that a step ends in: the new tip, and the peer that need not hear of it. -/
structure TipMove where
  tip : Anchor
  except : Option Conn

/-- The tip is no longer `before`. -/
def tipMove (before : Option String) (except : Option Conn) : Option TipMove :=
  (d.anchors.tip.filter (fun t => decide (some t.id ≠ before))).map (fun t => ⟨t, except⟩)

/-- A late joiner holding only block 0 is still fresh. -/
def effectivelyFresh (anchors : List Anchor) : Bool :=
  match d.anchors.tip with
  | none => true
  | some t => decide (t.height = 0) && anchors.all (fun a => decide (0 < a.height))

/-- Buffer anchors that link to nothing held. -/
def bufferOrphans (anchors : List Anchor) : Daemon V :=
  if d.orphanAnchors.size < orphanCap then
    { d with orphanAnchors := anchors.foldl (fun m a => m.set a.id a) d.orphanAnchors }
  else d

/-- The tail of `ingestAnchors`, its loop done. -/
def finishIngest (conn : Conn) (anchors : List Anchor) (before : Option String)
    (gap conflict : Bool) : Daemon V × Option TipMove :=
  let d := if conflict then d.pushBranch conn anchors else d
  if gap && d.effectivelyFresh anchors then ((d.bufferOrphans anchors).resolveBootstrap cfg, none)
  else
    let d := if gap then d.send conn (.anchorWant 0) else d
    (d, d.tipMove before (some conn))

/-- The tail of `resolveBootstrap`, its loop done. -/
def finishRelink : Daemon V × Option TipMove :=
  ({ d with orphanAnchors := ∅ }, d.anchors.tip.map (fun t => ⟨t, none⟩))

/-- `this.anchors.add`. -/
def addAnchor (anchor : Anchor) : Daemon V × AddResult :=
  let (anchors, r) := d.anchors.add cfg.chain (d.checkAppRoot cfg) anchor
  ({ d with anchors := anchors }, r)

/-- Run the head of the queue up to its next `await`. A verification that throws ends the entry
it happens in. -/
def work : Daemon V × Option TipMove :=
  match d.anchorQueue with
  | [] => (d, none)
  | .ingest conn anchors :: rest =>
    ({ d with
      anchorQueue :=
        .adding conn anchors (byHeight anchors) (d.anchors.tip.map (·.id)) false false :: rest },
      none)
  | .adding conn anchors (a :: todo) before gap conflict :: rest =>
    match d.addAnchor cfg a with
    | (d, .thrown _) => ({ d with anchorQueue := rest }, none)
    | (d, .ok) =>
      ({ d with anchorQueue := .adding conn anchors todo before gap conflict :: rest }, none)
    | (d, .fail reason) =>
      ({ d with
        anchorQueue :=
          .adding conn anchors todo before (gap || decide (reason = "unknown prev anchor"))
            (conflict || decide (reason = "rejected: conflicts with finalized history")) :: rest },
        none)
  | .adding conn anchors [] before gap conflict :: rest =>
    { d with anchorQueue := rest }.finishIngest cfg conn anchors before gap conflict
  | .bootstrap :: rest => ({ d with anchorQueue := rest }.resolveBootstrap cfg, none)
  | .relink (a :: todo) :: rest =>
    match d.addAnchor cfg a with
    | (d, .thrown _) => ({ d with anchorQueue := rest }, none)
    | (d, _) => ({ d with anchorQueue := .relink todo :: rest }, none)
  | .relink [] :: rest => { d with anchorQueue := rest }.finishRelink

/-- Add a locally produced anchor. -/
def submitAnchor (anchor : Anchor) : Daemon V × Option TipMove :=
  match d.addAnchor cfg anchor with
  | (d', .ok) => (d', d'.tipMove (d.anchors.tip.map (·.id)) none)
  | (d', _) => (d', none)

/-- Act on a new tip and gossip it. -/
def moveTip (m : TipMove) : Daemon V :=
  let msg : SyncMessage := .anchorTip m.tip.height m.tip.weight m.tip.id
  match m.except with
  | none => (d.onTip cfg).broadcast msg
  | some conn => (d.onTip cfg).broadcastExcept conn msg

/-! ## Steps -/

/-- The handler of one message, up to the return of its synchronous part. -/
def handle (conn : Conn) : SyncMessage → Daemon V
  | .hello _ heads _ _ => d.onHello cfg conn heads
  | .want fromSeq => d.onWant conn fromSeq
  | .writes writes => d.onWrites cfg conn writes
  | .announce writes => d.onWrites cfg conn writes
  | .anchorTip height weight id => d.onAnchorTip conn height weight id
  | .anchorWant fromHeight => d.onAnchorWant conn fromHeight
  | .anchorChain anchors => { d with anchorQueue := d.anchorQueue ++ [.ingest conn anchors] }
  | .snapshotOffer offer => d.onSnapshotOffer cfg conn offer
  | .snapshotWant => d.onSnapshotWant conn
  | .snapshot snap => d.onSnapshot cfg conn snap
  -- only counted toward replication, on which nothing depends
  | .snapshotHave _ => d

/-- What can happen to a running daemon. -/
inductive Event where
  | message (conn : Conn) (m : SyncMessage)
  | addPeer (conn : Conn)
  | close (conn : Conn)
  /-- The queue runs to its next `await`. -/
  | work
  | submit (w : Write)
  | submitAnchor (anchor : Anchor)
  | init (stored : Option StoredSnapshot) (writes : List Write)
  /-- `startConsensus` begins: the own block 0 is advertised from here on. -/
  | start
  /-- The bootstrap window is over. -/
  | root (mesh : Bool)
  | switchChannel (name : String)

/-- What an event does, up to the tip move it ends in. -/
def react (d : Daemon V) : Event → Daemon V × Option TipMove
  | .message conn m => (d.handle cfg conn m, none)
  | .addPeer conn => (d.addPeer cfg conn, none)
  | .close conn => (d.close conn, none)
  | .work => d.work cfg
  | .submit w => (d.submit cfg w, none)
  | .submitAnchor anchor => d.submitAnchor cfg anchor
  | .init stored writes => (d.init cfg stored writes, none)
  | .start => ({ d with genesisId := some (d.genesisFor cfg).id }, none)
  | .root mesh => (d.bootstrapChainRoot cfg mesh, none)
  | .switchChannel name => (d.switchChannel name, none)

def step (d : Daemon V) (e : Event) : Daemon V :=
  match d.react cfg e with
  | (d, none) => d
  | (d, some m) => d.moveTip cfg m

end Daemon

end Gavl
