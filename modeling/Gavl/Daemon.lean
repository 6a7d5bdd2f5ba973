import Gavl.Consensus.Genesis
import Gavl.Market.Board
import Gavl.Sync.Messages

/-!
# The daemon

The engine around a ledger and an anchor chain: it judges the app state of every anchor,
checkpoints behind settlement, and lets a fresh node load a peer's checkpoint in place of the
history it covers.

The view of an anchor is memoized by the source. The memo is dropped whenever the base moves and
holds only views of anchors whose writes are all there, so it is not part of the state here. Nor
is what serves the display (events, cadence, warnings) or the disk.
-/

namespace Gavl

/-- What the daemon uses of the application whose state anchors commit to. -/
structure App (V : Type) where
  empty : V
  viewRoot : V → String
  serialize : V → Json
  /-- `none` where it throws. -/
  deserialize : Json → Option V
  /-- Fold an ordering onto a base. -/
  fold : FinalOrdering → Option V → V

/-- The order board. -/
def boardApp (C : Crypto) (K : Curve) : App View where
  empty := emptyView
  viewRoot := viewRoot C
  serialize := serializeView
  deserialize := deserializeView
  fold := viewOf K

/-- What a `Daemon` is constructed with. -/
structure DaemonConfig (V : Type) where
  chain : ChainConfig
  app : App V
  /-- Distinct peers that must vouch for a checkpoint before it is adopted. -/
  adoptQuorum : ℕ
  /-- Anchors between durable checkpoints. -/
  checkpointEvery : ℕ
  /-- Anchors kept below a checkpoint. -/
  anchorKeepMargin : ℕ
  /-- Proof mode advertised in `hello`. -/
  mode : String

/-- One entry of the queue that serializes anchor ingestion, up to its next `await`. -/
inductive Task where
  /-- `ingestAnchors`, not started. -/
  | ingest (conn : Conn) (anchors : List Anchor)
  /-- Its loop, with the anchors still to add. -/
  | adding (conn : Conn) (anchors todo : List Anchor) (before : Option String) (gap conflict : Bool)
  /-- `resolveBootstrap` as the snapshot handler queues it. -/
  | bootstrap
  /-- Its loop over the buffered anchors once a floor is adopted. -/
  | relink (todo : List Anchor)

/-- A daemon with its node. -/
structure Daemon (V : Type) where
  network : String
  ledger : Ledger
  anchors : AnchorChain
  conns : List Conn
  genesisId : Option String
  /-- Latest checkpoint each connection has offered: the votes counted toward the quorum. -/
  snapshotOffers : OrderedMap Conn SnapshotOffer
  /-- Anchors a fresh node received that link to nothing it holds. -/
  orphanAnchors : OrderedMap String Anchor
  anchorQueue : List Task
  /-- Everything sent so far. -/
  sent : List (Conn × SyncMessage)
  /-- The board at the ledger's prune floor. -/
  checkpointBase : Option V
  lastCheckpointHeight : ℤ
  lastSnapshot : Option StoredSnapshot
  /-- A peer's checkpoint waiting for the anchors that authenticate it. -/
  pendingSnapshot : Option StoredSnapshot

namespace AnchorChain

/-- `chainTo()`: the chain of the tip, oldest first. -/
def tipChain (c : AnchorChain) : List Anchor :=
  match c.tip with
  | none => []
  | some tip => c.chainTo tip

/-- A chain that holds nothing, or nothing above block 0. -/
def fresh (c : AnchorChain) : Bool :=
  match c.tip with
  | none => true
  | some tip => decide (tip.height = 0)

end AnchorChain

namespace Daemon

variable {V : Type} (cfg : DaemonConfig V) (d : Daemon V)

/-- As constructed. -/
def new (network : String) : Daemon V where
  network := network
  ledger := Ledger.empty
  anchors := AnchorChain.new
  conns := []
  genesisId := none
  snapshotOffers := ∅
  orphanAnchors := ∅
  anchorQueue := []
  sent := []
  checkpointBase := none
  lastCheckpointHeight := -1
  lastSnapshot := none
  pendingSnapshot := none

/-! ## Sending -/

def send (conn : Conn) (m : SyncMessage) : Daemon V := { d with sent := d.sent ++ [(conn, m)] }

def broadcast (m : SyncMessage) : Daemon V :=
  { d with sent := d.sent ++ d.conns.map (fun c => (c, m)) }

def broadcastExcept (except : Conn) (m : SyncMessage) : Daemon V :=
  { d with sent := d.sent ++ (d.conns.filter (fun c => decide (c ≠ except))).map (fun c => (c, m)) }

def hello : SyncMessage :=
  .hello (d.ledger.stateRoot cfg.chain.crypto) d.ledger.heads (some cfg.mode) d.genesisId

/-- Re-broadcast the write heads, so that peers serve what is missing. -/
def advertise : Daemon V := d.broadcast (d.hello cfg)

def anchorTipMsg : Option SyncMessage :=
  d.anchors.tip.map (fun t : Anchor => .anchorTip t.height t.weight t.id)

/-- Broadcast the beacon for the checkpoint held. -/
def reBeaconHave : Daemon V :=
  match d.lastSnapshot with
  | none => d
  | some s => d.broadcast (.snapshotHave ⟨s.anchorId, s.height⟩)

/-! ## The app state of an anchor -/

/-- The view an anchor of `chain` certifies, folded from the checkpoint base. -/
def viewAt (chain : AnchorChain) (anchorId : String) : V :=
  cfg.app.fold (orderingFor d.ledger.allWrites chain (chain.get anchorId)) d.checkpointBase

/-- The ledger holds every writer's chain up to `heads`. -/
def haveAllWrites (heads : Heads) : Bool :=
  heads.entries.all (fun e => decide (d.ledger.idAt e.1 e.2.seq = some e.2.id))

def emptyAppRoot : String := cfg.app.viewRoot cfg.app.empty

/-- The `appRoot` an anchor extending `prev` must commit. -/
def appRootFor (chain : AnchorChain) (prev : Option Anchor) : String :=
  match prev with
  | none => emptyAppRoot cfg
  | some p => cfg.app.viewRoot (d.viewAt cfg chain p.id)

/-- Enforce an anchor's `appRoot` against the own fold; deferred where writes are missing. -/
def checkAppRoot : StateCheck := fun chain anchor _ =>
  match chain.parent anchor with
  | none => decide (anchor.appRoot = emptyAppRoot cfg)
  | some prev =>
    if !d.haveAllWrites (chain.headsAt prev.id) then true
    else decide (anchor.appRoot = d.appRootFor cfg chain (some prev))

/-! ## Checkpoints -/

/-- The anchor at the largest checkpoint height the settled anchor has crossed, when a new
checkpoint is due there and can be folded. -/
def checkpointDue : Option Anchor :=
  match d.anchors.settled with
  | none => none
  | some fin =>
    let target := fin.height / cfg.checkpointEvery * cfg.checkpointEvery
    if target = 0 ∨ (target : ℤ) ≤ d.lastCheckpointHeight then none
    else
      ((d.anchors.ancestry fin).find? (fun a => decide (a.height ≤ target))).filter (fun ckpt =>
        decide (ckpt.height = target) && decide ((d.anchors.headsAt ckpt.id).size ≠ 0) &&
          d.haveAllWrites (d.anchors.headsAt ckpt.id))

/-- Checkpoint the committed state and prune history behind it. -/
def maybeCheckpoint : Daemon V :=
  match d.checkpointDue cfg with
  | none => d
  | some ckpt =>
    let heads := d.anchors.headsAt ckpt.id
    let view := d.viewAt cfg d.anchors ckpt.id
    let snap : StoredSnapshot := ⟨ckpt.id, ckpt.height, heads, cfg.app.serialize view⟩
    let d := { d with lastCheckpointHeight := ckpt.height, lastSnapshot := some snap }.reBeaconHave
    let margin := max cfg.anchorKeepMargin
      (match cfg.chain.schedule with | none => 0 | some sched => sched.window)
    { d with
      ledger := d.ledger.pruneBelow cfg.chain.crypto cfg.chain.params heads
      checkpointBase := some view
      anchors := d.anchors.prune cfg.chain ((ckpt.height : ℤ) - margin) }

/-! ## Checkpoint bootstrap -/

/-- The anchor whose `appRoot` commits the state of a checkpoint. -/
def committingChild (anchorId : String) : Option Anchor :=
  d.anchors.tipChain.find? (fun a => decide (a.prev = some anchorId))

/-- The app state of a snapshot, if it is the one `child` commits. -/
def committedState (snap : StoredSnapshot) (child : Anchor) : Option V :=
  (cfg.app.deserialize snap.state).filter
    (fun state => decide (cfg.app.viewRoot state = child.appRoot))

/-- Seed the ledger at the checkpoint and fold forward from its state. -/
def seed (snap : StoredSnapshot) (state : V) : Daemon V :=
  { d with
    ledger := d.ledger.seedCheckpoint cfg.chain.params snap.heads
    checkpointBase := some state
    lastCheckpointHeight := snap.height
    lastSnapshot := some snap
    pendingSnapshot := none }

/-- Verify a peer's checkpoint against the anchor chain, then seed from it. -/
def ingestSnapshot (snap : StoredSnapshot) : Daemon V × Bool :=
  match d.anchors.get snap.anchorId with
  | none => ({ d with pendingSnapshot := some snap }, false)
  | some anchor =>
    if rootOfHeads cfg.chain.crypto snap.heads ≠ anchor.stateRoot then (d, false)
    else
      match d.committingChild snap.anchorId with
      | none => ({ d with pendingSnapshot := some snap }, false)
      | some child =>
        match committedState cfg snap child with
        | none => (d, false)
        | some state => (d.seed cfg snap state, true)

/-- `conn.peerKey ?? conn`. -/
def voucher (conn : Conn) : String ⊕ ℕ :=
  match conn.peerKey with
  | some key => .inl key
  | none => .inr conn.id

/-- Enough distinct peers have offered the checkpoint. -/
def snapshotQuorumMet (anchorId : String) : Bool :=
  decide (cfg.adoptQuorum ≤
    (((d.snapshotOffers.entries.filter (fun e => decide (e.2.anchorId = anchorId))).map
      (fun e => voucher e.1)).dedup).length)

/-- The candidates linked below `cur`. The source's loop has no bound; an anchor met twice would
keep it from ending. -/
def gatherAncestry (byId : OrderedMap String Anchor) : ℕ → Anchor → List Anchor
  | 0, _ => []
  | n + 1, cur =>
    match cur.link.bind byId.get? with
    | none => []
    | some below => below :: gatherAncestry byId n below

/-- The candidates by their ids. -/
def byId (candidates : List Anchor) : OrderedMap String Anchor :=
  candidates.foldl (fun m a => m.set a.id a) ∅

/-- Adopt the pending checkpoint's anchor, found among the candidates, as a trusted floor. -/
def adoptFloor (candidates : List Anchor) : Daemon V × Bool :=
  match d.pendingSnapshot with
  | none => (d, false)
  | some snap =>
    if !d.anchors.fresh then (d, false)
    else
      match candidates.find? (fun a => decide (a.id = snap.anchorId)) with
      | none => (d, false)
      | some floor =>
        if !d.snapshotQuorumMet cfg snap.anchorId then (d, false)
        else if rootOfHeads cfg.chain.crypto snap.heads ≠ floor.stateRoot then (d, false)
        else
          match d.anchors.adopt cfg.chain floor snap.heads
            (gatherAncestry (byId candidates) (candidates.length + 1) floor) with
          | .error _ => (d, false)
          | .ok anchors => ({ d with anchors := anchors }, true)

/-- Retry a stashed checkpoint. -/
def tryPendingSnapshot : Daemon V :=
  match d.pendingSnapshot with
  | none => d
  | some snap =>
    match d.ingestSnapshot cfg snap with
    | (d, true) => d.advertise cfg
    | (d, false) => d

/-- The tip moved. -/
def onTip : Daemon V := (d.maybeCheckpoint cfg).tryPendingSnapshot cfg

/-- Whether a fresh node should pull an offered checkpoint. -/
def wantSnapshot (offer : SnapshotOffer) : Bool :=
  (decide (d.ledger.writers = 0) || d.anchors.fresh) &&
    decide (d.lastCheckpointHeight < offer.height)

/-! ## Rooting the chain -/

/-- The genesis of the network the daemon is on. -/
def genesisFor : Anchor :=
  genesisAnchor cfg.chain.crypto d.network
    (match cfg.chain.schedule with | none => cfg.chain.params.difficulty | some sched => sched.base)
    (emptyAppRoot cfg)

/-- Install block 0 on an unrooted chain. -/
def installGenesisRoot : Daemon V :=
  if d.anchors.tip.isSome then d
  else
    match d.anchors.installGenesis cfg.chain (d.genesisFor cfg) ∅ with
    | .error _ => d
    | .ok anchors => { d with anchors := anchors }

/-- Ask every peer for its chain and its writes. -/
def resync : Daemon V :=
  let fromHeight := match d.anchors.tip with
    | none => 0
    | some t => t.height - 8
  (d.broadcast (.anchorWant fromHeight)).advertise cfg

/-- Drop a checkpoint that was loaded from disk, with the writes on top of it. -/
def discardOffChainCheckpoint : Daemon V × Bool :=
  if d.lastCheckpointHeight < 0 then (d, false)
  else
    ({ d with
        ledger := Ledger.empty
        lastCheckpointHeight := -1
        lastSnapshot := none
        checkpointBase := none }, true)

/-- The end of `bootstrapChainRoot`: seed the genesis where nothing was adopted. -/
def bootstrapChainRoot (mesh : Bool) : Daemon V :=
  if d.anchors.tip.isSome then d
  else if !mesh then d.installGenesisRoot cfg
  else
    match d.discardOffChainCheckpoint with
    | (d, true) => (d.installGenesisRoot cfg).resync cfg
    | (d, false) => d.installGenesisRoot cfg

/-- Boot from what the store holds: its last checkpoint, then the writes above it, whose time
proofs were checked before they were stored. -/
def init (stored : Option StoredSnapshot) (writes : List Write) : Daemon V :=
  let replay : Daemon V → Daemon V := fun d =>
    { d with ledger := (d.ledger.applyAll cfg.chain.crypto cfg.chain.params true writes).1 }
  match stored with
  | none => replay d
  | some snap =>
    match cfg.app.deserialize snap.state with
    | none => d
    | some state =>
      replay { d with
        checkpointBase := some state
        ledger := d.ledger.seedCheckpoint cfg.chain.params snap.heads
        lastCheckpointHeight := snap.height
        lastSnapshot := some snap }

/-- Leave the channel for another: a fresh ledger and a fresh anchor chain. -/
def switchChannel (name : String) : Daemon V :=
  if name = "" ∨ name = d.network then d else { new name with sent := d.sent }

end Daemon

end Gavl
