import Gavl.Sync.Node

/-!
# The durable store

One database a channel. The node writes through it as it runs and boots from it: the last
checkpoint first, then the writes that are left, writer by writer.

The database is synchronous, so a call of the store is done when it returns; the deletion that is
chained behind a checkpoint is done before the next event. A row of the table of writes is the
write itself: its columns are the writer and the seq of the write, and writes are plain JSON.
-/

namespace Gavl

/-- Which writes are durably kept. -/
structure PersistPolicy where
  keep : Write → Bool

/-- Archiver: keep everything. -/
def keepAllPolicy : PersistPolicy := ⟨fun _ => true⟩

/-- Keep what the own keys authored. -/
def minePolicy (keys : List String) : PersistPolicy := ⟨fun w => decide (w.writer ∈ keys)⟩

/-- The two tables, each in the order of its row ids. -/
structure WriteStore where
  policy : PersistPolicy
  writes : List Write
  snapshots : List StoredSnapshot

namespace WriteStore

variable (s : WriteStore)

/-- A database without rows. -/
def opened (policy : PersistPolicy) : WriteStore := ⟨policy, [], []⟩

/-- Append a write if the policy keeps it. -/
def persist (w : Write) : WriteStore :=
  if s.policy.keep w then { s with writes := s.writes ++ [w] } else s

/-- `ORDER BY writer, seq`, rows that agree in both staying as they came. -/
def replay : List Write :=
  s.writes.insertionSort (fun a b => a.writer < b.writer ∨ a.writer = b.writer ∧ a.seq ≤ b.seq)

def persistSnapshot (snap : StoredSnapshot) : WriteStore :=
  { s with snapshots := s.snapshots ++ [snap] }

/-- The last row is the current snapshot. -/
def loadSnapshot : Option StoredSnapshot := s.snapshots.getLast?

/-- Delete the writes at or below the heads of a checkpoint. -/
def pruneBelow (heads : Heads) : WriteStore :=
  heads.entries.foldl (fun s e =>
    { s with writes := s.writes.filter (fun w => !(decide (w.writer = e.1) && decide (w.seq ≤ e.2.seq))) }) s

/-- Delete everything. -/
def clear : WriteStore := { s with writes := [], snapshots := [] }

end WriteStore

namespace Daemon

variable {V : Type} (cfg : DaemonConfig V) (d : Daemon V)

/-- What an event passes to `onApplied`. -/
def applied : Event → List Write
  | .submit w =>
    match (d.ledger.apply cfg.chain.crypto cfg.chain.params false w).2 with
    | .applied writes _ => writes
    | _ => []
  | .message _ (.writes ws) => received ws
  | .message _ (.announce ws) => received ws
  | _ => []
where
  received (ws : List Write) : List Write :=
    match (d.ledger.applyAll cfg.chain.crypto cfg.chain.params false ws).2 with
    | some (learned, _) => learned
    | none => []

/-- The checkpoint that `maybeCheckpoint` takes. -/
def checkpointTaken : Option StoredSnapshot :=
  (d.checkpointDue cfg).map (fun ckpt =>
    ⟨ckpt.id, ckpt.height, d.anchors.headsAt ckpt.id,
      cfg.app.serialize (d.viewAt cfg d.anchors ckpt.id)⟩)

/-- Whether an event discards a checkpoint that is on another chain, and the store with it. -/
def discards : Event → Bool
  | .root mesh => d.anchors.tip.isNone && mesh && d.discardOffChainCheckpoint.2
  | _ => false

/-- Events of a daemon that stays on its channel. -/
def Event.onChannel : Event → Bool
  | .init _ _ => false
  | .switchChannel _ => false
  | _ => true

end Daemon

/-- A daemon with its store open. -/
structure Session (V : Type) where
  daemon : Daemon V
  store : WriteStore

namespace Session

variable {V : Type} (cfg : DaemonConfig V)

/-- `init` of a new daemon on a store. -/
def boot (network : String) (store : WriteStore) : Session V :=
  ⟨(Daemon.new network).init cfg store.loadSnapshot store.replay, store⟩

/-- What an event leaves in the store: the writes it applied are appended; a tip move may take a
checkpoint, which is stored and lets go of the writes below it. -/
def stored (s : Session V) (e : Daemon.Event) : WriteStore :=
  let store := (s.daemon.applied cfg e).foldl WriteStore.persist s.store
  let store := if s.daemon.discards e then store.clear else store
  match s.daemon.react cfg e with
  | (_, none) => store
  | (d, some _) =>
    match d.checkpointTaken cfg with
    | none => store
    | some snap => (store.persistSnapshot snap).pruneBelow snap.heads

inductive Event where
  /-- The daemon runs. -/
  | running (e : Daemon.Event) (h : e.onChannel = true)
  /-- It stops, its store calls done, and starts again on the same store. -/
  | restart

def step (s : Session V) : Event → Session V
  | .running e _ => ⟨s.daemon.step cfg e, s.stored cfg e⟩
  | .restart => boot cfg s.daemon.network s.store

end Session

/-- The seq and the link that the next post of an account takes. -/
def Ledger.nextPost (L : Ledger) (account : String) : ℕ × Option String :=
  match L.heads.get? account with
  | some mine => (mine.seq + 1, some mine.id)
  | none => (0, none)

end Gavl
