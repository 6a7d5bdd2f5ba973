import Gavl.Ledger.Ledger
import Gavl.Consensus.Anchor

/-!
# Sync wire messages

Write sync, anchor sync and checkpoint bootstrap share one connection.
-/

namespace Gavl

/-- A durable checkpoint: the state a finalized anchor certifies with the heads it covers. -/
structure StoredSnapshot where
  anchorId : String
  height : ℤ
  heads : Heads
  state : Json

/-- A connection, with the stable identity of the peer behind it if the transport has one. -/
structure Conn where
  id : ℕ
  peerKey : Option String
deriving DecidableEq

/-- The header of a checkpoint, as peers offer it. -/
structure SnapshotOffer where
  anchorId : String
  height : ℤ
deriving DecidableEq

inductive SyncMessage where
  | hello (root : String) (heads : Heads) (mode genesis : Option String)
  | want (fromSeq : OrderedMap String ℕ)
  | writes (writes : List Write)
  | announce (writes : List Write)
  | anchorTip (height weight : ℕ) (id : String)
  | anchorWant (fromHeight : ℕ)
  | anchorChain (anchors : List Anchor)
  | snapshotOffer (offer : SnapshotOffer)
  | snapshotWant
  | snapshot (snap : StoredSnapshot)
  | snapshotHave (offer : SnapshotOffer)

end Gavl
