import Gavl.Ledger.PartTheorems
import Gavl.Sync.Node

/-!
# Two nodes and the link between them

Each of two nodes has one connection to the other. The link loses nothing and keeps no order: any
message on its way may be the next to arrive, once the receiver has wired up its end. Next to that a
node takes in local writes and goes on with its anchors.
-/

namespace Gavl

/-- The writes a message carries. -/
def SyncMessage.carried : SyncMessage → List Write
  | .writes ws => ws
  | .announce ws => ws
  | _ => []

/-- What a node does by itself with anchors. -/
def Daemon.Event.anchorSide : Daemon.Event → Bool
  | .work => true
  | .submitAnchor _ => true
  | .start => true
  | _ => false

/-- No history was dropped. -/
def Ledger.Unpruned (L : Ledger) : Prop := ∀ v c, L.chains.get? v = some c → c.baseSeq = 0

/-- Two nodes, and the messages on their way to each. -/
structure Link (V : Type) where
  node : Bool → Daemon V
  flight : Bool → List SyncMessage

namespace Link

variable {V : Type} (cfg : DaemonConfig V) (conn : Bool → Conn) (s : Link V)

/-- What a node sent on its end of the link from one state to the next. -/
def posted (conn : Conn) (d d' : Daemon V) : List SyncMessage :=
  (d'.sent.drop d.sent.length).filterMap (fun e => if e.1 = conn then some e.2 else none)

/-- A node acts. -/
def act (x : Bool) (e : Daemon.Event) : Link V where
  node := Function.update s.node x ((s.node x).step cfg e)
  flight := Function.update s.flight (!x)
    (s.flight (!x) ++ posted (conn x) (s.node x) ((s.node x).step cfg e))

/-- The link without one of the messages on their way to a node. -/
def taken (x : Bool) (i : ℕ) : Link V :=
  { s with flight := Function.update s.flight x ((s.flight x).eraseIdx i) }

inductive Event where
  /-- A node wires up its end of the link. -/
  | connect (x : Bool)
  /-- Some message arrives. -/
  | deliver (x : Bool) (i : ℕ)
  /-- A local write. -/
  | submit (x : Bool) (w : Write)
  | anchors (x : Bool) (e : Daemon.Event)

def step : Event → Link V
  | .connect x => s.act cfg conn x (.addPeer (conn x))
  | .deliver x i =>
    match (s.flight x)[i]? with
    | none => s
    | some m =>
      if conn x ∈ (s.node x).conns then (s.taken x i).act cfg conn x (.message (conn x) m) else s
  | .submit x w => s.act cfg conn x (.submit w)
  | .anchors x e => s.act cfg conn x e

/-! ## Whose writes they are -/

section Owned

variable (owner : String → Bool) (ws : List Write)

/-- How far the node of a writer holds its writes. -/
def written (v : String) : ℕ := (s.node (owner v)).ledger.reach v

/-- How far the other node does. -/
def learned (v : String) : ℕ := (s.node (!owner v)).ledger.reach v

/-- The writes that their writer's node holds. -/
def known : List Write := ws.filter (fun w => decide (w.seq < s.written owner w.writer))

/-- The local writes of a node come in the order of their seqs. -/
def Allowed : Event → Prop
  | .submit x w => w ∈ ws ∧ owner w.writer = x ∧ w.seq = s.written owner w.writer
  | .anchors _ e => e.anchorSide = true
  | _ => True

def Unpruned : Prop := ∀ x, (s.node x).ledger.Unpruned

/-- An allowed event after which both ledgers are still unpruned. -/
def Legal (e : Event) : Prop := s.Allowed owner ws e ∧ (s.step cfg conn e).Unpruned

/-- Two nodes before they connect. Each has parts of one history, and of the other's writers nothing
that their node does not have. -/
structure Apart (C : Crypto) (params : ChainParams) : Prop where
  part : ∀ x, (s.node x).ledger.PartOf C params ws
  known : ∀ x, (s.node x).ledger.PartOf C params (s.known owner ws)
  conns : ∀ x, conn x ∉ (s.node x).conns
  flight : ∀ x, s.flight x = []

end Owned

end Link

end Gavl
