import Gavl.Consensus.HeadsTheorems
import Gavl.Ledger.LedgerTheorems
import Gavl.Sync.Node

/-!
# When a snapshot rolls a node back

`ingestSnapshot` checks that a peer's checkpoint is authentic and then seeds from it. It does not
check that the checkpoint is ahead of what the node holds, nor that the height the peer wrote
into it is that of its anchor. A checkpoint is harmless exactly when both are the case.
-/

namespace Gavl

open Runs AnchorChain

namespace Daemon

variable {V : Type} {cfg : DaemonConfig V} {d d' : Daemon V} {snap : StoredSnapshot}
  {anchor child : Anchor} {state : V}

/-! ## The calls of a step -/

/-- The state in which a step calls `ingestSnapshot`, with the snapshot: on a snapshot message,
and on a tip move for the one that was stashed. -/
def ingestCall (cfg : DaemonConfig V) (d : Daemon V) (e : Event) :
    Option (Daemon V × StoredSnapshot) :=
  match e with
  | .message conn (.snapshot snap) => some (d.recordOffer conn ⟨snap.anchorId, snap.height⟩, snap)
  | _ =>
    (d.react cfg e).2.bind (fun _ =>
      (((d.react cfg e).1.maybeCheckpoint cfg).pendingSnapshot).map
        (fun snap => ((d.react cfg e).1.maybeCheckpoint cfg, snap)))

@[simp] theorem ledger_recordOffer (conn : Conn) (offer : SnapshotOffer) :
    (d.recordOffer conn offer).ledger = d.ledger := rfl

theorem ingestCall_message (conn : Conn) : ingestCall cfg d (.message conn (.snapshot snap))
    = some (d.recordOffer conn ⟨snap.anchorId, snap.height⟩, snap) := rfl

/-- A snapshot that passes the checks, with its anchor and the state it loads. -/
structure Authentic (cfg : DaemonConfig V) (d : Daemon V) (snap : StoredSnapshot)
    (anchor : Anchor) (state : V) : Prop where
  held : d.anchors.get snap.anchorId = some anchor
  root : rootOfHeads cfg.chain.crypto snap.heads = anchor.stateRoot
  committed : ∃ child, d.committingChild snap.anchorId = some child ∧
    committedState cfg snap child = some state

/-- An authentic snapshot seeds; any other leaves everything but the stash as it was. -/
theorem ingestSnapshot_cases (cfg : DaemonConfig V) (d : Daemon V) (snap : StoredSnapshot) :
    (∃ anchor state, Authentic cfg d snap anchor state ∧
      d.ingestSnapshot cfg snap = (d.seed cfg snap state, true)) ∨
    ((∀ anchor state, ¬ Authentic cfg d snap anchor state) ∧ ∃ stash,
      d.ingestSnapshot cfg snap = ({ d with pendingSnapshot := stash }, false)) := by
  unfold ingestSnapshot
  cases hget : d.anchors.get snap.anchorId with
  | none =>
    exact .inr ⟨fun a _ h => by simpa [hget] using h.held, some snap, rfl⟩
  | some anchor =>
    simp only
    by_cases hroot : rootOfHeads cfg.chain.crypto snap.heads = anchor.stateRoot
    swap
    · refine .inr ⟨fun a _ h => hroot ?_, d.pendingSnapshot, by rw [if_pos hroot]⟩
      have ha := h.held
      rw [hget, Option.some.injEq] at ha
      exact ha ▸ h.root
    rw [if_neg (by simp [hroot])]
    cases hchild : d.committingChild snap.anchorId with
    | none =>
      refine .inr ⟨fun a _ h => ?_, some snap, rfl⟩
      obtain ⟨child, hc, -⟩ := h.committed
      rw [hchild] at hc
      exact absurd hc (by simp)
    | some child =>
      simp only
      cases hstate : committedState cfg snap child with
      | none =>
        refine .inr ⟨fun a _ h => ?_, d.pendingSnapshot, rfl⟩
        obtain ⟨child', hc, hs⟩ := h.committed
        rw [hchild, Option.some.injEq] at hc
        rw [← hc, hstate] at hs
        exact absurd hs (by simp)
      | some state => exact .inl ⟨anchor, state, ⟨hget, hroot, child, hchild, hstate⟩, rfl⟩

/-! ## Rolling back -/

/-- From `d` to `d'` nothing is rolled back: no head is lowered, no write above the checkpoint is
lost, the checkpoint height does not drop. -/
structure NoRollback (snap : StoredSnapshot) (d d' : Daemon V) : Prop where
  heads : ∀ writer h, d.ledger.headOf writer = some h →
    ∃ h', d'.ledger.headOf writer = some h' ∧ h.seq ≤ h'.seq
  writes : ∀ writer w, d.ledger.HoldsWrite writer w →
    (∀ h, snap.heads.get? writer = some h → h.seq < w.seq) → d'.ledger.HoldsWrite writer w
  height : d.lastCheckpointHeight ≤ d'.lastCheckpointHeight

/-- Ingesting a snapshot rolls nothing back, and once it is accepted the checkpoint height is that
of its anchor. -/
def IngestsSafely (cfg : DaemonConfig V) (d : Daemon V) (snap : StoredSnapshot) : Prop :=
  NoRollback snap d (d.ingestSnapshot cfg snap).1 ∧
    ((d.ingestSnapshot cfg snap).2 = true →
      ∃ anchor, d.anchors.get snap.anchorId = some anchor ∧
        (d.ingestSnapshot cfg snap).1.lastCheckpointHeight = anchor.height)

/-- The checkpoint is not behind the node, and the height it states is its anchor's. -/
structure NotBehind (d : Daemon V) (snap : StoredSnapshot) (anchor : Anchor) : Prop where
  heads : ∀ writer h mine, snap.heads.get? writer = some h → d.ledger.headOf writer = some mine →
    mine.seq ≤ h.seq
  writes : ∀ writer h w, snap.heads.get? writer = some h → d.ledger.HoldsWrite writer w →
    w.seq ≤ h.seq
  height : d.lastCheckpointHeight ≤ snap.height
  stated : snap.height = anchor.height

/-- The snapshots that are authentic are not behind the node. -/
def AheadIfAuthentic (cfg : DaemonConfig V) (d : Daemon V) (snap : StoredSnapshot) : Prop :=
  ∀ anchor state, Authentic cfg d snap anchor state → NotBehind d snap anchor

theorem noRollback_of_ledger_eq (hl : d'.ledger = d.ledger)
    (hc : d'.lastCheckpointHeight = d.lastCheckpointHeight) : NoRollback snap d d' where
  heads := fun writer h hh => ⟨h, by rw [hl, hh], le_rfl⟩
  writes := fun writer w hw _ => by rwa [hl]
  height := by rw [hc]

theorem noRollback_seed_iff (state : V) :
    NoRollback snap d (d.seed cfg snap state) ∧ (d.seed cfg snap state).lastCheckpointHeight = anchor.height
      ↔ NotBehind d snap anchor := by
  constructor
  · rintro ⟨h, hheight⟩
    refine ⟨fun writer hd mine hhd hmine => ?_, fun writer hd w hhd hw => ?_, h.height, hheight⟩
    · obtain ⟨h', hafter, hle⟩ := h.heads writer mine hmine
      have hseed : (d.ledger.seedCheckpoint cfg.chain.params snap.heads).headOf writer = some hd :=
        Ledger.headOf_seedCheckpoint hhd
      unfold seed at hafter
      rw [hseed, Option.some.injEq] at hafter
      rwa [hafter]
    · -- a write above the named head would have to survive, but none of the writer's does
      by_contra hlt
      have hgone : ¬ (d.ledger.seedCheckpoint cfg.chain.params snap.heads).HoldsWrite writer w :=
        Ledger.not_holdsWrite_seedCheckpoint hhd
      refine hgone (h.writes writer w hw fun h' hh' => ?_)
      rw [hhd, Option.some.injEq] at hh'
      rw [← hh']
      omega
  · intro h
    refine ⟨⟨fun writer mine hmine => ?_, fun writer w hw habove => ?_, h.height⟩, h.stated⟩
    · cases hhd : snap.heads.get? writer with
      | none =>
        exact ⟨mine, (Ledger.headOf_seedCheckpoint_of_none hhd).trans hmine, le_rfl⟩
      | some hd =>
        exact ⟨hd, Ledger.headOf_seedCheckpoint hhd, h.heads writer hd mine hhd hmine⟩
    · cases hhd : snap.heads.get? writer with
      | none => exact (Ledger.holdsWrite_seedCheckpoint_of_none hhd).mpr hw
      | some hd =>
        have hle := h.writes writer hd w hhd hw
        have hlt := habove hd hhd
        omega

/-- A snapshot is ingested safely exactly when it is behind in nothing, if it is authentic. -/
theorem ingestsSafely_iff (cfg : DaemonConfig V) (d : Daemon V) (snap : StoredSnapshot) :
    IngestsSafely cfg d snap ↔ AheadIfAuthentic cfg d snap := by
  unfold IngestsSafely AheadIfAuthentic
  rcases ingestSnapshot_cases cfg d snap with ⟨anchor, state, hauth, heq⟩ | ⟨hno, stash, heq⟩
  · rw [heq]
    constructor
    · rintro ⟨hroll, hacc⟩ anchor' state' h'
      obtain ⟨a, hget, hheight⟩ := hacc rfl
      rw [h'.held, Option.some.injEq] at hget
      subst hget
      exact (noRollback_seed_iff state).mp ⟨hroll, hheight⟩
    · intro h
      obtain ⟨hroll, hheight⟩ := (noRollback_seed_iff state).mpr (h anchor state hauth)
      exact ⟨hroll, fun _ => ⟨anchor, hauth.held, hheight⟩⟩
  · rw [heq]
    refine ⟨fun _ anchor state h => absurd h (hno anchor state), fun _ => ?_⟩
    exact ⟨noRollback_of_ledger_eq rfl rfl, fun h => absurd h (by simp)⟩

/-- **Snapshots and rollback.** Over any run, no ingested snapshot rolls the node back exactly
when every authentic one is behind it in nothing and states its anchor's height. -/
theorem snapshots_safe_iff (cfg : DaemonConfig V) (d : Daemon V) (events : List Event) :
    Along (step cfg) (fun d e => ∀ d' snap, ingestCall cfg d e = some (d', snap) →
        IngestsSafely cfg d' snap) d events ↔
      Along (step cfg) (fun d e => ∀ d' snap, ingestCall cfg d e = some (d', snap) →
        AheadIfAuthentic cfg d' snap) d events :=
  along_congr (fun _ _ => forall_congr' fun d' => forall_congr' fun snap =>
    imp_congr_right fun _ => ingestsSafely_iff cfg d' snap) d events

/-! ## A peer that offers an old checkpoint -/

/-- The write an honest writer with a one-leaf plot posts on `prev`. -/
def posted (C : Crypto) (writer : String) (prev : Option Write) : Write :=
  let trunk : Trunk :=
    { writer := writer
      seq := match prev with | none => 0 | some p => p.seq + 1
      prev := prev.map (·.id)
      stateRoot := .str "" }
  let leaf := plotLeaf C writer 0
  let core : WriteCore :=
    { trunk with
      plot := ⟨toHex leaf, 0⟩
      difficulty := "1"
      ts := .nat 0
      payload := .null }
  let space : SpaceProof :=
    ⟨0, toHex leaf, [], toHex (C.sha256 (leaf ++ challengeOf C trunk))⟩
  let time : TimeProof := ⟨0, "", ""⟩
  { core with space := space, time := time, id := writeIdOf C core space time, sig := "" }

namespace Rollback

/-- A node with the daemon's default quorum and cadence. -/
def config : DaemonConfig View where
  chain := openConfig
  app := boardApp openConfig.crypto ⟨fun _ => true⟩
  adoptQuorum := 1
  checkpointEvery := 16
  anchorKeepMargin := 256
  mode := "hash/standin"

def peer : Conn := ⟨0, none⟩

def first : Write := posted openConfig.crypto "ab" none
def second : Write := posted openConfig.crypto "ab" (some first)

def root : Anchor := (Daemon.new "gavl" : Daemon View).genesisFor config

/-- The head after the first write. -/
def heads : Heads := (∅ : Heads).set "ab" ⟨first.id, 0⟩

/-- An anchor over the empty board, as all in this run are. -/
def certifying (prev : Anchor) (delta : Heads) : Anchor :=
  let body : AnchorBody :=
    { (assembled openConfig.crypto 1 (some prev) "p" delta heads).toAnchorBody with
      appRoot := emptyAppRoot config }
  { body with time := ⟨0, "", ""⟩, id := idOf openConfig.crypto body ⟨0, "", ""⟩, sig := "" }

def boundary : Anchor := certifying root heads
def above : Anchor := certifying boundary ∅

/-- The node takes two writes and the anchors that certify the first. -/
def events : List Event :=
  [.root false, .message peer (.writes [first, second]),
    .message peer (.anchorChain [boundary, above]), .work, .work, .work, .work]

/-- The checkpoint at the first write, under a height of the peer's choosing. -/
def oldSnap (height : ℤ) : StoredSnapshot := ⟨boundary.id, height, heads, serializeView emptyView⟩

end Rollback

open Rollback in
/-- A peer sends, unasked, the checkpoint at the first write, stating height 7, and then once
more with height -1. Each is accepted; the writer's head falls from 1 to 0, its second write is
gone, and the checkpoint height is 7 instead of 1 and then lower than before. -/
theorem snapshot_rolls_back :
    ¬ Along (step config) (fun d e => ∀ d' snap, ingestCall config d e = some (d', snap) →
        IngestsSafely config d' snap) (Daemon.new "gavl")
        (events ++ [.message peer (.snapshot (oldSnap 7))]) ∧
      ¬ IngestsSafely config (run (step config) (Daemon.new "gavl")
        (events ++ [.message peer (.snapshot (oldSnap 7))])) (oldSnap (-1)) := by
  obtain ⟨hbefore, hafter, hlast, hlower⟩ :
      ((run (step config) (Daemon.new "gavl") events).ledger.headOf "ab").map (·.seq) = some 1 ∧
      ((((run (step config) (Daemon.new "gavl") events).recordOffer peer
        ⟨(oldSnap 7).anchorId, (oldSnap 7).height⟩).ingestSnapshot config
          (oldSnap 7)).1.ledger.headOf "ab").map (·.seq) = some 0 ∧
      (run (step config) (Daemon.new "gavl")
        (events ++ [.message peer (.snapshot (oldSnap 7))])).lastCheckpointHeight = 7 ∧
      ((run (step config) (Daemon.new "gavl")
        (events ++ [.message peer (.snapshot (oldSnap 7))])).ingestSnapshot config
          (oldSnap (-1))).1.lastCheckpointHeight = -1 := by decide +kernel
  refine ⟨fun h => ?_, fun h => ?_⟩
  · have hcall := (along_append.mp h).2.1 _ _ (ingestCall_message peer)
    obtain ⟨mine, hmine, hseq⟩ := Option.map_eq_some_iff.mp hbefore
    obtain ⟨lower, hlow, hle⟩ := hcall.1.heads "ab" mine
      (by rw [ledger_recordOffer, hmine])
    rw [hlow, Option.map_some, Option.some.injEq] at hafter
    omega
  · have hle := h.1.height
    rw [hlast, hlower] at hle
    exact absurd hle (by decide)

end Daemon

end Gavl
