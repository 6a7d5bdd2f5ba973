import Gavl.Ledger.DeliveryTheorems
import Gavl.Sync.Node

/-!
# What leaves the ledger alone

Of the node's handlers few touch the ledger: the others move anchors and send messages, and what
these tell of writes is what the ledger holds.
-/

namespace Gavl

/-- What a message tells of writes is so in the ledger. -/
def SyncMessage.TellsOf (L : Ledger) : SyncMessage → Prop
  | .hello _ heads _ _ => heads = L.heads
  | .writes ws => ∀ w ∈ ws, ∃ v, w ∈ L.heldOf v
  | .announce ws => ∀ w ∈ ws, ∃ v, w ∈ L.heldOf v
  | _ => True

theorem Ledger.mem_heldOf_of_writesFrom {L : Ledger} {v : String} {n : ℕ} {w : Write}
    (hw : w ∈ L.writesFrom v n) : w ∈ L.heldOf v := by
  unfold Ledger.writesFrom at hw
  unfold Ledger.heldOf
  cases hc : L.chains.get? v with
  | none => simp [hc] at hw
  | some c =>
    rw [hc] at hw
    exact List.mem_of_mem_drop hw

namespace Daemon

variable {V : Type} {cfg : DaemonConfig V} {d d' d'' : Daemon V} {m : SyncMessage}

/-- The ledger stays, no connection comes or goes, and what is sent tells what the ledger holds. -/
structure Steady (d d' : Daemon V) : Prop where
  ledger : d'.ledger = d.ledger
  conns : d'.conns = d.conns
  told : ∃ out, d'.sent = d.sent ++ out ∧ ∀ e ∈ out, e.2.TellsOf d.ledger

/-- The base of the fold stays as well. -/
structure Idle (d d' : Daemon V) : Prop extends d.Steady d' where
  base : d'.checkpointBase = d.checkpointBase

theorem Steady.trans (h : d.Steady d') (h' : d'.Steady d'') : d.Steady d'' where
  ledger := h'.ledger.trans h.ledger
  conns := h'.conns.trans h.conns
  told := by
    obtain ⟨out, hout, htold⟩ := h.told
    obtain ⟨out', hout', htold'⟩ := h'.told
    refine ⟨out ++ out', by rw [hout', hout, List.append_assoc], fun e he => ?_⟩
    rcases List.mem_append.mp he with he | he
    · exact htold e he
    · rw [← h.ledger]
      exact htold' e he

namespace Idle

/-- Nothing is sent. -/
theorem of_same (hledger : d'.ledger = d.ledger) (hconns : d'.conns = d.conns)
    (hsent : d'.sent = d.sent) (hbase : d'.checkpointBase = d.checkpointBase) : d.Idle d' where
  ledger := hledger
  conns := hconns
  told := ⟨[], by rw [hsent, List.append_nil], fun e he => absurd he List.not_mem_nil⟩
  base := hbase

theorem refl (d : Daemon V) : d.Idle d := .of_same rfl rfl rfl rfl

theorem trans (h : d.Idle d') (h' : d'.Idle d'') : d.Idle d'' where
  toSteady := h.toSteady.trans h'.toSteady
  base := h'.base.trans h.base

/-! ## Sending -/

theorem send (d : Daemon V) (conn : Conn) (hm : m.TellsOf d.ledger) : d.Idle (d.send conn m) where
  ledger := rfl
  conns := rfl
  told := ⟨[(conn, m)], rfl, fun e he => by
    rw [List.mem_singleton.mp he]
    exact hm⟩
  base := rfl

theorem broadcast (d : Daemon V) (hm : m.TellsOf d.ledger) : d.Idle (d.broadcast m) where
  ledger := rfl
  conns := rfl
  told := ⟨_, rfl, fun e he => by
    obtain ⟨c, -, rfl⟩ := List.mem_map.mp he
    exact hm⟩
  base := rfl

theorem broadcastExcept (d : Daemon V) (conn : Conn) (hm : m.TellsOf d.ledger) :
    d.Idle (d.broadcastExcept conn m) where
  ledger := rfl
  conns := rfl
  told := ⟨_, rfl, fun e he => by
    obtain ⟨c, -, rfl⟩ := List.mem_map.mp he
    exact hm⟩
  base := rfl

theorem advertise (d : Daemon V) : d.Idle (d.advertise cfg) := broadcast d rfl

/-! ## Handlers -/

theorem adoptFloor (cfg : DaemonConfig V) (d : Daemon V) (candidates : List Anchor) :
    d.Idle (d.adoptFloor cfg candidates).1 := by
  unfold Daemon.adoptFloor
  cases d.pendingSnapshot with
  | none => exact .refl d
  | some snap =>
    simp only
    by_cases hfresh : (!d.anchors.fresh) = true
    · rw [if_pos hfresh]
      exact .refl d
    rw [if_neg hfresh]
    cases candidates.find? (fun a => decide (a.id = snap.anchorId)) with
    | none => exact .refl d
    | some floor =>
      simp only
      by_cases hquorum : (!d.snapshotQuorumMet cfg snap.anchorId) = true
      · rw [if_pos hquorum]
        exact .refl d
      rw [if_neg hquorum]
      by_cases hroot : rootOfHeads cfg.chain.crypto snap.heads ≠ floor.stateRoot
      · rw [if_pos hroot]
        exact .refl d
      rw [if_neg hroot]
      cases d.anchors.adopt cfg.chain floor snap.heads
          (gatherAncestry (byId candidates) (candidates.length + 1) floor) with
      | error reason => exact .refl d
      | ok anchors => exact .of_same rfl rfl rfl rfl

theorem resolveBootstrap (cfg : DaemonConfig V) (d : Daemon V) : d.Idle (d.resolveBootstrap cfg) := by
  have hadopt := adoptFloor cfg d d.orphanAnchors.values
  unfold Daemon.resolveBootstrap
  split_ifs
  · exact .refl d
  cases hr : d.adoptFloor cfg d.orphanAnchors.values with
  | mk d' adopted =>
    rw [hr] at hadopt
    cases adopted
    · exact hadopt
    · exact hadopt.trans (.of_same rfl rfl rfl rfl)

theorem finishIngest (cfg : DaemonConfig V) (d : Daemon V) (conn : Conn) (anchors : List Anchor)
    (before : Option String) (gap conflict : Bool) :
    d.Idle (d.finishIngest cfg conn anchors before gap conflict).1 := by
  have hpush : d.Idle (if conflict then d.pushBranch conn anchors else d) := by
    split_ifs
    · exact .send d conn trivial
    · exact .refl d
  unfold Daemon.finishIngest
  simp only
  generalize (if conflict then d.pushBranch conn anchors else d) = d₀ at hpush ⊢
  split_ifs with hfresh hgap
  · refine hpush.trans (Idle.trans ?_ (resolveBootstrap cfg _))
    unfold bufferOrphans
    split_ifs
    · exact .of_same rfl rfl rfl rfl
    · exact .refl d₀
  · exact hpush.trans (.send d₀ conn trivial)
  · exact hpush

theorem work (cfg : DaemonConfig V) (d : Daemon V) : d.Idle (d.work cfg).1 := by
  have hadd : ∀ a, d.Idle (d.addAnchor cfg a).1 := fun a => .of_same rfl rfl rfl rfl
  unfold Daemon.work
  cases d.anchorQueue with
  | nil => exact .refl d
  | cons task rest =>
    have hpop : d.Idle { d with anchorQueue := rest } := .of_same rfl rfl rfl rfl
    cases task with
    | ingest conn anchors => exact .of_same rfl rfl rfl rfl
    | bootstrap => exact hpop.trans (resolveBootstrap cfg _)
    | adding conn anchors todo before gap conflict =>
      cases todo with
      | nil => exact hpop.trans (finishIngest cfg _ conn anchors before gap conflict)
      | cons a todo =>
        have ha := hadd a
        simp only
        cases hr : d.addAnchor cfg a with
        | mk d' r =>
          rw [hr] at ha
          cases r <;> exact ha.trans (.of_same rfl rfl rfl rfl)
    | relink todo =>
      cases todo with
      | nil => exact hpop.trans (.of_same rfl rfl rfl rfl)
      | cons a todo =>
        have ha := hadd a
        simp only
        cases hr : d.addAnchor cfg a with
        | mk d' r =>
          rw [hr] at ha
          cases r <;> exact ha.trans (.of_same rfl rfl rfl rfl)

theorem submitAnchor (cfg : DaemonConfig V) (d : Daemon V) (a : Anchor) :
    d.Idle (d.submitAnchor cfg a).1 := by
  have ha : d.Idle (d.addAnchor cfg a).1 := .of_same rfl rfl rfl rfl
  unfold Daemon.submitAnchor
  cases hr : d.addAnchor cfg a with
  | mk d' r =>
    rw [hr] at ha
    cases r <;> exact ha

theorem installGenesisRoot (cfg : DaemonConfig V) (d : Daemon V) :
    d.Idle (d.installGenesisRoot cfg) := by
  unfold Daemon.installGenesisRoot
  split_ifs
  · exact .refl d
  cases d.anchors.installGenesis cfg.chain (d.genesisFor cfg) ∅ with
  | error reason => exact .refl d
  | ok anchors => exact .of_same rfl rfl rfl rfl

theorem onAnchorTip (d : Daemon V) (conn : Conn) (height weight : ℕ) (id : String) :
    d.Idle (d.onAnchorTip conn height weight id) := by
  have hask : ∀ (fromHeight : ℕ) (fresh : Prop) [Decidable fresh],
      d.Idle (if fresh then (d.send conn (.anchorWant fromHeight)).send conn .snapshotWant
        else d.send conn (.anchorWant fromHeight)) := by
    intro fromHeight fresh _
    split_ifs
    · exact (send d conn (m := .anchorWant fromHeight) trivial).trans (send _ conn trivial)
    · exact .send d conn trivial
  unfold Daemon.onAnchorTip
  cases d.anchors.tip with
  | none =>
    simp only
    by_cases hheld : ((d.anchors.get id).isSome) = true
    · rw [if_pos hheld]
      exact .refl d
    · rw [if_neg hheld]
      exact hask 0 _
  | some t =>
    simp only
    by_cases hheld : ((d.anchors.get id).isSome) = true
    · rw [if_pos hheld]
      exact .refl d
    rw [if_neg hheld]
    by_cases hlight : weight < t.weight
    · rw [if_pos hlight]
      exact .refl d
    · rw [if_neg hlight]
      exact hask t.height _

/-- A message that carries neither writes nor a checkpoint. -/
theorem handle (cfg : DaemonConfig V) (d : Daemon V) (conn : Conn) {m : SyncMessage}
    (hwrites : ∀ ws, m ≠ .writes ws) (hannounce : ∀ ws, m ≠ .announce ws)
    (hsnapshot : ∀ snap, m ≠ .snapshot snap) : d.Idle (d.handle cfg conn m) := by
  cases m with
  | hello root heads mode genesisId =>
    show d.Idle (d.onHello cfg conn heads)
    unfold onHello
    split_ifs
    · exact .send d conn trivial
    · exact .send d conn rfl
    · exact .refl d
  | want fromSeq =>
    show d.Idle (d.onWant conn fromSeq)
    unfold onWant
    simp only
    split_ifs
    · exact .refl d
    · refine .send d conn fun w hw => ?_
      obtain ⟨e, -, hin⟩ := List.mem_flatMap.mp hw
      exact ⟨e.1, Ledger.mem_heldOf_of_writesFrom hin⟩
  | writes ws => exact absurd rfl (hwrites ws)
  | announce ws => exact absurd rfl (hannounce ws)
  | anchorTip height weight id => exact onAnchorTip d conn height weight id
  | anchorWant fromHeight =>
    show d.Idle (d.onAnchorWant conn fromHeight)
    unfold onAnchorWant
    simp only
    split_ifs
    · exact .refl d
    · exact .send d conn trivial
  | anchorChain anchors => exact .of_same rfl rfl rfl rfl
  | snapshotOffer offer =>
    show d.Idle (d.onSnapshotOffer cfg conn offer)
    have hrecord : d.Idle (d.recordOffer conn offer) := .of_same rfl rfl rfl rfl
    unfold onSnapshotOffer
    simp only
    split_ifs
    · exact hrecord.trans (.send _ conn trivial)
    · exact hrecord
  | snapshotWant =>
    show d.Idle (d.onSnapshotWant conn)
    unfold onSnapshotWant
    cases d.lastSnapshot with
    | none => exact .refl d
    | some snap => exact .send d conn trivial
  | snapshot snap => exact absurd rfl (hsnapshot snap)
  | snapshotHave offer => exact .refl d

end Idle

/-- A connection is wired up and greeted. -/
theorem addPeer_spec (cfg : DaemonConfig V) (d : Daemon V) (conn : Conn) :
    (d.addPeer cfg conn).ledger = d.ledger ∧
      (d.addPeer cfg conn).checkpointBase = d.checkpointBase ∧
      (d.addPeer cfg conn).conns = (if conn ∈ d.conns then d.conns else d.conns ++ [conn]) ∧
      ∃ out, (d.addPeer cfg conn).sent = d.sent ++ (conn, d.hello cfg) :: out ∧
        ∀ e ∈ out, e.2.TellsOf d.ledger := by
  have htip : ∀ (d : Daemon V) tip, d.anchorTipMsg = some tip → d.Idle (d.send conn tip) := by
    intro d tip h
    obtain ⟨t, -, rfl⟩ := Option.map_eq_some_iff.mp h
    exact .send d conn trivial
  have hoffer : ∀ (d : Daemon V) (snap : StoredSnapshot), d.Idle
      ((d.send conn (.snapshotOffer ⟨snap.anchorId, snap.height⟩)).send conn
        (.snapshotHave ⟨snap.anchorId, snap.height⟩)) := fun d snap =>
    (Idle.send d conn (m := .snapshotOffer _) trivial).trans (.send _ conn trivial)
  obtain ⟨joined, hjoined⟩ : ∃ joined : Daemon V, joined =
    { d with conns := if conn ∈ d.conns then d.conns else d.conns ++ [conn] } := ⟨_, rfl⟩
  have hafter : (joined.send conn (joined.hello cfg)).Idle (d.addPeer cfg conn) := by
    unfold addPeer
    simp only
    rw [← hjoined]
    generalize joined.send conn (joined.hello cfg) = greeted
    cases ht : greeted.anchorTipMsg with
    | none =>
      simp only
      cases greeted.lastSnapshot with
      | none => exact .refl greeted
      | some snap => exact hoffer greeted snap
    | some tip =>
      simp only
      cases (greeted.send conn tip).lastSnapshot with
      | none => exact htip greeted tip ht
      | some snap => exact (htip greeted tip ht).trans (hoffer _ snap)
  subst hjoined
  obtain ⟨out, hout, htold⟩ := hafter.told
  refine ⟨hafter.ledger, hafter.base, hafter.conns, out, ?_, htold⟩
  rw [hout]
  show (d.sent ++ [(conn, d.hello cfg)]) ++ out = _
  rw [List.append_assoc, List.singleton_append]

theorem haveAllWrites_of_checkpointDue {ckpt : Anchor} (h : d.checkpointDue cfg = some ckpt) :
    d.haveAllWrites (d.anchors.headsAt ckpt.id) = true := by
  unfold checkpointDue at h
  cases hfin : d.anchors.settled with
  | none => simp [hfin] at h
  | some fin =>
    simp only [hfin] at h
    split_ifs at h
    obtain ⟨-, hckpt⟩ := Option.filter_eq_some_iff.mp h
    simp only [Bool.and_eq_true] at hckpt
    exact hckpt.2

end Daemon

end Gavl
