import Gavl.Market.OriginTheorems
import Gavl.Store.RestartTheorems

/-!
# Boards that are signed for

A node folds its board from writes that verify, onto a base that is such a board itself. Whatever its
peers send it, and however often it stops and starts again, nothing is on its board but what the
parties signed, as long as the checkpoints it takes from its peers are such boards.
-/

namespace Gavl

open Runs

/-- The write passes every check, its signature among them. -/
def DaemonConfig.Verifies {V : Type} (cfg : DaemonConfig V) (w : Write) : Prop :=
  verifyWrite cfg.chain.crypto cfg.chain.params false w = .ok

namespace Session

variable {cfg : DaemonConfig View} {K : Curve} {d d' : Daemon View} {store : WriteStore}
  {snap : StoredSnapshot} {s : Session View}

/-- What a node and its store hold is signed for. -/
structure Attested (cfg : DaemonConfig View) (K : Curve) (d : Daemon View) (store : WriteStore) :
    Prop where
  ledger : d.ledger.Sound cfg.chain.crypto cfg.chain.params
  base : ∀ view, d.checkpointBase = some view → view.Signed K cfg.Verifies
  rows : ∀ w ∈ store.writes, cfg.Verifies w
  snapshot : ∀ snap view, store.loadSnapshot = some snap →
    deserializeView snap.state = some view → view.Signed K cfg.Verifies

/-- A checkpoint that is taken from a peer holds a board that is signed for. -/
def Vouched (cfg : DaemonConfig View) (K : Curve) (s : Session View) : Event → Prop
  | .running e _ => ∀ d snap anchor state, Daemon.ingestCall cfg s.daemon e = some (d, snap) →
      Daemon.Authentic cfg d snap anchor state → state.Signed K cfg.Verifies
  | .restart => True

theorem keyed_of_signed {view : View} (h : view.Signed K cfg.Verifies) : view.Keyed where
  offers := fun k o hget => (h.offers k o hget).id
  «matches» := fun k m hget => (h.matches k m hget).id

namespace Attested

theorem of_same (h : Attested cfg K d store) (hledger : d'.ledger = d.ledger)
    (hbase : d'.checkpointBase = d.checkpointBase) : Attested cfg K d' store where
  ledger := by
    rw [hledger]
    exact h.ledger
  base := by
    rw [hbase]
    exact h.base
  rows := h.rows
  snapshot := h.snapshot

theorem of_idle (h : Attested cfg K d store) (hi : d.Idle d') : Attested cfg K d' store :=
  h.of_same hi.ledger hi.base

/-- The view of any anchor, of this chain or another, is signed for. -/
theorem viewAt (hboard : cfg.app = boardApp cfg.chain.crypto K) (h : Attested cfg K d store)
    (chain : AnchorChain) (anchorId : String) :
    (d.viewAt cfg chain anchorId).Signed K cfg.Verifies := by
  have hbase : (d.checkpointBase.getD emptyView).Signed K cfg.Verifies := by
    cases hcheckpoint : d.checkpointBase with
    | none => exact .empty
    | some view => exact h.base view hcheckpoint
  have hwrites : ∀ w ∈ (orderingFor d.ledger.allWrites chain (chain.get anchorId)).included,
      cfg.Verifies w := by
    intro w hw
    cases hanchor : chain.get anchorId with
    -- an anchor that is not held certifies nothing
    | none =>
      rw [hanchor] at hw
      exact absurd hw List.not_mem_nil
    | some anchor =>
      rw [hanchor, included_eq] at hw
      obtain ⟨c, hc, hheld⟩ := h.ledger.mem_allWrites.mp (List.mem_of_mem_filter hw)
      exact (h.ledger.chain _ c hc).verified w hheld
  unfold Daemon.viewAt
  rw [hboard]
  show (viewOf K _ d.checkpointBase).Signed K cfg.Verifies
  unfold viewOf
  split
  · exact hbase
  · exact View.Signed.computeView hwrites _ hbase

/-! ## Writes -/

/-- What is persisted of checked writes was checked, and the checkpoints stay. -/
theorem rows_persist {ws : List Write} (hws : ∀ w ∈ ws, cfg.Verifies w)
    (hrows : ∀ w ∈ store.writes, cfg.Verifies w) :
    (∀ w ∈ (ws.foldl WriteStore.persist store).writes, cfg.Verifies w) ∧
      (ws.foldl WriteStore.persist store).snapshots = store.snapshots := by
  induction ws generalizing store with
  | nil => exact ⟨hrows, rfl⟩
  | cons w ws ih =>
    obtain ⟨hw, hws⟩ := List.forall_mem_cons.mp hws
    have hpersist : (∀ x ∈ (store.persist w).writes, cfg.Verifies x) ∧
        (store.persist w).snapshots = store.snapshots := by
      unfold WriteStore.persist
      split_ifs
      · refine ⟨fun x hx => ?_, rfl⟩
        obtain hx | hx := List.mem_append.mp hx
        · exact hrows x hx
        · rw [List.mem_singleton.mp hx]
          exact hw
      · exact ⟨hrows, rfl⟩
    obtain ⟨hrows', hsnapshots⟩ := ih hws hpersist.1
    exact ⟨hrows', hsnapshots.trans hpersist.2⟩

/-- What a call hands to the ledger, and what it reports to the store. -/
theorem call (h : Attested cfg K d store) (call : Call)
    (hledger : d'.ledger = (Reports.step cfg.chain.crypto cfg.chain.params ⟨d.ledger, []⟩ call).ledger)
    (hbase : d'.checkpointBase = d.checkpointBase) :
    Attested cfg K d' ((Reports.step cfg.chain.crypto cfg.chain.params ⟨d.ledger, []⟩
      call).reported.foldl WriteStore.persist store) := by
  obtain ⟨A, R, hsound, hperm, hreported, hsub, -⟩ :=
    @Reports.step_effect cfg.chain.crypto cfg.chain.params ⟨d.ledger, []⟩ h.ledger call
  rw [hreported, List.nil_append]
  -- what is reported was taken into some writer's chain, where it was verified
  have hverified : ∀ w ∈ R, cfg.Verifies w := by
    intro w hw
    have hheld := hperm.mem_iff.mpr (List.mem_append_right _ (hsub.subset hw))
    obtain ⟨c, hc, hmem⟩ := hsound.mem_allWrites.mp hheld
    exact (hsound.chain _ c hc).verified w hmem
  obtain ⟨hrows, hsnapshots⟩ := rows_persist hverified h.rows
  refine ⟨?_, ?_, hrows, ?_⟩
  · rw [hledger]
    exact hsound
  · rw [hbase]
    exact h.base
  · unfold WriteStore.loadSnapshot
    rw [hsnapshots]
    exact h.snapshot

theorem submit (h : Attested cfg K d store) (w : Write) : Attested cfg K (d.submit cfg w)
    ((d.applied cfg (.submit w)).foldl WriteStore.persist store) := by
  have happlied : d.applied cfg (.submit w)
      = (Reports.step cfg.chain.crypto cfg.chain.params ⟨d.ledger, []⟩
        (.submit (.write w))).reported := by
    rw [Daemon.applied]
    show _ = [] ++ (d.ledger.apply cfg.chain.crypto cfg.chain.params false w).2.appended
    cases (d.ledger.apply cfg.chain.crypto cfg.chain.params false w).2 <;> rfl
  have hframe : (d.submit cfg w).ledger
        = (d.ledger.apply cfg.chain.crypto cfg.chain.params false w).1 ∧
      (d.submit cfg w).checkpointBase = d.checkpointBase := by
    unfold Daemon.submit
    cases d.ledger.apply cfg.chain.crypto cfg.chain.params false w with
    | mk L r =>
      cases r with
      | applied writes buffered =>
        simp only
        split_ifs <;> exact ⟨rfl, rfl⟩
      | fail reason => exact ⟨rfl, rfl⟩
      | equivocation x y => exact ⟨rfl, rfl⟩
      | thrown message => exact ⟨rfl, rfl⟩
  rw [happlied]
  exact h.call _ hframe.1 hframe.2

theorem onWrites (h : Attested cfg K d store) (conn : Conn) (ws : List Write) :
    Attested cfg K (d.onWrites cfg conn ws)
      ((Daemon.applied.received cfg d ws).foldl WriteStore.persist store) := by
  have hstep : Reports.step cfg.chain.crypto cfg.chain.params ⟨d.ledger, []⟩ (.message (ws.map .write))
      = ⟨(d.ledger.applyAll cfg.chain.crypto cfg.chain.params false ws).1,
        Daemon.applied.received cfg d ws⟩ := by
    unfold Reports.step Daemon.applied.received
    simp only [Ledger.applyElements_writes]
    cases (d.ledger.applyAll cfg.chain.crypto cfg.chain.params false ws).2 <;> rfl
  have hframe : (d.onWrites cfg conn ws).ledger
        = (d.ledger.applyAll cfg.chain.crypto cfg.chain.params false ws).1 ∧
      (d.onWrites cfg conn ws).checkpointBase = d.checkpointBase := by
    unfold Daemon.onWrites
    cases d.ledger.applyAll cfg.chain.crypto cfg.chain.params false ws with
    | mk L r =>
      cases r with
      | none => exact ⟨rfl, rfl⟩
      | some r =>
        simp only
        split_ifs <;> exact ⟨rfl, rfl⟩
  have hledger : (d.onWrites cfg conn ws).ledger = (Reports.step cfg.chain.crypto cfg.chain.params
      ⟨d.ledger, []⟩ (.message (ws.map .write))).ledger := by
    rw [hstep]
    exact hframe.1
  have hcall := h.call _ hledger hframe.2
  rw [hstep] at hcall
  exact hcall

/-! ## Checkpoints -/

/-- A checkpoint of a peer gives the base that it vouches for. -/
theorem ingestSnapshot (h : Attested cfg K d store)
    (hvouched : ∀ anchor state, Daemon.Authentic cfg d snap anchor state →
      state.Signed K cfg.Verifies) : Attested cfg K (d.ingestSnapshot cfg snap).1 store := by
  obtain ⟨anchor, state, hauth, heq⟩ | ⟨-, stash, heq⟩ := Daemon.ingestSnapshot_cases cfg d snap
  · rw [heq]
    refine ⟨h.ledger.seedCheckpoint snap.heads, fun view hview => ?_, h.rows, h.snapshot⟩
    obtain rfl : state = view := Option.some.inj hview
    exact hvouched anchor state hauth
  · rw [heq]
    exact h.of_same rfl rfl

/-- The own checkpoint is the board of the anchor it is taken at, in memory and on disk. -/
theorem maybeCheckpoint (hboard : cfg.app = boardApp cfg.chain.crypto K) (h : Attested cfg K d store) :
    Attested cfg K (d.maybeCheckpoint cfg) (match d.checkpointTaken cfg with
      | none => store
      | some snap => (store.persistSnapshot snap).pruneBelow snap.heads) := by
  cases hdue : d.checkpointDue cfg with
  | none =>
    unfold Daemon.maybeCheckpoint Daemon.checkpointTaken
    rw [hdue]
    exact h
  | some ckpt =>
    have hsigned := h.viewAt hboard d.anchors ckpt.id
    have hheld : d.ledger.Holds (d.anchors.headsAt ckpt.id) :=
      Daemon.haveAllWrites_iff.mp (Daemon.haveAllWrites_of_checkpointDue hdue)
    obtain ⟨hledger, hbase⟩ : (d.maybeCheckpoint cfg).ledger
          = d.ledger.pruneBelow cfg.chain.crypto cfg.chain.params (d.anchors.headsAt ckpt.id) ∧
        (d.maybeCheckpoint cfg).checkpointBase = some (d.viewAt cfg d.anchors ckpt.id) := by
      unfold Daemon.maybeCheckpoint Daemon.reBeaconHave
      rw [hdue]
      exact ⟨rfl, rfl⟩
    unfold Daemon.checkpointTaken
    rw [hdue]
    simp only [Option.map_some]
    refine ⟨?_, fun view hview => ?_, ?_, fun snap view hsnap hread => ?_⟩
    · rw [hledger]
      exact h.ledger.pruneBelow hheld
    · rw [hbase] at hview
      obtain rfl := Option.some.inj hview
      exact hsigned
    · rw [WriteStore.pruneBelow_eq]
      exact fun w hw => h.rows w (List.mem_of_mem_filter hw)
    · rw [WriteStore.pruneBelow_eq] at hsnap
      unfold WriteStore.loadSnapshot WriteStore.persistSnapshot at hsnap
      rw [List.getLast?_concat] at hsnap
      obtain rfl := Option.some.inj hsnap
      rw [hboard] at hread
      -- what is read back is the board that was written
      obtain ⟨view', hread', hoffers, hmatches, -⟩ :=
        deserializeView_serializeView (keyed_of_signed hsigned)
      obtain rfl := Option.some.inj (hread.symm.trans hread')
      exact hsigned.congr hoffers hmatches

theorem tryPendingSnapshot (h : Attested cfg K d store)
    (hvouched : ∀ snap anchor state, d.pendingSnapshot = some snap →
      Daemon.Authentic cfg d snap anchor state → state.Signed K cfg.Verifies) :
    Attested cfg K (d.tryPendingSnapshot cfg) store := by
  unfold Daemon.tryPendingSnapshot
  cases hsnap : d.pendingSnapshot with
  | none => exact h
  | some snap =>
    have hingest := h.ingestSnapshot (hvouched snap · · hsnap)
    simp only
    cases hr : d.ingestSnapshot cfg snap with
    | mk d' accepted =>
      rw [hr] at hingest
      cases accepted
      · exact hingest
      · exact hingest.of_same rfl rfl

theorem moveTip (hboard : cfg.app = boardApp cfg.chain.crypto K) (h : Attested cfg K d store)
    (m : Daemon.TipMove)
    (hvouched : ∀ snap anchor state, (d.maybeCheckpoint cfg).pendingSnapshot = some snap →
      Daemon.Authentic cfg (d.maybeCheckpoint cfg) snap anchor state →
        state.Signed K cfg.Verifies) :
    Attested cfg K (d.moveTip cfg m) (match d.checkpointTaken cfg with
      | none => store
      | some snap => (store.persistSnapshot snap).pruneBelow snap.heads) := by
  have htip := (h.maybeCheckpoint hboard).tryPendingSnapshot hvouched
  unfold Daemon.moveTip
  cases m.except with
  | none => exact htip.of_idle (.broadcast _ trivial)
  | some conn => exact htip.of_idle (.broadcastExcept _ conn trivial)

theorem root (h : Attested cfg K d store) (mesh : Bool) :
    Attested cfg K (d.bootstrapChainRoot cfg mesh)
      (if d.discards (.root mesh) then store.clear else store) := by
  have hinstall : ∀ {d : Daemon View} {store : WriteStore}, Attested cfg K d store →
      Attested cfg K (d.installGenesisRoot cfg) store :=
    fun {d} _ h => h.of_idle (.installGenesisRoot cfg d)
  unfold Daemon.bootstrapChainRoot Daemon.discards
  by_cases htip : d.anchors.tip.isSome = true
  · have hnone : d.anchors.tip.isNone = false := by
      rw [Option.isNone_eq_false_iff]
      exact htip
    rw [if_pos htip, hnone]
    exact h
  · have hnone : d.anchors.tip.isNone = true := by
      rwa [Option.isNone_iff_eq_none, ← Option.not_isSome_iff_eq_none]
    rw [if_neg htip, hnone]
    cases mesh with
    | false => exact hinstall h
    | true =>
      unfold Daemon.discardOffChainCheckpoint
      by_cases hlow : d.lastCheckpointHeight < 0
      · rw [if_pos hlow]
        exact hinstall h
      · rw [if_neg hlow]
        refine of_same (hinstall ⟨.empty, fun view hview => ?_, fun w hw => ?_, ?_⟩) rfl rfl
        · cases hview
        · exact absurd hw List.not_mem_nil
        · intro snap view hsnap
          cases hsnap

/-! ## Steps -/

theorem react (h : Attested cfg K s.daemon s.store) {e : Daemon.Event}
    (hvouched : ∀ d snap anchor state, Daemon.ingestCall cfg s.daemon e = some (d, snap) →
      Daemon.Authentic cfg d snap anchor state → state.Signed K cfg.Verifies)
    (hon : e.onChannel = true) : Attested cfg K (s.daemon.react cfg e).1 (persisted cfg s e) := by
  cases e with
  | message conn m =>
    by_cases hwrites : ∃ ws, m = .writes ws ∨ m = .announce ws
    · obtain ⟨ws, rfl | rfl⟩ := hwrites
      · exact h.onWrites conn ws
      · exact h.onWrites conn ws
    by_cases hsnapshot : ∃ snap, m = .snapshot snap
    · obtain ⟨snap, rfl⟩ := hsnapshot
      have hoffer : Attested cfg K (s.daemon.recordOffer conn ⟨snap.anchorId, snap.height⟩) s.store :=
        h.of_same rfl rfl
      have hingest := hoffer.ingestSnapshot fun anchor state => hvouched _ snap anchor state rfl
      show Attested cfg K (s.daemon.onSnapshot cfg conn snap) s.store
      unfold Daemon.onSnapshot
      cases hr : (s.daemon.recordOffer conn ⟨snap.anchorId, snap.height⟩).ingestSnapshot cfg snap with
      | mk d accepted =>
        rw [hr] at hingest
        cases accepted
        · exact hingest.of_same rfl rfl
        · exact hingest.of_same rfl rfl
    · -- any other message leaves ledger, base and store as they are
      have hidle : s.daemon.Idle (s.daemon.handle cfg conn m) :=
        .handle cfg s.daemon conn (fun ws hm => hwrites ⟨ws, .inl hm⟩)
          (fun ws hm => hwrites ⟨ws, .inr hm⟩) fun snap hm => hsnapshot ⟨snap, hm⟩
      have hnone : persisted cfg s (.message conn m) = s.store := by
        unfold persisted Daemon.applied
        cases m with
        | writes ws => exact absurd ⟨ws, .inl rfl⟩ hwrites
        | announce ws => exact absurd ⟨ws, .inr rfl⟩ hwrites
        | _ => rfl
      rw [hnone]
      exact h.of_idle hidle
  | addPeer conn =>
    obtain ⟨hledger, hbase, -⟩ := Daemon.addPeer_spec cfg s.daemon conn
    exact h.of_same hledger hbase
  | close conn => exact h.of_same rfl rfl
  | work => exact h.of_idle (.work cfg s.daemon)
  | submit w => exact h.submit w
  | submitAnchor a => exact h.of_idle (.submitAnchor cfg s.daemon a)
  -- a node that stays on its channel is booted by its session, not by an event
  | init stored writes => exact absurd hon (by simp [Daemon.Event.onChannel])
  | start => exact h.of_same rfl rfl
  | root mesh => exact h.root mesh
  | switchChannel name => exact absurd hon (by simp [Daemon.Event.onChannel])

/-- Replayed writes were checked before they were stored. -/
theorem sound_replay {C : Crypto} {params : ChainParams} {L : Ledger} (hL : L.Sound C params)
    {ws : List Write} (hws : ∀ w ∈ ws, Ledger.TimeProven C params w) :
    (L.applyAll C params true ws).1.Sound C params := by
  induction ws generalizing L with
  | nil => exact hL
  | cons w ws ih =>
    obtain ⟨hw, hws⟩ := List.forall_mem_cons.mp hws
    have happly := hL.apply w
    rw [← hL.apply_replay hw] at happly
    unfold Ledger.applyAll
    cases hr : L.apply C params true w with
    | mk L' r =>
      rw [hr] at happly
      cases r with
      | thrown message => exact happly
      | applied applied buffered => exact ih happly hws
      | fail reason => exact ih happly hws
      | equivocation x y => exact ih happly hws

/-- A node that boots from such a store holds what is signed for. -/
theorem boot (hboard : cfg.app = boardApp cfg.chain.crypto K) (h : Attested cfg K d store)
    (network : String) : Attested cfg K (Session.boot cfg network store).daemon store := by
  have hproven : ∀ w ∈ store.replay, Ledger.TimeProven cfg.chain.crypto cfg.chain.params w := by
    intro w hw
    have hrow := (List.perm_insertionSort _ store.writes).mem_iff.mp hw
    exact Ledger.timeProven_of_verifyWrite (h.rows w hrow)
  unfold Session.boot Daemon.init
  cases hsnap : store.loadSnapshot with
  | none =>
    refine ⟨sound_replay .empty hproven, fun view hview => ?_, h.rows, h.snapshot⟩
    cases hview
  | some snap =>
    simp only
    cases hread : cfg.app.deserialize snap.state with
    | none =>
      refine ⟨.empty, fun view hview => ?_, h.rows, h.snapshot⟩
      cases hview
    | some state =>
      refine ⟨sound_replay (Ledger.Sound.empty.seedCheckpoint snap.heads) hproven,
        fun view hview => ?_, h.rows, h.snapshot⟩
      obtain rfl : state = view := Option.some.inj hview
      rw [hboard] at hread
      exact h.snapshot snap state hsnap hread

theorem step (hboard : cfg.app = boardApp cfg.chain.crypto K) (h : Attested cfg K s.daemon s.store)
    {e : Event} (hvouched : Vouched cfg K s e) :
    Attested cfg K (Session.step cfg s e).daemon (Session.step cfg s e).store := by
  cases e with
  | restart => exact h.boot hboard s.daemon.network
  | running e hon =>
    have hreact := h.react hvouched hon
    cases hr : s.daemon.react cfg e with
    | mk d move =>
      rw [hr] at hreact
      show Attested cfg K (s.daemon.step cfg e) (s.stored cfg e)
      unfold Daemon.step Session.stored
      rw [hr]
      cases move with
      | none => exact hreact
      | some m =>
        refine hreact.moveTip hboard m fun snap anchor state hsnap hauth => ?_
        exact hvouched _ snap anchor state (ingestCall_of_tipMove hr hsnap) hauth

end Attested

end Session

end Gavl
