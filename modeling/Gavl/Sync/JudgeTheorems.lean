import Gavl.Consensus.RebuildTheorems
import Gavl.Ledger.GrowthTheorems
import Gavl.Sync.Producer

/-!
# The app roots of stored anchors

The `appRoot` of an anchor is judged once, when the anchor is added, and only if the writes its
parent certifies are held by then. What was judged stays right while writes and anchors arrive.
What was deferred is never looked at again, so the order of arrival decides what is stored.
-/

namespace Gavl

open AnchorChain Runs

namespace Daemon

variable {V : Type} {cfg : DaemonConfig V} {d d' d₁ d₂ : Daemon V} {a b p q : Anchor}
  {e : Event} {heads : Heads}

/-! ## Definitions -/

/-- `a` is stored above the last checkpoint, on a stored parent. -/
structure StoredOn (d : Daemon V) (a p : Anchor) : Prop where
  held : d.anchors.Holds a
  parent : d.anchors.parent a = some p
  above : d.lastCheckpointHeight < a.height

/-- The anchor that a step adds to the chain. -/
def addCall (d : Daemon V) : Event → Option Anchor
  | .work =>
    match d.anchorQueue with
    | .adding _ _ (a :: _) _ _ _ :: _ => some a
    | .relink (a :: _) :: _ => some a
    | _ => none
  | .submitAnchor a => some a
  | _ => none

/-- The node with the writes or the anchor of an event taken in, and nothing done about it. -/
def fed (cfg : DaemonConfig V) (d : Daemon V) (e : Event) : Daemon V :=
  match e with
  | .message conn (.writes ws) => d.onWrites cfg conn ws
  | .message conn (.announce ws) => d.onWrites cfg conn ws
  | .submit w => d.submit cfg w
  | e =>
    match d.addCall e with
    | none => d
    | some a => (d.addAnchor cfg a).1

/-- Ledger, anchors and base of the fold are the same. -/
structure SameBase (d d' : Daemon V) : Prop where
  ledger : d'.ledger = d.ledger
  anchors : d'.anchors = d.anchors
  base : d'.checkpointBase = d.checkpointBase
  height : d'.lastCheckpointHeight = d.lastCheckpointHeight

/-- Resumed from the base of `d'`, the fold gives the boards that it gives from the base of `d`:
those under the anchors stored above the checkpoint, none of which waits for writes. -/
def KeepsBoards (cfg : DaemonConfig V) (d d' : Daemon V) : Prop :=
  ∀ a p, d'.StoredOn a p → ¬ d'.ledger.Awaits (d'.anchors.headsAt p.id) ∧
    (d'.haveAllWrites (d'.anchors.headsAt p.id) = true →
      d.StoredOn a p ∧ d.haveAllWrites (d.anchors.headsAt p.id) = true ∧
        d'.viewAt cfg d'.anchors p.id = d.viewAt cfg d.anchors p.id)

/-- A step defers no judgement. -/
structure Judges (cfg : DaemonConfig V) (d : Daemon V) (e : Event) : Prop where
  /-- What is added does not wait for writes that its parent certifies. -/
  added : ∀ a p, d.addCall e = some a → d.anchors.parent a = some p →
    d.lastCheckpointHeight < a.height → ¬ d.ledger.Awaits (d.anchors.headsAt p.id)
  /-- It is not the parent, pruned, of an anchor that is held. -/
  unlinked : ∀ a, d.addCall e = some a → d.anchors.get a.id = none → d.anchors.Unlinked a
  /-- An adopted floor comes without ancestors that do not rebuild its heads. -/
  adopted : ∀ d₁ d₂, d.adoptCall e = some d₁ →
    d₁.adoptFloor cfg d₁.orphanAnchors.values = (d₂, true) → d₂.anchors.Rebuildable
  /-- Where the base moves, the boards do not. -/
  rebased : ¬ (d.fed cfg e).SameBase (step cfg d e) → KeepsBoards cfg (d.fed cfg e) (step cfg d e)

/-- What every state of such a run satisfies. -/
structure Judged (cfg : DaemonConfig V) (d : Daemon V) : Prop where
  placed : d.ledger.Placed
  rebuildable : d.anchors.Rebuildable
  stored : ∀ a p, d.StoredOn a p → ¬ d.ledger.Awaits (d.anchors.headsAt p.id) ∧
    (d.haveAllWrites (d.anchors.headsAt p.id) = true →
      a.appRoot = d.appRootFor cfg d.anchors (some p))

/-! ## Taking in writes -/

theorem haveAllWrites_iff : d.haveAllWrites heads = true ↔ d.ledger.Holds heads := by
  unfold haveAllWrites Ledger.Holds
  simp only [List.all_eq_true, decide_eq_true_eq, Prod.forall]
  exact ⟨fun h w x hx => h w x ((OrderedMap.get?_eq_some_iff _ _ _).mp hx),
    fun h w x hx => h w x ((OrderedMap.get?_eq_some_iff _ _ _).mpr hx)⟩

/-- The ordering of an anchor is read off its ancestry, its heads and the writes they cover. -/
theorem orderingFor_congr {writes writes' : List Write} {c c' : AnchorChain}
    (hanc : c'.ancestry p = c.ancestry p) (hheads : c'.headsAt p.id = c.headsAt p.id)
    (hincluded : writes'.filter (covers (c.headsAt p.id)) = writes.filter (covers (c.headsAt p.id))) :
    orderingFor writes' c' (some p) = orderingFor writes c (some p) := by
  have hi : (orderingFor writes' c' (some p)).included = (orderingFor writes c (some p)).included := by
    rw [included_eq, included_eq, hheads]
    exact hincluded
  have hchain : c'.chainTo p = c.chainTo p := by
    unfold chainTo
    rw [hanc]
  show FinalOrdering.mk (orderingFor writes' c' (some p)).included
      (epochOrder (epochOf (c'.chainTo p) (orderingFor writes' c' (some p)).included))
      (epochOf (c'.chainTo p) (orderingFor writes' c' (some p)).included) (some p.height)
      (c'.chainTo p) = FinalOrdering.mk (orderingFor writes c (some p)).included
      (epochOrder (epochOf (c.chainTo p) (orderingFor writes c (some p)).included))
      (epochOf (c.chainTo p) (orderingFor writes c (some p)).included) (some p.height)
      (c.chainTo p)
  rw [hi, hchain]

/-- A write beyond a ledger that holds the heads is not covered by them. -/
theorem covers_beyond {L : Ledger} (hheld : L.Holds heads) (w : Write) (hw : L.Beyond w) :
    covers heads w = false := by
  unfold covers
  cases hget : heads.get? w.writer with
  | none => rfl
  | some h =>
    obtain ⟨c, hc, hlt⟩ := Ledger.lt_nextSeq_of_idAt (hheld _ h hget)
    have hle := hw c hc
    simp only [decide_eq_false_iff_not]
    omega

/-- Writes that arrive leave what was judged as it is. -/
theorem Judged.grow (h : Judged cfg d) (hledger : d.ledger.Continues d'.ledger)
    (hplaced : d'.ledger.Placed) (hanchors : d'.anchors = d.anchors)
    (hbase : d'.checkpointBase = d.checkpointBase)
    (hheight : d'.lastCheckpointHeight = d.lastCheckpointHeight) : Judged cfg d' where
  placed := hplaced
  rebuildable := by
    rw [hanchors]
    exact h.rebuildable
  stored := fun a p hap => by
    have hap' : d.StoredOn a p := by
      rcases hap with ⟨hheld, hparent, habove⟩
      rw [hanchors] at hheld hparent
      rw [hheight] at habove
      exact ⟨hheld, hparent, habove⟩
    obtain ⟨hdone, hright⟩ := h.stored a p hap'
    obtain ⟨hdone', hback⟩ := hledger.not_awaits hdone
    rw [hanchors]
    refine ⟨hdone', fun hall => ?_⟩
    have hheld : d.ledger.Holds (d.anchors.headsAt p.id) := hback (haveAllWrites_iff.mp hall)
    rw [hright (haveAllWrites_iff.mpr hheld)]
    have hp : d.anchors.get p.id = some p := h.rebuildable.linked.holds_parent hap'.parent
    unfold appRootFor viewAt
    simp only
    rw [hbase, hp, orderingFor_congr rfl rfl (hledger.kept _ (covers_beyond hheld))]

/-! ## Taking in an anchor -/

theorem appRootFor_some (c : AnchorChain) (p : Anchor) :
    d.appRootFor cfg c (some p) = cfg.app.viewRoot (d.viewAt cfg c p.id) := rfl

/-- The board under an anchor is the same over two chains that agree below it. -/
theorem viewAt_congr {c c' : AnchorChain} (hp : c.get p.id = some p) (hp' : c'.get p.id = some p)
    (hanc : c'.ancestry p = c.ancestry p) (hheads : c'.headsAt p.id = c.headsAt p.id) :
    d.viewAt cfg c' p.id = d.viewAt cfg c p.id := by
  unfold viewAt
  rw [hp, hp', orderingFor_congr hanc hheads rfl]

/-- An anchor that is judged when it is added leaves what was judged as it is. -/
theorem Judged.add (h : Judged cfg d)
    (hadded : ∀ p, d.anchors.parent a = some p → d.lastCheckpointHeight < a.height →
      ¬ d.ledger.Awaits (d.anchors.headsAt p.id))
    (hun : d.anchors.get a.id = none → d.anchors.Unlinked a) :
    Judged cfg (d.addAnchor cfg a).1 := by
  obtain ⟨hsame, -⟩ | ⟨heads, hacc, hadd⟩ :=
    add_cases d.anchors cfg.chain (d.checkAppRoot cfg) a
  · have hd : (d.addAnchor cfg a).1 = d := by
      show { d with anchors := (d.anchors.add cfg.chain (d.checkAppRoot cfg) a).1 } = d
      rw [hsame]
    rw [hd]
    exact h
  have hL := h.rebuildable.linked
  have hunl : d.anchors.Unlinked a := hun hacc.fresh
  have hext := hacc.extended hL hunl
  set c' := ((d.anchors.store a).choose cfg.chain a heads).1 with hc'
  have hd : (d.addAnchor cfg a).1 = { d with anchors := c' } := by
    show { d with anchors := (d.anchors.add cfg.chain (d.checkAppRoot cfg) a).1 } = _
    rw [hadd]
  rw [hd]
  refine ⟨h.placed, h.rebuildable.of_extended hacc hext, fun b q hbq => ?_⟩
  have hb : b = a ∨ d.anchors.Holds b := (hext.holds_iff b).mp hbq.held
  have hparent : d.anchors.parent b = some q := by
    rw [← hext.parent_eq b hb]
    exact hbq.parent
  have hq : d.anchors.Holds q := hL.holds_parent hparent
  have hheads : c'.headsAt q.id = d.anchors.headsAt q.id :=
    h.rebuildable.headsAt_extended hacc hext hq
  have hview : d.viewAt cfg c' q.id = d.viewAt cfg d.anchors q.id :=
    viewAt_congr hq (hext.holds_old hq) (hext.ancestry_eq q hq) hheads
  -- the parent of any stored anchor, old or new, is an old one: its board has not moved
  have hroot : d.appRootFor cfg c' (some q) = d.appRootFor cfg d.anchors (some q) := by
    rw [appRootFor_some, appRootFor_some, hview]
  show ¬ d.ledger.Awaits (c'.headsAt q.id) ∧ (d.haveAllWrites (c'.headsAt q.id) = true →
    b.appRoot = d.appRootFor cfg c' (some q))
  rw [hheads, hroot]
  rcases hb with rfl | hb
  · refine ⟨hadded q hparent hbq.above, fun hall => ?_⟩
    have hcheck := hacc.state
    obtain ⟨hanc, hstore⟩ := hacc.headsAt_store hL hunl hq
    unfold checkAppRoot at hcheck
    rw [hacc.parent_store_self, hparent] at hcheck
    simp only [hstore, hall, Bool.not_true, Bool.false_eq_true, if_false, decide_eq_true_eq] at hcheck
    rw [hcheck]
    rw [appRootFor_some, appRootFor_some, viewAt_congr hq (holds_store hacc.fresh hq) hanc hstore]
  · exact h.stored b q ⟨hb, hparent, hbq.above⟩

/-! ## What a step takes in -/

theorem Judged.onWrites (h : Judged cfg d) (conn : Conn) (ws : List Write) :
    Judged cfg (d.onWrites cfg conn ws) := by
  obtain ⟨hcont, hplaced⟩ := Ledger.applyAll_continues cfg.chain.crypto cfg.chain.params false ws
    d.ledger h.placed
  unfold Daemon.onWrites
  cases hr : d.ledger.applyAll cfg.chain.crypto cfg.chain.params false ws with
  | mk ledger result =>
    rw [hr] at hcont hplaced
    cases result with
    | none => exact h.grow hcont hplaced rfl rfl rfl
    | some r =>
      simp only
      split_ifs
      all_goals exact h.grow hcont hplaced rfl rfl rfl

theorem Judged.submit (h : Judged cfg d) (w : Write) : Judged cfg (d.submit cfg w) := by
  obtain ⟨hcont, hplaced⟩ := Ledger.apply_continues h.placed cfg.chain.crypto cfg.chain.params false w
  unfold Daemon.submit
  cases hr : d.ledger.apply cfg.chain.crypto cfg.chain.params false w with
  | mk ledger result =>
    rw [hr] at hcont hplaced
    cases result with
    | applied applied buffered =>
      simp only
      split_ifs
      all_goals exact h.grow hcont hplaced rfl rfl rfl
    | fail reason => exact h.grow hcont hplaced rfl rfl rfl
    | equivocation x y => exact h.grow hcont hplaced rfl rfl rfl
    | thrown message => exact h.grow hcont hplaced rfl rfl rfl

/-- Whatever an event brings, taking it in keeps the judgements. -/
theorem Judged.fed (h : Judged cfg d) (he : Judges cfg d e) : Judged cfg (d.fed cfg e) := by
  have hadd : ∀ e, Judges cfg d e → Judged cfg
      (match d.addCall e with | none => d | some a => (d.addAnchor cfg a).1) := by
    intro e he
    cases ha : d.addCall e with
    | none => exact h
    | some a => exact h.add (fun p => he.added a p ha) (he.unlinked a ha)
  unfold Daemon.fed
  split
  · exact h.onWrites _ _
  · exact h.onWrites _ _
  · exact h.submit _
  · exact hadd _ he

/-! ## What a step does about it -/

/-- Chains are their writers', and heads can be rebuilt. -/
def Sturdy (d : Daemon V) : Prop := d.ledger.Placed ∧ d.anchors.Rebuildable

theorem Judged.sturdy (h : Judged cfg d) : d.Sturdy := ⟨h.placed, h.rebuildable⟩

namespace Sturdy

theorem new (network : String) : (Daemon.new network : Daemon V).Sturdy :=
  ⟨Ledger.placed_empty, Grown.new.rebuildable⟩

theorem addAnchor (h : d.Sturdy) (hun : d.anchors.get a.id = none → d.anchors.Unlinked a) :
    (d.addAnchor cfg a).1.Sturdy := by
  refine ⟨h.1, ?_⟩
  show (d.anchors.add cfg.chain (d.checkAppRoot cfg) a).1.Rebuildable
  obtain ⟨hsame, -⟩ | ⟨heads, hacc, hadd⟩ :=
    add_cases d.anchors cfg.chain (d.checkAppRoot cfg) a
  · rw [hsame]
    exact h.2
  · rw [hadd]
    exact h.2.of_extended hacc (hacc.extended h.2.linked (hun hacc.fresh))

theorem maybeCheckpoint (h : d.Sturdy) : (d.maybeCheckpoint cfg).Sturdy := by
  unfold Daemon.maybeCheckpoint
  cases d.checkpointDue cfg with
  | none => exact h
  | some ckpt =>
    simp only
    unfold reBeaconHave
    exact ⟨h.1.pruneBelow _ _ _, h.2.prune _ _⟩

theorem ingestSnapshot (h : d.Sturdy) (snap : StoredSnapshot) :
    (d.ingestSnapshot cfg snap).1.Sturdy := by
  obtain ⟨-, state, -, hseed⟩ | ⟨-, stash, hsame⟩ := ingestSnapshot_cases cfg d snap
  · rw [hseed]
    exact ⟨h.1.seedCheckpoint _, h.2⟩
  · rw [hsame]
    exact h

theorem tryPendingSnapshot (h : d.Sturdy) : (d.tryPendingSnapshot cfg).Sturdy := by
  unfold Daemon.tryPendingSnapshot
  cases d.pendingSnapshot with
  | none => exact h
  | some snap =>
    have hi : (d.ingestSnapshot cfg snap).1.Sturdy := h.ingestSnapshot snap
    simp only
    cases hr : d.ingestSnapshot cfg snap with
    | mk d' accepted =>
      rw [hr] at hi
      cases accepted <;> exact hi

theorem moveTip (h : d.Sturdy) (m : TipMove) : (d.moveTip cfg m).Sturdy := by
  have ht : (d.onTip cfg).Sturdy := h.maybeCheckpoint.tryPendingSnapshot
  unfold Daemon.moveTip
  cases m.except <;> exact ht

theorem bufferOrphans (h : d.Sturdy) (anchors : List Anchor) : (d.bufferOrphans anchors).Sturdy := by
  unfold Daemon.bufferOrphans
  split_ifs <;> exact h

end Sturdy

/-- Adopting a floor leaves the ledger alone, and where none is adopted, everything. -/
theorem adoptFloor_frame (cfg : DaemonConfig V) (d : Daemon V) (candidates : List Anchor) :
    (d.adoptFloor cfg candidates).1.ledger = d.ledger ∧
      ((d.adoptFloor cfg candidates).2 = false → (d.adoptFloor cfg candidates).1 = d) := by
  unfold adoptFloor
  cases d.pendingSnapshot with
  | none => exact ⟨rfl, fun _ => rfl⟩
  | some snap =>
    simp only
    by_cases hfresh : (!d.anchors.fresh) = true
    · rw [if_pos hfresh]
      exact ⟨rfl, fun _ => rfl⟩
    rw [if_neg hfresh]
    cases candidates.find? (fun a => decide (a.id = snap.anchorId)) with
    | none => exact ⟨rfl, fun _ => rfl⟩
    | some floor =>
      simp only
      by_cases hquorum : (!d.snapshotQuorumMet cfg snap.anchorId) = true
      · rw [if_pos hquorum]
        exact ⟨rfl, fun _ => rfl⟩
      rw [if_neg hquorum]
      by_cases hroot : rootOfHeads cfg.chain.crypto snap.heads ≠ floor.stateRoot
      · rw [if_pos hroot]
        exact ⟨rfl, fun _ => rfl⟩
      rw [if_neg hroot]
      cases d.anchors.adopt cfg.chain floor snap.heads
          (gatherAncestry (byId candidates) (candidates.length + 1) floor) with
      | error reason => exact ⟨rfl, fun _ => rfl⟩
      | ok anchors => exact ⟨rfl, fun h => by simp at h⟩

namespace Sturdy

theorem resolveBootstrap (h : d.Sturdy)
    (hadopt : ∀ d₂, d.adoptFloor cfg d.orphanAnchors.values = (d₂, true) → d₂.anchors.Rebuildable) :
    (d.resolveBootstrap cfg).Sturdy := by
  obtain ⟨hledger, hsame⟩ := adoptFloor_frame cfg d d.orphanAnchors.values
  unfold Daemon.resolveBootstrap
  by_cases hfresh : (!d.anchors.fresh || decide (d.orphanAnchors.size = 0)) = true
  · rw [if_pos hfresh]
    exact h
  rw [if_neg hfresh]
  cases hr : d.adoptFloor cfg d.orphanAnchors.values with
  | mk d₂ adopted =>
    rw [hr] at hledger hsame
    cases adopted with
    | false =>
      show d₂.Sturdy
      rw [show d₂ = d from hsame rfl]
      exact h
    | true =>
      refine ⟨?_, hadopt d₂ hr⟩
      show d₂.ledger.Placed
      rw [show d₂.ledger = d.ledger from hledger]
      exact h.1

theorem of_eq (h : d.Sturdy) (hledger : d'.ledger = d.ledger) (hanchors : d'.anchors = d.anchors) :
    d'.Sturdy := by
  unfold Sturdy
  rw [hledger, hanchors]
  exact h

theorem onSnapshot (h : d.Sturdy) (conn : Conn) (snap : StoredSnapshot) :
    (d.onSnapshot cfg conn snap).Sturdy := by
  have hd : (d.recordOffer conn ⟨snap.anchorId, snap.height⟩).Sturdy := h.of_eq rfl rfl
  have hi : ((d.recordOffer conn ⟨snap.anchorId, snap.height⟩).ingestSnapshot cfg snap).1.Sturdy :=
    hd.ingestSnapshot snap
  unfold Daemon.onSnapshot
  cases hr : (d.recordOffer conn ⟨snap.anchorId, snap.height⟩).ingestSnapshot cfg snap with
  | mk d' accepted =>
    rw [hr] at hi
    cases accepted <;> exact hi

theorem finishIngest (h : d.Sturdy) (conn : Conn) (anchors : List Anchor) (before : Option String)
    (gap conflict : Bool)
    (hadopt : ∀ d₂, gap = true →
      (if conflict then d.pushBranch conn anchors else d).effectivelyFresh anchors = true →
      ((if conflict then d.pushBranch conn anchors else d).bufferOrphans anchors).adoptFloor cfg
        ((if conflict then d.pushBranch conn anchors else d).bufferOrphans
          anchors).orphanAnchors.values = (d₂, true) → d₂.anchors.Rebuildable) :
    (d.finishIngest cfg conn anchors before gap conflict).1.Sturdy := by
  have hpush : (if conflict then d.pushBranch conn anchors else d).Sturdy := by
    split
    · exact h.of_eq rfl rfl
    · exact h
  unfold Daemon.finishIngest
  simp only
  generalize (if conflict then d.pushBranch conn anchors else d) = d₀ at hpush hadopt ⊢
  by_cases hgap : (gap && d₀.effectivelyFresh anchors) = true
  · rw [if_pos hgap]
    obtain ⟨hg, hf⟩ := (Bool.and_eq_true _ _).mp hgap
    exact (hpush.bufferOrphans anchors).resolveBootstrap fun d₂ hd₂ => hadopt d₂ hg hf hd₂
  · rw [if_neg hgap]
    show (if gap then d₀.send conn (.anchorWant 0) else d₀).Sturdy
    split
    · exact hpush.of_eq rfl rfl
    · exact hpush

/-- The queue adds anchors and adopts floors. -/
theorem work (h : d.Sturdy) (he : Judges cfg d .work) : (d.work cfg).1.Sturdy := by
  unfold Daemon.work
  cases hq : d.anchorQueue with
  | nil => exact h
  | cons task rest =>
    have hd : ({ d with anchorQueue := rest } : Daemon V).Sturdy := h.of_eq rfl rfl
    cases task with
    | ingest conn anchors => exact h.of_eq rfl rfl
    | bootstrap =>
      refine hd.resolveBootstrap fun d₂ hd₂ => he.adopted _ d₂ ?_ hd₂
      unfold adoptCall
      rw [hq]
    | adding conn anchors todo before gap conflict =>
      cases todo with
      | nil =>
        refine hd.finishIngest conn anchors before gap conflict ?_
        rintro d₂ rfl hf hd₂
        refine he.adopted _ d₂ ?_ hd₂
        unfold adoptCall
        rw [hq]
        exact if_pos hf
      | cons a todo =>
        have hadd : (d.addAnchor cfg a).1.Sturdy := h.addAnchor (he.unlinked a (by
          unfold addCall
          rw [hq]))
        simp only
        cases hr : d.addAnchor cfg a with
        | mk d' r =>
          rw [hr] at hadd
          cases r <;> exact hadd.of_eq rfl rfl
    | relink todo =>
      cases todo with
      | nil => exact h.of_eq rfl rfl
      | cons a todo =>
        have hadd : (d.addAnchor cfg a).1.Sturdy := h.addAnchor (he.unlinked a (by
          unfold addCall
          rw [hq]))
        simp only
        cases hr : d.addAnchor cfg a with
        | mk d' r =>
          rw [hr] at hadd
          cases r <;> exact hadd.of_eq rfl rfl

theorem submitAnchor (h : d.Sturdy) (he : Judges cfg d (.submitAnchor a)) :
    (d.submitAnchor cfg a).1.Sturdy := by
  have hadd : (d.addAnchor cfg a).1.Sturdy := h.addAnchor (he.unlinked a rfl)
  unfold Daemon.submitAnchor
  cases hr : d.addAnchor cfg a with
  | mk d' r =>
    rw [hr] at hadd
    cases r <;> exact hadd

theorem init (h : d.Sturdy) (stored : Option StoredSnapshot) (ws : List Write) :
    (d.init cfg stored ws).Sturdy := by
  have hreplay : ∀ d : Daemon V, d.Sturdy → ({ d with
      ledger := (d.ledger.applyAll cfg.chain.crypto cfg.chain.params true ws).1 } : Daemon V).Sturdy :=
    fun d hd => ⟨(Ledger.applyAll_continues _ _ _ ws d.ledger hd.1).2, hd.2⟩
  unfold Daemon.init
  cases stored with
  | none => exact hreplay d h
  | some snap =>
    simp only
    cases cfg.app.deserialize snap.state with
    | none => exact h
    | some state =>
      have hd : ({ d with
          checkpointBase := some state
          ledger := d.ledger.seedCheckpoint cfg.chain.params snap.heads
          lastCheckpointHeight := snap.height
          lastSnapshot := some snap } : Daemon V).Sturdy := ⟨h.1.seedCheckpoint _, h.2⟩
      exact hreplay _ hd

theorem installGenesisRoot (h : d.Sturdy) : (d.installGenesisRoot cfg).Sturdy := by
  unfold Daemon.installGenesisRoot
  by_cases htip : d.anchors.tip.isSome = true
  · rw [if_pos htip]
    exact h
  rw [if_neg htip]
  cases hr : d.anchors.installGenesis cfg.chain (d.genesisFor cfg) ∅ with
  | error reason => exact h
  | ok anchors => exact ⟨h.1, (Grown.of_installed (h.2.installGenesis hr) rfl).rebuildable⟩

theorem bootstrapChainRoot (h : d.Sturdy) (mesh : Bool) :
    (d.bootstrapChainRoot cfg mesh).Sturdy := by
  unfold Daemon.bootstrapChainRoot
  by_cases htip : d.anchors.tip.isSome = true
  · rw [if_pos htip]
    exact h
  rw [if_neg htip]
  cases mesh with
  | false => exact h.installGenesisRoot
  | true =>
    unfold discardOffChainCheckpoint
    by_cases hheight : d.lastCheckpointHeight < 0
    · rw [if_pos hheight]
      exact h.installGenesisRoot
    · rw [if_neg hheight]
      have hd : ({ d with
          ledger := Ledger.empty
          lastCheckpointHeight := -1
          lastSnapshot := none
          checkpointBase := none } : Daemon V).Sturdy := ⟨Ledger.placed_empty, h.2⟩
      exact hd.installGenesisRoot.of_eq rfl rfl

theorem switchChannel (h : d.Sturdy) (name : String) : (d.switchChannel name).Sturdy := by
  unfold Daemon.switchChannel
  split_ifs
  · exact h
  · exact (Sturdy.new name).of_eq rfl rfl

end Sturdy

/-- A handler that takes no writes in leaves ledger and anchors alone, but for a checkpoint. -/
theorem Judged.handle (h : Judged cfg d) (conn : Conn) (m : SyncMessage) :
    (d.handle cfg conn m).Sturdy := by
  unfold Daemon.handle
  cases m with
  | hello root heads mode genesisId =>
    show (d.onHello cfg conn heads).Sturdy
    unfold Daemon.onHello
    split_ifs <;> exact h.sturdy.of_eq rfl rfl
  | want fromSeq =>
    show (d.onWant conn fromSeq).Sturdy
    unfold Daemon.onWant
    simp only
    split_ifs <;> exact h.sturdy.of_eq rfl rfl
  | writes ws => exact (h.onWrites conn ws).sturdy
  | announce ws => exact (h.onWrites conn ws).sturdy
  | anchorTip height weight id =>
    show (d.onAnchorTip conn height weight id).Sturdy
    unfold Daemon.onAnchorTip
    by_cases hheld : (d.anchors.get id).isSome = true
    · rw [if_pos hheld]
      exact h.sturdy
    rw [if_neg hheld]
    cases d.anchors.tip with
    | none =>
      simp only
      split_ifs <;> exact h.sturdy.of_eq rfl rfl
    | some t =>
      simp only
      split_ifs <;> exact h.sturdy.of_eq rfl rfl
  | anchorWant fromHeight =>
    show (d.onAnchorWant conn fromHeight).Sturdy
    unfold Daemon.onAnchorWant
    simp only
    split_ifs <;> exact h.sturdy.of_eq rfl rfl
  | anchorChain anchors => exact h.sturdy.of_eq rfl rfl
  | snapshotOffer offer =>
    show (d.onSnapshotOffer cfg conn offer).Sturdy
    unfold Daemon.onSnapshotOffer
    simp only
    split_ifs <;> exact h.sturdy.of_eq rfl rfl
  | snapshotWant =>
    show (d.onSnapshotWant conn).Sturdy
    unfold Daemon.onSnapshotWant
    cases d.lastSnapshot <;> exact h.sturdy.of_eq rfl rfl
  | snapshot snap => exact h.sturdy.onSnapshot conn snap
  | snapshotHave offer => exact h.sturdy

theorem Judged.react (h : Judged cfg d) (he : Judges cfg d e) : (d.react cfg e).1.Sturdy := by
  cases e with
  | message conn m => exact h.handle conn m
  | addPeer conn =>
    show (d.addPeer cfg conn).Sturdy
    unfold Daemon.addPeer
    simp only
    split <;> split <;> exact h.sturdy.of_eq rfl rfl
  | close conn => exact h.sturdy.of_eq rfl rfl
  | work => exact h.sturdy.work he
  | submit w => exact (h.submit w).sturdy
  | submitAnchor a => exact h.sturdy.submitAnchor he
  | init stored ws => exact h.sturdy.init stored ws
  | start => exact h.sturdy.of_eq rfl rfl
  | root mesh => exact h.sturdy.bootstrapChainRoot mesh
  | switchChannel name => exact h.sturdy.switchChannel name

theorem Judged.sturdy_step (h : Judged cfg d) (he : Judges cfg d e) : (step cfg d e).Sturdy := by
  have hr : (d.react cfg e).1.Sturdy := h.react he
  unfold Daemon.step
  cases hm : d.react cfg e with
  | mk d' m =>
    rw [hm] at hr
    cases m with
    | none => exact hr
    | some m => exact hr.moveTip m

/-! ## Runs -/

/-- One step keeps the judgements. -/
theorem Judged.step (h : Judged cfg d) (he : Judges cfg d e) : Judged cfg (step cfg d e) := by
  have hfed : Judged cfg (d.fed cfg e) := h.fed he
  obtain ⟨hplaced, hrebuildable⟩ := h.sturdy_step he
  by_cases hsame : (d.fed cfg e).SameBase (Daemon.step cfg d e)
  · refine hfed.grow ?_ hplaced hsame.anchors hsame.base hsame.height
    rw [hsame.ledger]
    exact .refl _
  · refine ⟨hplaced, hrebuildable, fun a p hap => ?_⟩
    obtain ⟨hdone, hkept⟩ := he.rebased hsame a p hap
    refine ⟨hdone, fun hall => ?_⟩
    obtain ⟨hap', hall', hview⟩ := hkept hall
    rw [(hfed.stored a p hap').2 hall', appRootFor_some, appRootFor_some, hview]

theorem Judged.new (network : String) : Judged cfg (Daemon.new network) where
  placed := Ledger.placed_empty
  rebuildable := Grown.new.rebuildable
  stored := fun _ _ h => absurd h.held (by simp [Holds, AnchorChain.get, Daemon.new, AnchorChain.new])

namespace Deferred

open Rollback

/-- A child of the anchor that certifies the first write, over a board that is not its parent's. -/
def bad : Anchor :=
  let body : AnchorBody := { above.toAnchorBody with appRoot := "00" }
  { body with time := ⟨0, "", ""⟩, id := idOf openConfig.crypto body ⟨0, "", ""⟩, sig := "" }

/-- The write comes first, -/
def early : List Event :=
  [.root false, .submit first, .submitAnchor boundary, .submitAnchor bad]

/-- or last. -/
def late : List Event :=
  [.root false, .submitAnchor boundary, .submitAnchor bad, .submit first]

theorem evaluated : (run (step config) (Daemon.new "gavl") early).anchors.get bad.id = none ∧
    ((run (step config) (Daemon.new "gavl") late).anchors.get bad.id).map (·.id) = some bad.id ∧
    (((run (step config) (Daemon.new "gavl") late).anchors.get bad.id).bind
      (run (step config) (Daemon.new "gavl") late).anchors.parent).map (·.id) = some boundary.id ∧
    (run (step config) (Daemon.new "gavl") late).lastCheckpointHeight < 0 ∧
    (run (step config) (Daemon.new "gavl") late).haveAllWrites
      ((run (step config) (Daemon.new "gavl") late).anchors.headsAt boundary.id) = true ∧
    ((run (step config) (Daemon.new "gavl") late).anchors.get bad.id).map (·.appRoot) = some "00" ∧
    "00" ≠ config.app.viewRoot ((run (step config) (Daemon.new "gavl") late).viewAt config
      (run (step config) (Daemon.new "gavl") late).anchors boundary.id) := by
  decide +kernel

end Deferred

end Daemon

end Gavl
