import Gavl.Consensus.SettlementTheorems
import Gavl.Sync.Node

/-!
# Whose anchor a bootstrapped floor is

A quorum vouches for the id of a checkpoint's anchor; the anchor under that id comes from
whoever served the suffix. `adoptFloor` takes it as it comes: it compares ids and state roots
but never hashes an anchor, so the body it installs is the vouched one exactly when whoever
sent it chose to send a body that hashes to its id.
-/

namespace Gavl

open Runs AnchorChain

variable {C : Crypto} {A a x t floor : Anchor} {heads : Heads} {below linked rest : List Anchor}

/-! ## Honest chains -/

/-- A run of anchors as their producers made them, down to block 0. -/
structure HonestRun (C : Crypto) (run : List Anchor) : Prop where
  hashes : ∀ x ∈ run, idOf C x.toAnchorBody x.time = x.id
  /-- Writers are keys, so none has the name that the canonical encoding drops. -/
  named : ∀ x ∈ run, x.headsDelta.get? "__proto__" = none
  linked : run.IsChain (fun x y => x.prev = some y.id)
  rooted : ∀ x ∈ run.getLast?, x.prev = none

/-- An anchor of the honest chain, with the heads it certifies and its true ancestors. -/
structure Honest (C : Crypto) (A : Anchor) (heads : Heads) (below : List Anchor) : Prop where
  run : HonestRun C (A :: below)
  heads : rootOfHeads C heads = A.stateRoot

theorem HonestRun.tail (h : HonestRun C (t :: rest)) (hne : rest ≠ []) : HonestRun C rest where
  hashes := fun x hx => h.hashes x (List.mem_cons_of_mem t hx)
  named := fun x hx => h.named x (List.mem_cons_of_mem t hx)
  linked := h.linked.tail
  rooted := fun x hx => h.rooted x (by rwa [List.getLast?_cons_of_ne_nil hne])

/-- The anchor an honest one names is the next of the run. -/
theorem HonestRun.next (h : HonestRun C (t :: rest)) {id : String} (hprev : t.prev = some id) :
    ∃ t' rest', rest = t' :: rest' ∧ t'.id = id := by
  cases rest with
  | nil =>
    have hroot := h.rooted t (by simp)
    rw [hprev] at hroot
    exact absurd hroot (by simp)
  | cons t' rest' =>
    have hlink : t.prev = some t'.id := (List.isChain_cons_cons.mp h.linked).1
    rw [hprev, Option.some.injEq] at hlink
    exact ⟨t', rest', rfl, hlink.symm⟩

/-! ## Bodies under an id -/

/-- The same body, also in the one entry an id does not cover. -/
structure SameContent (b b' : AnchorBody) : Prop extends SameBody b b' where
  proto_eq : b.headsDelta.get? "__proto__" = b'.headsDelta.get? "__proto__"

/-- The anchor's id is the hash of a body like its own, and its delta has no entry the hash would
not cover. -/
def HashesToId (C : Crypto) (a : Anchor) : Prop :=
  (∃ b time, SameBody b a.toAnchorBody ∧ idOf C b time = a.id) ∧
    a.headsDelta.get? "__proto__" = none

theorem SameBody.symm {b b' : AnchorBody} (h : SameBody b b') : SameBody b' b :=
  ⟨h.height_eq.symm, h.prev_eq.symm, h.producer_eq.symm, h.nonce_eq.symm, h.difficulty_eq.symm,
    h.stateRoot_eq.symm, h.appRoot_eq.symm, h.weight_eq.symm,
    fun w hw => (h.headsDelta_eq w hw).symm⟩

theorem SameBody.trans {b b' b'' : AnchorBody} (h : SameBody b b') (h' : SameBody b' b'') :
    SameBody b b'' :=
  ⟨h.height_eq.trans h'.height_eq, h.prev_eq.trans h'.prev_eq, h.producer_eq.trans h'.producer_eq,
    h.nonce_eq.trans h'.nonce_eq, h.difficulty_eq.trans h'.difficulty_eq,
    h.stateRoot_eq.trans h'.stateRoot_eq, h.appRoot_eq.trans h'.appRoot_eq,
    h.weight_eq.trans h'.weight_eq,
    fun w hw => (h.headsDelta_eq w hw).trans (h'.headsDelta_eq w hw)⟩

/-- Under an honest anchor's id, hashing to the id and being that anchor are the same. -/
theorem hashesToId_iff (hC : C.CollisionFree) (ht : idOf C t.toAnchorBody t.time = t.id)
    (hproto : t.headsDelta.get? "__proto__" = none) (hid : x.id = t.id) :
    HashesToId C x ↔ SameContent x.toAnchorBody t.toAnchorBody := by
  constructor
  · rintro ⟨⟨b, time, hb, hhash⟩, hnone⟩
    have hbt : SameBody b t.toAnchorBody :=
      idOf_inj hC.injective (hhash.trans (hid.trans ht.symm))
    exact ⟨hb.symm.trans hbt, hnone.trans hproto.symm⟩
  · intro h
    exact ⟨⟨t.toAnchorBody, t.time, h.toSameBody.symm, ht.trans hid.symm⟩,
      h.proto_eq.trans hproto⟩

/-! ## The run below a floor -/

/-- Each of `linked` is the honest anchor at its place. -/
def AsBelow (linked below : List Anchor) : Prop :=
  ∀ (i : ℕ) (x : Anchor), linked[i]? = some x →
    ∃ t : Anchor, below[i]? = some t ∧ SameContent x.toAnchorBody t.toAnchorBody

/-- Linked below an honest anchor, candidates hash to their ids exactly when they are its true
ancestors. -/
theorem asBelow_iff (hC : C.CollisionFree) (hrun : HonestRun C (t :: below))
    (hprev : a.prev = t.prev) (candidates : List Anchor) :
    AsBelow (linkedRun a candidates) below ↔ ∀ x ∈ linkedRun a candidates, HashesToId C x := by
  induction candidates generalizing a t below with
  | nil => simp [AsBelow, linkedRun]
  | cons y candidates ih =>
    unfold linkedRun
    split_ifs with hlink
    · simp [AsBelow]
    · push Not at hlink
      obtain ⟨t', below', rfl, hid⟩ := hrun.next (hprev ▸ hlink.1)
      have hrun' := hrun.tail (List.cons_ne_nil t' below')
      have hmem : t' ∈ t :: t' :: below' := by simp
      have hhead := hashesToId_iff hC (hrun.hashes t' hmem) (hrun.named t' hmem) hid.symm
      have hcons : AsBelow (y :: linkedRun y candidates) (t' :: below') ↔
          SameContent y.toAnchorBody t'.toAnchorBody ∧ AsBelow (linkedRun y candidates) below' := by
        constructor
        · intro h
          obtain ⟨u, hu, hsame⟩ := h 0 y rfl
          rw [List.getElem?_cons_zero, Option.some.injEq] at hu
          exact ⟨hu ▸ hsame, fun i x hx => h (i + 1) x hx⟩
        · rintro ⟨hsame, hrest⟩ i x hx
          cases i with
          | zero =>
            rw [List.getElem?_cons_zero, Option.some.injEq] at hx
            exact ⟨t', rfl, hx ▸ hsame⟩
          | succ i => exact hrest i x hx
      rw [hcons, List.forall_mem_cons, ← hhead]
      refine and_congr_right fun hy => ?_
      exact ih hrun' (hhead.mp hy).prev_eq

/-! ## What is installed -/

/-- A floor with its linked run, on top of what the chain keeps. -/
theorem adopt_eq_ok {chain : ChainConfig} {c c' : AnchorChain} {ancestry : List Anchor}
    (h : c.adopt chain floor heads ancestry = .ok c') :
    c'.floorId = some floor.id ∧ c'.floorHeads = heads ∧
      c'.anchors = ((linkedRun floor ancestry).foldl (fun m a => m.set a.id a) c.adoptBase).set
        floor.id floor := by
  unfold adopt at h
  simp only at h
  split_ifs at h
  cases hobj : floorObjection chain floor (linkedRun floor ancestry) with
  | some reason => simp [hobj] at h
  | none =>
    rw [hobj] at h
    simp only [Except.ok.injEq] at h
    subst h
    exact ⟨rfl, rfl, rfl⟩

theorem floor_adoptedAt (floor : Anchor) (heads : Heads) (linked : List Anchor) :
    (adoptedAt floor heads linked).floorId.bind (adoptedAt floor heads linked).get
      = some floor := by
  unfold AnchorChain.get adoptedAt
  rw [Option.bind_some, OrderedMap.get?_set_self]

namespace Daemon

variable {V : Type} {cfg : DaemonConfig V} {d d' : Daemon V} {candidates : List Anchor}

/-- What `adoptFloor` picks from the candidates: the one under the pending checkpoint's id, and
those linked below it. -/
def picked (d : Daemon V) (candidates : List Anchor) : Option (Anchor × List Anchor) :=
  d.pendingSnapshot.bind (fun snap =>
    (candidates.find? (fun a => decide (a.id = snap.anchorId))).map (fun floor =>
      (floor, linkedRun floor (gatherAncestry (byId candidates) (candidates.length + 1) floor))))

/-- A successful `adoptFloor` installs what it picked, under an id enough peers vouch for. -/
theorem adoptFloor_eq_true (h : d.adoptFloor cfg candidates = (d', true)) :
    ∃ snap floor linked, d.pendingSnapshot = some snap ∧
      d.picked candidates = some (floor, linked) ∧ floor.id = snap.anchorId ∧
      d.snapshotQuorumMet cfg snap.anchorId = true ∧
      rootOfHeads cfg.chain.crypto snap.heads = floor.stateRoot ∧
      d'.anchors.floorId = some floor.id ∧ d'.anchors.floorHeads = snap.heads ∧
      d'.anchors.anchors
        = (linked.foldl (fun m a => m.set a.id a) d.anchors.adoptBase).set floor.id floor := by
  unfold adoptFloor at h
  cases hsnap : d.pendingSnapshot with
  | none => simp [hsnap] at h
  | some snap =>
    simp only [hsnap] at h
    split at h
    · simp at h
    cases hfind : candidates.find? (fun a => decide (a.id = snap.anchorId)) with
    | none => simp [hfind] at h
    | some floor =>
      simp only [hfind] at h
      split at h
      · simp at h
      split at h
      · simp at h
      rename_i hquorum hroot
      have hid : floor.id = snap.anchorId := by simpa using List.find?_some hfind
      have hpick : d.picked candidates = some (floor, linkedRun floor
          (gatherAncestry (byId candidates) (candidates.length + 1) floor)) := by
        unfold picked
        rw [hsnap, Option.bind_some, hfind, Option.map_some]
      refine ⟨snap, floor, _, rfl, hpick, hid, by simpa using hquorum, by simpa using hroot, ?_⟩
      cases hadopt : d.anchors.adopt cfg.chain floor snap.heads
          (gatherAncestry (byId candidates) (candidates.length + 1) floor) with
      | error e => simp [hadopt] at h
      | ok c =>
        simp only [hadopt, Prod.mk.injEq, and_true] at h
        subst h
        exact adopt_eq_ok hadopt

/-- Enough vouchers and a matching state root are all it asks for. -/
theorem adoptFloor_of {snap : StoredSnapshot} {c : AnchorChain}
    (hsnap : d.pendingSnapshot = some snap) (hfresh : d.anchors.fresh = true)
    (hfind : candidates.find? (fun a => decide (a.id = snap.anchorId)) = some floor)
    (hquorum : d.snapshotQuorumMet cfg snap.anchorId = true)
    (hroot : rootOfHeads cfg.chain.crypto snap.heads = floor.stateRoot)
    (hadopt : d.anchors.adopt cfg.chain floor snap.heads
      (gatherAncestry (byId candidates) (candidates.length + 1) floor) = .ok c) :
    d.adoptFloor cfg candidates = ({ d with anchors := c }, true) := by
  unfold adoptFloor
  simp only [hsnap, hfresh, Bool.not_true, Bool.false_eq_true, if_false, hfind, hquorum, ne_eq,
    hroot, not_true_eq_false, hadopt]

/-! ## Vouched floors -/

/-- The state in which a step calls `adoptFloor`, on the buffered orphans. -/
def adoptCall (d : Daemon V) : Event → Option (Daemon V)
  | .work =>
    match d.anchorQueue with
    | .bootstrap :: rest => some { d with anchorQueue := rest }
    | .adding conn anchors [] _ true conflict :: rest =>
      let d := { d with anchorQueue := rest }
      let d := if conflict then d.pushBranch conn anchors else d
      if d.effectivelyFresh anchors then some (d.bufferOrphans anchors) else none
    | _ => none
  | _ => none

/-- The floor of the chain is `A`: its body, its heads, and the run linked below it. -/
structure FloorIs (c : AnchorChain) (linked : List Anchor) (A : Anchor) (heads : Heads)
    (below : List Anchor) : Prop where
  body : ∃ floor, c.floorId.bind c.get = some floor ∧
    SameContent floor.toAnchorBody A.toAnchorBody
  heads : ∀ w, c.floorHeads.get? w = heads.get? w
  ancestors : AsBelow linked below

/-- If `adoptFloor` succeeds under the id of `A`, the floor it installs is `A`. -/
def FloorVouched (cfg : DaemonConfig V) (A : Anchor) (heads : Heads) (below : List Anchor)
    (d : Daemon V) : Prop :=
  ∀ d' floor linked, d.adoptFloor cfg d.orphanAnchors.values = (d', true) →
    d.picked d.orphanAnchors.values = some (floor, linked) → floor.id = A.id →
      FloorIs d'.anchors linked A heads below

/-- If `adoptFloor` succeeds under an id, what it picked hashes to the ids it is under. -/
def PickedHashes (cfg : DaemonConfig V) (id : String) (d : Daemon V) : Prop :=
  ∀ d' floor linked, d.adoptFloor cfg d.orphanAnchors.values = (d', true) →
    d.picked d.orphanAnchors.values = some (floor, linked) → floor.id = id →
      ∀ x ∈ floor :: linked, HashesToId cfg.chain.crypto x

theorem linked_of_picked (h : d.picked candidates = some (floor, linked)) :
    ∃ ancestry, linked = linkedRun floor ancestry := by
  unfold picked at h
  obtain ⟨snap, -, hmap⟩ := Option.bind_eq_some_iff.mp h
  obtain ⟨f, -, hf⟩ := Option.map_eq_some_iff.mp hmap
  rw [Prod.mk.injEq] at hf
  obtain ⟨rfl, rfl⟩ := hf
  exact ⟨_, rfl⟩

/-- An adopted floor is the vouched anchor exactly when what was picked hashes to its ids. -/
theorem floorVouched_iff (hC : cfg.chain.crypto.CollisionFree)
    (hA : Honest cfg.chain.crypto A heads below) :
    FloorVouched cfg A heads below d ↔ PickedHashes cfg A.id d := by
  refine forall_congr' fun d' => forall_congr' fun floor => forall_congr' fun linked =>
    imp_congr_right fun hadopt => imp_congr_right fun hpick => imp_congr_right fun hid => ?_
  obtain ⟨snap, floor', linked', -, hpick', -, -, hroot, hfloorId, hheads, hstore⟩ :=
    adoptFloor_eq_true hadopt
  rw [hpick, Option.some.injEq, Prod.mk.injEq] at hpick'
  obtain ⟨rfl, rfl⟩ := hpick'
  obtain ⟨ancestry, rfl⟩ := linked_of_picked hpick
  have hget : d'.anchors.floorId.bind d'.anchors.get = some floor := by
    rw [hfloorId, Option.bind_some, AnchorChain.get, hstore, OrderedMap.get?_set_self]
  have hmem : A ∈ A :: below := List.mem_cons_self
  have hfloor := hashesToId_iff hC (hA.run.hashes A hmem) (hA.run.named A hmem) hid
  rw [List.forall_mem_cons]
  constructor
  · rintro ⟨⟨f, hf, hsame⟩, -, hbelow⟩
    rw [hget, Option.some.injEq] at hf
    subst hf
    exact ⟨hfloor.mpr hsame, (asBelow_iff hC hA.run hsame.prev_eq ancestry).mp hbelow⟩
  · rintro ⟨hhash, hlinked⟩
    have hsame := hfloor.mp hhash
    refine ⟨⟨floor, hget, hsame⟩, fun w => ?_,
      (asBelow_iff hC hA.run hsame.prev_eq ancestry).mpr hlinked⟩
    -- the snapshot's heads are bound by the state root, which the body fixes
    rw [hheads]
    exact rootOfHeads_inj hC.injective (hroot.trans (hsame.stateRoot_eq.trans hA.heads.symm)) w

/-- **Vouched floors.** Over any run, the floor adopted under an honest anchor's id is that anchor,
with its true ancestors, exactly when the candidates picked for it hash to their ids. -/
theorem floors_vouched_iff (hC : cfg.chain.crypto.CollisionFree)
    (hA : Honest cfg.chain.crypto A heads below) (d : Daemon V) (events : List Event) :
    Along (step cfg) (fun d e => ∀ d', adoptCall d e = some d' → FloorVouched cfg A heads below d')
        d events ↔
      Along (step cfg) (fun d e => ∀ d', adoptCall d e = some d' → PickedHashes cfg A.id d')
        d events :=
  along_congr (fun _ _ => forall_congr' fun _ => imp_congr_right fun _ => floorVouched_iff hC hA)
    d events

/-! ## A forged floor -/

namespace Forged

/-- Two peers must vouch, and no two inputs of the hash collide. -/
def config : DaemonConfig View where
  chain := { openConfig with crypto := ⟨fun b => 0 :: b, fun _ _ _ => true⟩ }
  app := boardApp ⟨fun b => 0 :: b, fun _ _ _ => true⟩ ⟨fun _ => true⟩
  adoptQuorum := 2
  checkpointEvery := 16
  anchorKeepMargin := 256
  mode := "hash/standin"

def honestPeer : Conn := ⟨0, some "a"⟩
def lyingPeer : Conn := ⟨1, some "b"⟩

def root : Anchor := (Daemon.new "gavl" : Daemon View).genesisFor config

/-- The vouched anchor. -/
def vouched : Anchor := assembled config.chain.crypto 1 (some root) "p" ∅ ∅

/-- Its id over a body with another predecessor, another difficulty and far more weight. -/
def forged : Anchor :=
  { vouched with prev := some "elsewhere", difficulty := 1000, weight := 1000000 }

def offer : SnapshotOffer := ⟨vouched.id, 1⟩

def snap : StoredSnapshot := ⟨vouched.id, 1, ∅, serializeView emptyView⟩

/-- While it waits for a chain to join, a node hears of the checkpoint from both peers and gets
the anchor from one. -/
def events : List Event :=
  [.message honestPeer (.snapshotOffer offer), .message lyingPeer (.snapshot snap),
    .message lyingPeer (.anchorChain [forged]), .work, .work, .work]

/-- The node when the batch has been gone through. -/
def gapped : Daemon View :=
  { (Daemon.new "gavl" : Daemon View) with
    snapshotOffers := ((∅ : OrderedMap Conn SnapshotOffer).set honestPeer offer).set lyingPeer offer
    anchorQueue := [.adding lyingPeer [forged] [] none true false]
    pendingSnapshot := some snap }

theorem quorum_missed : ((Daemon.new "gavl" : Daemon View).recordOffer honestPeer
    offer).snapshotQuorumMet config vouched.id = false := by
  unfold snapshotQuorumMet recordOffer Daemon.new
  rw [OrderedMap.set_entries_of_new rfl]
  simp [config, offer]

theorem run_events : run (step config) (Daemon.new "gavl") events = gapped := by
  have hoffer : step config (Daemon.new "gavl") (.message honestPeer (.snapshotOffer offer))
      = (Daemon.new "gavl" : Daemon View).recordOffer honestPeer offer := by
    show (Daemon.new "gavl" : Daemon View).onSnapshotOffer config honestPeer offer = _
    unfold onSnapshotOffer
    simp only [show offer.anchorId = vouched.id from rfl, quorum_missed, Bool.and_false]
    rfl
  unfold events
  rw [run_cons, hoffer]
  rfl

/-- The node when it asks for a floor. -/
def waiting : Daemon View :=
  { gapped with
    anchorQueue := []
    orphanAnchors := (∅ : OrderedMap String Anchor).set forged.id forged }

theorem orphans_waiting : waiting.orphanAnchors.values = [forged] := by
  unfold waiting OrderedMap.values
  rw [OrderedMap.set_entries_of_new rfl]
  rfl

theorem quorum_met : waiting.snapshotQuorumMet config vouched.id = true := by
  unfold snapshotQuorumMet waiting gapped
  rw [OrderedMap.set_entries_of_new (OrderedMap.get?_set_of_ne _ _ (by decide)),
    OrderedMap.set_entries_of_new rfl]
  simp only [OrderedMap.entries_empty, List.nil_append, List.cons_append, offer,
    List.filter_cons, decide_true, if_true, List.filter_nil, List.map_cons, List.map_nil]
  decide

theorem adoptFloor_waiting :
    waiting.adoptFloor config [forged]
      = ({ waiting with
            anchors := adoptedAt forged ∅
              (linkedRun forged (gatherAncestry (byId [forged]) 2 forged)) }, true) := by
  have hfind : [forged].find? (fun a => decide (a.id = snap.anchorId)) = some forged := by
    rw [List.find?_cons_of_pos]
    exact decide_eq_true rfl
  exact adoptFloor_of rfl rfl hfind quorum_met rfl (adopt_new rfl rfl)

theorem collisionFree : config.chain.crypto.CollisionFree :=
  ⟨fun _ _ h => (List.cons.inj h).2, fun b => List.cons_ne_nil 0 b⟩

theorem honest : Honest config.chain.crypto vouched ∅ [root] where
  run :=
    { hashes := by
        intro x hx
        rcases List.mem_pair.mp hx with rfl | rfl <;> rfl
      named := by
        intro x hx
        rcases List.mem_pair.mp hx with rfl | rfl <;> rfl
      linked := List.isChain_pair.mpr rfl
      rooted := by
        intro x hx
        obtain rfl : root = x := by simpa using hx
        rfl }
  heads := rfl

end Forged

open Forged in
/-- With a quorum of two and a collision-free hash, one lying peer has a fresh node adopt its own
weight, difficulty and predecessor under the vouched id. -/
theorem forged_floor_adopted :
    config.chain.crypto.CollisionFree ∧ Honest config.chain.crypto vouched ∅ [root] ∧
      ¬ Along (step config) (fun d e => ∀ d', adoptCall d e = some d' →
          FloorVouched config vouched ∅ [root] d') (Daemon.new "gavl") (events ++ [.work]) := by
  refine ⟨collisionFree, honest, fun h => ?_⟩
  have hcall := (along_append.mp h).2.1
  rw [run_events] at hcall
  have hadopt := adoptFloor_waiting
  rw [← orphans_waiting] at hadopt
  obtain ⟨s, floor, linked, hs, hpick, hid, -⟩ := adoptFloor_eq_true hadopt
  obtain rfl : snap = s := Option.some.inj hs
  have hvouched : FloorVouched config vouched ∅ [root] waiting := hcall waiting rfl
  obtain ⟨⟨f, hf, hsame⟩, -, -⟩ := hvouched _ floor linked hadopt hpick hid
  rw [floor_adoptedAt, Option.some.injEq] at hf
  have hweight := hsame.weight_eq
  rw [← hf] at hweight
  exact absurd hweight (by decide)

open Forged in
/-- The equivalence at the run of the example. -/
theorem floors_vouched_iff_forged :
    Along (step config) (fun d e => ∀ d', adoptCall d e = some d' →
        FloorVouched config vouched ∅ [root] d') (Daemon.new "gavl") (events ++ [.work]) ↔
      Along (step config) (fun d e => ∀ d', adoptCall d e = some d' →
        PickedHashes config vouched.id d') (Daemon.new "gavl") (events ++ [.work]) :=
  floors_vouched_iff collisionFree honest (Daemon.new "gavl") (events ++ [.work])

end Daemon
end Gavl
