import Gavl.Sync.IdleTheorems
import Gavl.Sync.JudgeTheorems
import Gavl.Sync.Link

/-!
# Write sync converges

As long as one of two nodes lacks a write that the other has, some message on its way answers for
it: a message with the next write, a request that will be answered with it, a hello that will be
answered with a request or with a hello, or what makes the other node itself change, and a node that
changes says hello. So where nothing is on its way, nothing is lacking.
-/

namespace Gavl

open Runs

variable {C : Crypto} {params : ChainParams} {ws : List Write} {w : Write} {v : String}

/-! ## Unpruned ledgers -/

namespace Ledger

variable {L : Ledger} {heads : Heads}

theorem baseSeq_prunedAt (c : WriterChain) (writer : String) (h : Head) :
    (c.prunedAt C params writer h).baseSeq = h.seq + 1 := by
  have key : ∀ (l : List Write) (r : WriterChain),
      (l.foldl (fun r w => (r.append C params false w).1) r).baseSeq = r.baseSeq := by
    intro l
    induction l with
    | nil => exact fun r => rfl
    | cons w l ih =>
      intro r
      exact (ih _).trans (WriterChain.append_continues C params false r w).1.baseSeq
  exact key _ _

/-- A seeded ledger is pruned, unless there was nothing to seed. -/
theorem seedCheckpoint_of_unpruned (h : (L.seedCheckpoint params heads).Unpruned) :
    L.seedCheckpoint params heads = L := by
  have hnone : heads.entries = [] := by
    refine List.eq_nil_iff_forall_not_mem.mpr fun e he => ?_
    have hget : heads.get? e.1 = some e.2 := (OrderedMap.get?_eq_some_iff _ _ _).mpr he
    have hchain : (L.seedCheckpoint params heads).chains.get? e.1
        = some (WriterChain.resumeAt params e.1 (e.2.seq + 1) e.2.id) := by
      rw [chains_seedCheckpoint, OrderedMap.get?_overlay, OrderedMap.get?_mapEntries, hget]
      rfl
    exact absurd (h _ _ hchain) (Nat.succ_ne_zero _)
  unfold seedCheckpoint
  rw [hnone]
  rfl

/-- A ledger pruned below heads that it holds is pruned, unless there were none. -/
theorem pruneBelow_of_unpruned (hL : L.Unpruned) (hheld : L.Holds heads)
    (h : (L.pruneBelow C params heads).Unpruned) : L.pruneBelow C params heads = L := by
  have hnone : heads.entries = [] := by
    refine List.eq_nil_iff_forall_not_mem.mpr fun e he => ?_
    have hget : heads.get? e.1 = some e.2 := (OrderedMap.get?_eq_some_iff _ _ _).mpr he
    have hid := hheld e.1 e.2 hget
    unfold idAt at hid
    cases hc : L.chains.get? e.1 with
    | none => simp [hc] at hid
    | some c =>
      have hbase := hL e.1 c hc
      have hchain : (L.pruneBelow C params heads).chains.get? e.1
          = some (c.prunedAt C params e.1 e.2) := by
        rw [get?_pruneBelow, hc, hget]
        simp only [Option.map_some]
        rw [if_neg (by omega)]
      have hzero := h _ _ hchain
      rw [baseSeq_prunedAt] at hzero
      exact absurd hzero (Nat.succ_ne_zero _)
  unfold pruneBelow
  rw [hnone]
  rfl

end Ledger

/-! ## What the handlers send -/

namespace Daemon

variable {V : Type} {cfg : DaemonConfig V} {d d' : Daemon V} {conn : Conn}

/-- A checkpoint that leaves the ledger unpruned is a checkpoint of nothing. -/
theorem steady_ingestSnapshot (snap : StoredSnapshot)
    (hun : (d.ingestSnapshot cfg snap).1.ledger.Unpruned) :
    d.Steady (d.ingestSnapshot cfg snap).1 := by
  obtain ⟨anchor, state, -, heq⟩ | ⟨-, stash, heq⟩ := ingestSnapshot_cases cfg d snap
  · rw [heq] at hun ⊢
    have hledger : (d.seed cfg snap state).ledger = d.ledger :=
      Ledger.seedCheckpoint_of_unpruned hun
    exact ⟨hledger, rfl, [], by rw [List.append_nil]; rfl, fun e he => absurd he List.not_mem_nil⟩
  · rw [heq]
    have hidle : d.Idle { d with pendingSnapshot := stash } := .of_same rfl rfl rfl rfl
    exact hidle.toSteady

theorem steady_tryPendingSnapshot (hun : (d.tryPendingSnapshot cfg).ledger.Unpruned) :
    d.Steady (d.tryPendingSnapshot cfg) := by
  unfold tryPendingSnapshot at hun ⊢
  cases hsnap : d.pendingSnapshot with
  | none => exact (Idle.refl d).toSteady
  | some snap =>
    have hingest := @steady_ingestSnapshot V cfg d snap
    simp only [hsnap] at hun ⊢
    cases hr : d.ingestSnapshot cfg snap with
    | mk d' accepted =>
      rw [hr] at hingest hun
      cases accepted
      · exact hingest hun
      · exact (hingest hun).trans (Idle.advertise d').toSteady

theorem steady_maybeCheckpoint (hL : d.ledger.Unpruned)
    (hun : (d.maybeCheckpoint cfg).ledger.Unpruned) : d.Steady (d.maybeCheckpoint cfg) := by
  unfold maybeCheckpoint at hun ⊢
  cases hdue : d.checkpointDue cfg with
  | none => exact (Idle.refl d).toSteady
  | some ckpt =>
    have hheld : d.ledger.Holds (d.anchors.headsAt ckpt.id) :=
      haveAllWrites_iff.mp (haveAllWrites_of_checkpointDue hdue)
    simp only [hdue] at hun ⊢
    have hledger := Ledger.pruneBelow_of_unpruned hL hheld hun
    refine ⟨hledger, rfl, d.conns.map (fun c => (c, _)), rfl, fun e he => ?_⟩
    obtain ⟨c, -, rfl⟩ := List.mem_map.mp he
    trivial

theorem steady_moveTip (hL : d.ledger.Unpruned) (m : TipMove)
    (hun : (d.moveTip cfg m).ledger.Unpruned) : d.Steady (d.moveTip cfg m) := by
  have htold : SyncMessage.TellsOf (d.onTip cfg).ledger (.anchorTip m.tip.height m.tip.weight m.tip.id) :=
    trivial
  have hsend : (d.onTip cfg).Steady (d.moveTip cfg m) := by
    unfold moveTip
    cases m.except with
    | none => exact (Idle.broadcast _ htold).toSteady
    | some conn => exact (Idle.broadcastExcept _ conn htold).toSteady
  have htip : (d.onTip cfg).ledger.Unpruned := hsend.ledger ▸ hun
  have htry : (d.maybeCheckpoint cfg).Steady (d.onTip cfg) := steady_tryPendingSnapshot htip
  have hckpt : (d.maybeCheckpoint cfg).ledger.Unpruned := htry.ledger ▸ htip
  exact ((steady_maybeCheckpoint hL hckpt).trans htry).trans hsend

/-- What a node does with anchors leaves an unpruned ledger alone, unless it prunes it. -/
theorem steady_anchors {e : Event} (he : e.anchorSide = true) (hL : d.ledger.Unpruned)
    (hun : (d.step cfg e).ledger.Unpruned) : d.Steady (d.step cfg e) := by
  have hreact : d.Idle (d.react cfg e).1 := by
    cases e with
    | work => exact .work cfg d
    | submitAnchor a => exact .submitAnchor cfg d a
    | start => exact .of_same rfl rfl rfl rfl
    | _ => exact absurd he (by simp [Event.anchorSide])
  unfold step at hun ⊢
  cases hr : d.react cfg e with
  | mk d' move =>
    rw [hr] at hreact hun
    cases move with
    | none => exact hreact.toSteady
    | some m =>
      have hL' : d'.ledger.Unpruned := hreact.ledger ▸ hL
      exact hreact.toSteady.trans (steady_moveTip hL' m hun)

/-- Nor does a message without writes touch it. -/
theorem steady_handle {m : SyncMessage} (hwrites : ∀ ws, m ≠ .writes ws)
    (hannounce : ∀ ws, m ≠ .announce ws) (hun : (d.handle cfg conn m).ledger.Unpruned) :
    d.Steady (d.handle cfg conn m) := by
  by_cases hsnapshot : ∃ snap, m = .snapshot snap
  · obtain ⟨snap, rfl⟩ := hsnapshot
    have hoffer : d.Idle (d.recordOffer conn ⟨snap.anchorId, snap.height⟩) := .of_same rfl rfl rfl rfl
    have hingest := @steady_ingestSnapshot V cfg (d.recordOffer conn ⟨snap.anchorId, snap.height⟩) snap
    change d.Steady (d.onSnapshot cfg conn snap)
    change (d.onSnapshot cfg conn snap).ledger.Unpruned at hun
    unfold onSnapshot at hun ⊢
    cases hr : (d.recordOffer conn ⟨snap.anchorId, snap.height⟩).ingestSnapshot cfg snap with
    | mk d' accepted =>
      rw [hr] at hingest hun
      cases accepted with
      | false =>
        have hqueue : d'.Idle { d' with anchorQueue := d'.anchorQueue ++ [.bootstrap] } :=
          .of_same rfl rfl rfl rfl
        exact (hoffer.toSteady.trans (hingest hun)).trans hqueue.toSteady
      | true => exact (hoffer.toSteady.trans (hingest hun)).trans (Idle.advertise d').toSteady
  · exact (Idle.handle cfg d conn hwrites hannounce fun snap hm => hsnapshot ⟨snap, hm⟩).toSteady

/-- A node that took in writes tells the sender of its heads, if anything changed. -/
theorem onWrites_spec {L' : Ledger} {ws learned : List Write} {changed : Bool}
    (hall : d.ledger.applyAll cfg.chain.crypto cfg.chain.params false ws = (L', some (learned, changed))) :
    (d.onWrites cfg conn ws).ledger = L' ∧ (d.onWrites cfg conn ws).conns = d.conns ∧
      ∃ out, (d.onWrites cfg conn ws).sent = d.sent ++ out ∧ ∀ m, (conn, m) ∈ out ↔
        changed = true ∧ m = (d.onWrites cfg conn ws).hello cfg := by
  have hothers : ∀ (l : List Conn) (a m : SyncMessage),
      (conn, m) ∉ (l.filter (fun c => decide (c ≠ conn))).map (fun c => (c, a)) := by
    intro l a m hm
    obtain ⟨c, hc, heq⟩ := List.mem_map.mp hm
    have hne := (List.mem_filter.mp hc).2
    rw [decide_eq_true_eq] at hne
    exact hne (Prod.mk.inj heq).1
  unfold onWrites
  rw [hall]
  simp only
  cases learned with
  | nil =>
    cases changed with
    | false => exact ⟨rfl, rfl, [], by simp, by simp⟩
    | true => exact ⟨rfl, rfl, _, rfl, fun m => by simp [hello, send]⟩
  | cons w ws =>
    cases changed with
    | false =>
      refine ⟨rfl, rfl, _, rfl, fun m => ?_⟩
      exact iff_of_false (hothers _ _ m) (by simp)
    | true =>
      refine ⟨rfl, rfl, _, List.append_assoc _ _ _, fun m => ?_⟩
      rw [List.mem_append]
      constructor
      · rintro (hm | hm)
        · exact absurd hm (hothers _ _ m)
        · exact ⟨rfl, (Prod.mk.inj (List.mem_singleton.mp hm)).2⟩
      · rintro ⟨-, rfl⟩
        exact .inr (List.mem_singleton.mpr rfl)

/-- A local write is announced on every connection. -/
theorem submit_spec {L' : Ledger} {w : Write} {more : List Write} {buffered : Bool}
    (happly : d.ledger.apply cfg.chain.crypto cfg.chain.params false w = (L', .applied more buffered))
    (hmore : more ≠ []) :
    (d.submit cfg w).ledger = L' ∧ (d.submit cfg w).conns = d.conns ∧
      (d.submit cfg w).sent = d.sent ++ d.conns.map (fun c => (c, .announce more)) := by
  unfold submit
  rw [happly]
  simp only
  rw [if_neg (by rwa [List.isEmpty_iff])]
  exact ⟨rfl, rfl, rfl⟩

/-- What is wanted of a writer is told by both heads. -/
theorem get?_diffWant (d : Daemon V) (theirs : Heads) (v : String) :
    (d.diffWant theirs).get? v = (theirs.get? v).bind (fun their =>
      match d.ledger.headOf v with
      | none => some 0
      | some mine =>
        if mine.seq < their.seq then some (mine.seq + 1)
        else if d.ledger.idAt v their.seq ≠ some their.id then some their.seq
        else none) := by
  unfold diffWant
  rw [OrderedMap.get?_foldl_set theirs (fun v their => match d.ledger.headOf v with
    | none => some 0
    | some mine =>
      if mine.seq < their.seq then some (mine.seq + 1)
      else if d.ledger.idAt v their.seq ≠ some their.id then some their.seq
      else none)]
  intro want e
  rw [Ledger.get?_heads]
  cases d.ledger.headOf e.1 with
  | none => rfl
  | some mine =>
    simp only
    split_ifs <;> rfl

end Daemon

/-! ## What a ledger tells -/

namespace Ledger.PartOf

variable {L L' : Ledger}

/-- A ledger holds what its own heads say. -/
theorem holds_heads (hL : L.PartOf C params ws) : L.Holds L.heads := by
  intro v head hhead
  rw [get?_heads] at hhead
  obtain ⟨hnone, -⟩ | ⟨mine, hmine, -, hid⟩ := hL.headOf_cases v
  · rw [hnone] at hhead
    exact absurd hhead (by simp)
  · rw [hmine, Option.some.injEq] at hhead
    exact hhead ▸ hid

/-- Held heads are below the reach. -/
theorem lt_reach (hL : L.PartOf C params ws) {heads : Heads} (hheld : L.Holds heads) {head : Head}
    (hhead : heads.get? v = some head) : head.seq < L.reach v := by
  have hid := hheld v head hhead
  rw [hL.idAt_eq] at hid
  obtain ⟨w, hw, -⟩ := Option.map_eq_some_iff.mp hid
  exact (List.getElem?_eq_some_iff.mp hw).1

/-- What is held stays held as the ledger grows. -/
theorem holds_of_grown (hL : L.PartOf C params ws) (hL' : L'.PartOf C params ws)
    (hgrown : ∀ v, L.heldOf v <+: L'.heldOf v) {heads : Heads} (hheld : L.Holds heads) :
    L'.Holds heads := by
  intro v head hhead
  have hid := hheld v head hhead
  rw [hL.idAt_eq] at hid
  obtain ⟨w, hw, hwid⟩ := Option.map_eq_some_iff.mp hid
  obtain ⟨more, hmore⟩ := hgrown v
  rw [hL'.idAt_eq, ← hmore, List.getElem?_append_left (List.getElem?_eq_some_iff.mp hw).1, hw]
  exact congrArg some hwid

end Ledger.PartOf

/-! ## Messages that answer -/

namespace Link

variable {V : Type} {cfg : DaemonConfig V} {conn : Bool → Conn} {owner : String → Bool}
  {s s' t : Link V} {x : Bool} {m : SyncMessage}

/-- A writer of whom the other node lacks writes. -/
def Behind (owner : String → Bool) (s : Link V) (v : String) : Prop :=
  s.learned owner v < s.written owner v

/-- A message on its way to `x` pulls the next write of `v`: it wants it, or carries it. -/
inductive Pulls (owner : String → Bool) (s : Link V) (x : Bool) (m : SyncMessage) (v : String) : Prop
  | want {fromSeq : OrderedMap String ℕ} {n : ℕ} (hm : m = .want fromSeq) (hx : x = owner v)
      (hn : fromSeq.get? v = some n) (hle : n ≤ s.learned owner v)
  | data {w : Write} (hx : x = !owner v) (hw : w ∈ m.carried) (hv : w.writer = v)
      (hs : w.seq = s.learned owner v)

theorem Pulls.congr (h : s.Pulls owner x m v) (hlearned : s'.learned owner v = s.learned owner v) :
    s'.Pulls owner x m v := by
  cases h with
  | want hm hx hn hle => exact .want hm hx hn (hlearned ▸ hle)
  | data hx hw hv hs => exact .data hx hw hv (hs.trans hlearned.symm)

/-- Some message does. -/
def Pulled (owner : String → Bool) (s : Link V) (v : String) : Prop :=
  ∃ x m, m ∈ s.flight x ∧ s.Pulls owner x m v

/-- A hello on its way to `x` that is about `v`: it goes to the node of `v`, or tells the other node
of a write that it lacks. -/
def Greets (owner : String → Bool) (s : Link V) (x : Bool) (m : SyncMessage) (v : String) : Prop :=
  ∃ root heads mode genesis, m = .hello root heads mode genesis ∧
    (x = owner v ∨ x = !owner v ∧ ∃ head, heads.get? v = some head ∧ s.learned owner v ≤ head.seq)

theorem Greets.congr (h : s.Greets owner x m v) (hlearned : s'.learned owner v = s.learned owner v) :
    s'.Greets owner x m v := by
  unfold Greets
  rw [hlearned]
  exact h

/-- What the other node lacks of `v` is answered for. -/
inductive Covered (conn : Bool → Conn) (owner : String → Bool) (s : Link V) (v : String) : Prop
  /-- The node of `v` is still to greet. -/
  | ungreeted (h : conn (owner v) ∉ (s.node (owner v)).conns)
  | pulled (h : s.Pulled owner v)
  | greeted (y : Bool) (m : SyncMessage) (hm : m ∈ s.flight y) (h : s.Greets owner y m v)
  /-- The node of `v` lacks writes itself, and will say hello when it gets one. -/
  | pulling (u : String) (hu : owner u = !owner v) (hb : s.Behind owner u) (h : s.Pulled owner u)

/-- While the other nodes learn nothing and no message is lost, what is covered stays so. -/
theorem Covered.persist (h : s.Covered conn owner v)
    (hlearned : ∀ u, s'.learned owner u = s.learned owner u)
    (hwritten : ∀ u, s.written owner u ≤ s'.written owner u)
    (hconns : conn (owner v) ∉ (s.node (owner v)).conns →
      conn (owner v) ∉ (s'.node (owner v)).conns)
    (hflight : ∀ y m, m ∈ s.flight y → m ∈ s'.flight y) : s'.Covered conn owner v := by
  have hpulled : ∀ u, s.Pulled owner u → s'.Pulled owner u := by
    rintro u ⟨y, m, hm, hp⟩
    exact ⟨y, m, hflight y m hm, hp.congr (hlearned u)⟩
  cases h with
  | ungreeted h => exact .ungreeted (hconns h)
  | pulled h => exact .pulled (hpulled v h)
  | greeted y m hm h => exact .greeted y m (hflight y m hm) (h.congr (hlearned v))
  | pulling u hu hb h =>
    have hle := hwritten u
    have heq := hlearned u
    unfold Behind at hb
    exact .pulling u hu (by unfold Behind; omega) (hpulled u h)

/-- All but one message are still there when it is taken. -/
theorem mem_taken {i : ℕ} (hi : (s.flight x)[i]? = some m) {y : Bool} {m' : SyncMessage}
    (hm' : m' ∈ s.flight y) : m' ∈ (s.taken x i).flight y ∨ y = x ∧ m' = m := by
  by_cases hy : y = x
  · subst hy
    by_cases heq : m' = m
    · exact .inr ⟨rfl, heq⟩
    · left
      show m' ∈ Function.update s.flight y ((s.flight y).eraseIdx i) y
      rw [Function.update_self, List.mem_eraseIdx_iff_getElem?]
      obtain ⟨j, hj⟩ := List.mem_iff_getElem?.mp hm'
      refine ⟨j, fun hji => heq ?_, hj⟩
      rw [hji, hi, Option.some.injEq] at hj
      exact hj.symm
  · left
    show m' ∈ Function.update s.flight x ((s.flight x).eraseIdx i) y
    rw [Function.update_of_ne hy]
    exact hm'

theorem mem_of_taken {i : ℕ} {y : Bool} {m' : SyncMessage} (hm' : m' ∈ (s.taken x i).flight y) :
    m' ∈ s.flight y := by
  by_cases hy : y = x
  · subst hy
    change m' ∈ Function.update s.flight y ((s.flight y).eraseIdx i) y at hm'
    rw [Function.update_self] at hm'
    exact List.mem_of_mem_eraseIdx hm'
  · change m' ∈ Function.update s.flight x ((s.flight x).eraseIdx i) y at hm'
    rw [Function.update_of_ne hy] at hm'
    exact hm'

/-- What a taken message covered, it covered by pulling or by greeting. -/
theorem Covered.taken {i : ℕ} (hi : (s.flight x)[i]? = some m) (h : s.Covered conn owner v) :
    (s.taken x i).Covered conn owner v ∨
      s.Pulls owner x m v ∨ (∃ u, owner u = !owner v ∧ s.Behind owner u ∧ s.Pulls owner x m u) ∨
      s.Greets owner x m v := by
  have hpulled : ∀ u, s.Pulled owner u → (s.taken x i).Pulled owner u ∨ s.Pulls owner x m u := by
    rintro u ⟨y, m', hm', hp⟩
    rcases mem_taken hi hm' with hin | ⟨rfl, rfl⟩
    · exact .inl ⟨y, m', hin, hp.congr rfl⟩
    · exact .inr hp
  cases h with
  | ungreeted h => exact .inl (.ungreeted h)
  | pulled h =>
    rcases hpulled v h with h | h
    · exact .inl (.pulled h)
    · exact .inr (.inl h)
  | greeted y m' hm' h =>
    rcases mem_taken hi hm' with hin | ⟨rfl, rfl⟩
    · exact .inl (.greeted y m' hin h)
    · exact .inr (.inr (.inr h))
  | pulling u hu hb h =>
    rcases hpulled u h with h | h
    · exact .inl (.pulling u hu hb h)
    · exact .inr (.inr (.inl ⟨u, hu, hb, h⟩))

/-! ## What holds of every state -/

/-- Ledgers and messages have parts of one history, and of a writer nothing that its node does not
have. -/
structure Linked (C : Crypto) (params : ChainParams) (owner : String → Bool) (ws : List Write)
    (s : Link V) : Prop where
  part : ∀ x, (s.node x).ledger.PartOf C params ws
  known : ∀ x, (s.node x).ledger.PartOf C params (s.known owner ws)
  writes : ∀ x m, m ∈ s.flight x → ∀ w ∈ m.carried, w ∈ s.known owner ws
  heads : ∀ x root heads mode genesis, .hello root heads mode genesis ∈ s.flight x →
    (s.node (!x)).ledger.Holds heads

/-- And what is lacking is answered for. -/
structure Synced (C : Crypto) (params : ChainParams) (conn : Bool → Conn) (owner : String → Bool)
    (ws : List Write) (s : Link V) : Prop extends s.Linked C params owner ws where
  covered : ∀ v, s.Behind owner v → s.Covered conn owner v

theorem mem_known : w ∈ s.known owner ws ↔ w ∈ ws ∧ w.seq < s.written owner w.writer := by
  unfold known
  rw [List.mem_filter, decide_eq_true_eq]

theorem histories_known (h : Histories C params ws) : Histories C params (s.known owner ws) :=
  h.filter fun a _ b _ hv hs hb => by
    rw [decide_eq_true_eq] at hb ⊢
    rw [hv]
    omega

/-- No ledger of known writes has more of a writer than the writer's node. -/
theorem reach_le {L : Ledger} (hL : L.PartOf C params (s.known owner ws)) (v : String) :
    L.reach v ≤ s.written owner v := by
  by_contra hlt
  unfold Ledger.reach at hlt
  have hget := List.getElem?_eq_getElem (show s.written owner v < (L.heldOf v).length by omega)
  obtain ⟨hmem, hv⟩ := hL.mem_heldOf (List.mem_of_getElem? hget)
  have hseq := hL.seq_eq hget
  have hbelow := (mem_known.mp hmem).2
  rw [hv] at hbelow
  omega

/-! ## One node acts -/

theorem mem_posted {c : Conn} {d d' : Daemon V} {out : List (Conn × SyncMessage)}
    (hout : d'.sent = d.sent ++ out) : m ∈ posted c d d' ↔ (c, m) ∈ out := by
  unfold posted
  rw [hout, List.drop_left, List.mem_filterMap]
  constructor
  · rintro ⟨e, he, heq⟩
    split_ifs at heq with hc
    rw [← Option.some.inj heq, ← hc]
    exact he
  · intro hm
    exact ⟨(c, m), hm, if_pos rfl⟩

variable {e : Daemon.Event}

theorem node_act_self : (s.act cfg conn x e).node x = (s.node x).step cfg e := Function.update_self _ _ _

theorem node_act_other : (s.act cfg conn x e).node (!x) = s.node (!x) :=
  Function.update_of_ne (by simp) _ _

theorem mem_flight_act {y : Bool} : m ∈ (s.act cfg conn x e).flight y ↔
    m ∈ s.flight y ∨ y = !x ∧ m ∈ posted (conn x) (s.node x) ((s.node x).step cfg e) := by
  show m ∈ Function.update s.flight (!x) _ y ↔ _
  by_cases hy : y = !x
  · subst hy
    rw [Function.update_self, List.mem_append]
    simp
  · rw [Function.update_of_ne hy]
    simp [hy]

/-- Of the two nodes one is `x`. -/
theorem side_cases (x y : Bool) : y = x ∨ y = !x := by
  cases x <;> cases y <;> simp

theorem ledger_act (hledger : ((s.node x).step cfg e).ledger = (s.node x).ledger) (y : Bool) :
    ((s.act cfg conn x e).node y).ledger = (s.node y).ledger := by
  rcases side_cases x y with rfl | rfl
  · rw [node_act_self, hledger]
  · rw [node_act_other]

theorem known_congr (hledger : ∀ y, (s'.node y).ledger = (s.node y).ledger) :
    s'.known owner ws = s.known owner ws := by
  unfold known written
  simp only [hledger]

theorem carried_of_tells {L : Ledger} (hm : m.TellsOf L) (hw : w ∈ m.carried) :
    ∃ v, w ∈ L.heldOf v := by
  cases m with
  | writes ws => exact hm w hw
  | announce ws => exact hm w hw
  | _ => exact absurd hw List.not_mem_nil

/-- A node that takes nothing in and tells what it holds. -/
theorem Linked.act (h : s.Linked C params owner ws)
    (hledger : ((s.node x).step cfg e).ledger = (s.node x).ledger)
    (htells : ∀ m ∈ posted (conn x) (s.node x) ((s.node x).step cfg e), m.TellsOf (s.node x).ledger) :
    (s.act cfg conn x e).Linked C params owner ws := by
  have hsame := @ledger_act V cfg conn s x e hledger
  have hknown : (s.act cfg conn x e).known owner ws = s.known owner ws := known_congr hsame
  refine ⟨fun y => ?_, fun y => ?_, fun y m hm w hw => ?_, fun y root heads mode genesis hm => ?_⟩
  · rw [hsame]
    exact h.part y
  · rw [hsame, hknown]
    exact h.known y
  · rw [hknown]
    rcases mem_flight_act.mp hm with hm | ⟨-, hm⟩
    · exact h.writes y m hm w hw
    · obtain ⟨v, hv⟩ := carried_of_tells (htells m hm) hw
      exact ((h.known x).mem_heldOf hv).1
  · rw [hsame]
    rcases mem_flight_act.mp hm with hm | ⟨rfl, hposted⟩
    · exact h.heads y root heads mode genesis hm
    · have hown : heads = (s.node x).ledger.heads := htells _ hposted
      rw [hown, Bool.not_not]
      exact (h.part x).holds_heads

theorem Linked.taken {i : ℕ} (h : s.Linked C params owner ws) : (s.taken x i).Linked C params owner ws :=
  ⟨h.part, h.known, fun y m hm => h.writes y m (mem_of_taken hm),
    fun y root heads mode genesis hm => h.heads y root heads mode genesis (mem_of_taken hm)⟩

/-- Then what is covered stays so. -/
theorem Covered.act (h : s.Covered conn owner v)
    (hledger : ((s.node x).step cfg e).ledger = (s.node x).ledger)
    (hconns : owner v = x → ((s.node x).step cfg e).conns = (s.node x).conns) :
    (s.act cfg conn x e).Covered conn owner v := by
  have hsame := @ledger_act V cfg conn s x e hledger
  refine h.persist (fun u => ?_) (fun u => ?_) (fun hnone => ?_) fun y m hm =>
    mem_flight_act.mpr (.inl hm)
  · unfold learned
    rw [hsame]
  · unfold written
    rw [hsame]
  · rcases side_cases x (owner v) with hx | hx
    · rw [hx] at hnone ⊢
      rw [node_act_self, hconns hx]
      exact hnone
    · rw [hx] at hnone ⊢
      rw [node_act_other]
      exact hnone

/-- A steady event. -/
theorem tells_of_steady (hst : (s.node x).Steady ((s.node x).step cfg e)) :
    ∀ m ∈ posted (conn x) (s.node x) ((s.node x).step cfg e), m.TellsOf (s.node x).ledger := by
  intro m hm
  obtain ⟨out, hout, htold⟩ := hst.told
  exact htold _ ((mem_posted hout).mp hm)

/-- What a node with `v` among its writers lets the other know of, once it greets. -/
theorem greets_hello (h : s.Linked C params owner ws) (hv : owner v = x) (hb : s.Behind owner v) :
    s.Greets owner (!x) ((s.node x).hello cfg) v := by
  unfold Behind written at hb
  rw [hv] at hb
  obtain ⟨-, hzero⟩ | ⟨head, hhead, hseq, -⟩ := (h.part x).headOf_cases v
  · omega
  · refine ⟨_, _, _, _, rfl, .inr ⟨by rw [hv], head, ?_, by omega⟩⟩
    rw [Ledger.get?_heads]
    exact hhead

/-! ## Each event -/

theorem Synced.connect (h : s.Synced C params conn owner ws) :
    (s.act cfg conn x (.addPeer (conn x))).Synced C params conn owner ws := by
  obtain ⟨hledger, -, -, out, hout, htold⟩ := Daemon.addPeer_spec cfg (s.node x) (conn x)
  have hposted : ∀ m, m ∈ posted (conn x) (s.node x) ((s.node x).addPeer cfg (conn x)) ↔
      (conn x, m) ∈ (conn x, (s.node x).hello cfg) :: out := fun m => mem_posted hout
  have hlinked : (s.act cfg conn x (.addPeer (conn x))).Linked C params owner ws := by
    refine h.act hledger fun m hm => ?_
    rcases List.mem_cons.mp ((hposted m).mp hm) with hm | hm
    · rw [(Prod.mk.inj hm).2]
      rfl
    · exact htold _ hm
  refine ⟨hlinked, fun v hb => ?_⟩
  have hsame := @ledger_act V cfg conn s x (.addPeer (conn x)) hledger
  have hb' : s.Behind owner v := by
    unfold Behind learned written at hb ⊢
    rwa [hsame, hsame] at hb
  rcases side_cases x (owner v) with hx | hx
  · -- its hello tells of all that is lacking
    have hgreets : s.Greets owner (!x) ((s.node x).hello cfg) v := greets_hello h.toLinked hx hb'
    refine .greeted (!x) ((s.node x).hello cfg)
      (mem_flight_act.mpr (.inr ⟨rfl, (hposted _).mpr List.mem_cons_self⟩)) (hgreets.congr ?_)
    unfold learned
    rw [hsame]
  · refine (h.covered v hb').act hledger fun hv => ?_
    rw [hx] at hv
    exact absurd hv (by simp)

/-- Anchors have nothing to do with it. -/
theorem Synced.steady (h : s.Synced C params conn owner ws)
    (hst : (s.node x).Steady ((s.node x).step cfg e)) :
    (s.act cfg conn x e).Synced C params conn owner ws := by
  refine ⟨h.act hst.ledger (tells_of_steady hst), fun v hb => ?_⟩
  have hsame := @ledger_act V cfg conn s x e hst.ledger
  have hb' : s.Behind owner v := by
    unfold Behind learned written at hb ⊢
    rwa [hsame, hsame] at hb
  exact (h.covered v hb').act hst.ledger fun _ => hst.conns

/-- What is wanted from a peer is what the peer's own writers wrote, from where it is lacking on. -/
theorem wanted_spec (h : s.Linked C params owner ws) (hws : Histories C params ws) {heads : Heads}
    (hheld : (s.node (!x)).ledger.Holds heads) {u : String} {n : ℕ}
    (hn : ((s.node x).diffWant heads).get? u = some n) :
    owner u = !x ∧ s.Behind owner u ∧ n ≤ s.learned owner u := by
  rw [Daemon.get?_diffWant] at hn
  obtain ⟨their, htheir, hn⟩ := Option.bind_eq_some_iff.mp hn
  have hlt := (h.part (!x)).lt_reach hheld htheir
  obtain ⟨hle, hreach⟩ : (s.node x).ledger.reach u ≤ their.seq ∧ n = (s.node x).ledger.reach u := by
    obtain ⟨hnone, hzero⟩ | ⟨mine, hmine, hseq, -⟩ := (h.part x).headOf_cases u
    · rw [hnone, Option.some.injEq] at hn
      omega
    · simp only [hmine] at hn
      split_ifs at hn with hahead hid
      · rw [Option.some.injEq] at hn
        omega
      · -- both hold the same write there, so the ids agree
        exfalso
        refine hid ?_
        have hpeer := hheld u their htheir
        rw [(h.part (!x)).idAt_eq] at hpeer
        obtain ⟨w, hw, hwid⟩ := Option.map_eq_some_iff.mp hpeer
        obtain ⟨hmem, rfl⟩ := (h.part (!x)).mem_heldOf (List.mem_of_getElem? hw)
        have hwseq := (h.part (!x)).seq_eq hw
        have hown := ((h.part x).get?_heldOf hws hmem).mpr (by omega)
        rw [(h.part x).idAt_eq, ← hwseq, hown]
        exact congrArg some hwid
  have howner : owner u = !x := by
    rcases side_cases x (owner u) with hx | hx
    · have hmost := reach_le (h.known (!x)) u
      unfold written at hmost
      rw [hx] at hmost
      omega
    · exact hx
  unfold Behind learned written
  rw [howner, Bool.not_not]
  exact ⟨rfl, by omega, by omega⟩

/-- A node whose peer lacks writes of its writers finds itself ahead. -/
theorem aheadOf_of_behind (h : s.Linked C params owner ws) {heads : Heads}
    (hheld : (s.node (!x)).ledger.Holds heads) (hv : owner v = x) (hb : s.Behind owner v) :
    (s.node x).aheadOf heads = true := by
  unfold Behind learned written at hb
  rw [hv] at hb
  obtain ⟨-, hzero⟩ | ⟨mine, hmine, hseq, -⟩ := (h.part x).headOf_cases v
  · omega
  · have hentry : (v, mine) ∈ (s.node x).ledger.heads.entries := by
      rw [← OrderedMap.get?_eq_some_iff, Ledger.get?_heads]
      exact hmine
    unfold Daemon.aheadOf
    refine List.any_eq_true.mpr ⟨(v, mine), hentry, ?_⟩
    cases htheir : heads.get? v with
    | none => simp
    | some their =>
      have hlt := (h.part (!x)).lt_reach hheld htheir
      simp only [decide_eq_true_eq]
      omega

theorem Synced.hello (h : s.Synced C params conn owner ws) (hws : Histories C params ws) {i : ℕ}
    {root : String} {heads : Heads} {mode genesis : Option String}
    (hi : (s.flight x)[i]? = some (.hello root heads mode genesis)) :
    ((s.taken x i).act cfg conn x (.message (conn x) (.hello root heads mode genesis))).Synced
      C params conn owner ws := by
  have hheld : (s.node (!x)).ledger.Holds heads :=
    h.heads x root heads mode genesis (List.mem_of_getElem? hi)
  have hst : (s.node x).Steady
      ((s.node x).step cfg (.message (conn x) (.hello root heads mode genesis))) :=
    (Daemon.Idle.handle cfg (s.node x) (conn x) (m := .hello root heads mode genesis)
      (by simp) (by simp) (by simp)).toSteady
  have hlinked : (s.taken x i).Linked C params owner ws := h.toLinked.taken
  refine ⟨hlinked.act hst.ledger (tells_of_steady hst), fun v hb => ?_⟩
  have hsame := @ledger_act V cfg conn (s.taken x i) x
    (.message (conn x) (.hello root heads mode genesis)) hst.ledger
  have hlearned : ∀ u, ((s.taken x i).act cfg conn x
      (.message (conn x) (.hello root heads mode genesis))).learned owner u = s.learned owner u :=
    fun u => congrArg (Ledger.reach · u) (hsame _)
  have hwritten : ∀ u, ((s.taken x i).act cfg conn x
      (.message (conn x) (.hello root heads mode genesis))).written owner u = s.written owner u :=
    fun u => congrArg (Ledger.reach · u) (hsame _)
  have hb' : s.Behind owner v := by
    unfold Behind at hb ⊢
    rwa [hlearned, hwritten] at hb
  have hsent : (s.node x).step cfg (.message (conn x) (.hello root heads mode genesis))
      = (s.node x).onHello cfg (conn x) heads := rfl
  -- a want that goes out pulls all it asks for
  have hwant : ∀ u n, ((s.node x).diffWant heads).get? u = some n → owner u = (!x) →
      n ≤ s.learned owner u → ((s.taken x i).act cfg conn x
        (.message (conn x) (.hello root heads mode genesis))).Pulled owner u := by
    intro u n hn hu hle
    have hsize : ((s.node x).diffWant heads).size ≠ 0 := by
      intro hzero
      have hmem := (OrderedMap.get?_eq_some_iff _ _ _).mp hn
      rw [List.length_eq_zero_iff.mp hzero] at hmem
      exact absurd hmem List.not_mem_nil
    refine ⟨!x, .want ((s.node x).diffWant heads), mem_flight_act.mpr (.inr ⟨rfl, ?_⟩),
      .want rfl hu.symm hn (by rw [hlearned]; exact hle)⟩
    have hout : ((s.node x).onHello cfg (conn x) heads).sent
        = (s.node x).sent ++ [(conn x, .want ((s.node x).diffWant heads))] := by
      unfold Daemon.onHello
      rw [if_pos hsize]
      rfl
    exact (mem_posted hout).mpr List.mem_cons_self
  rcases (h.covered v hb').taken hi with hcov | hpulls | ⟨u, -, -, hpulls⟩ | hgreets
  · exact hcov.act hst.ledger fun _ => hst.conns
  · cases hpulls with
    | want hm => exact absurd hm (by simp)
    | data hx hw => exact absurd hw List.not_mem_nil
  · cases hpulls with
    | want hm => exact absurd hm (by simp)
    | data hx hw => exact absurd hw List.not_mem_nil
  · obtain ⟨root', heads', mode', genesis', heq, hv | ⟨hv, head, hhead, hle⟩⟩ := hgreets
    · -- the node of `v` hears of a peer that is behind
      by_cases hsize : ((s.node x).diffWant heads).size ≠ 0
      · obtain ⟨⟨u, n⟩, hmem⟩ := List.exists_mem_of_ne_nil _ (mt List.length_eq_zero_iff.mpr hsize)
        have hn := (OrderedMap.get?_eq_some_iff _ _ _).mpr hmem
        obtain ⟨hu, hbu, hle⟩ := wanted_spec h.toLinked hws hheld hn
        refine .pulling u (by rw [hu, hv]) ?_ (hwant u n hn hu hle)
        unfold Behind at hbu ⊢
        rwa [hlearned, hwritten]
      · have hahead := aheadOf_of_behind h.toLinked hheld hv.symm hb'
        have hout : ((s.node x).onHello cfg (conn x) heads).sent
            = (s.node x).sent ++ [(conn x, (s.node x).hello cfg)] := by
          unfold Daemon.onHello
          rw [if_neg hsize, if_pos hahead]
          rfl
        refine .greeted (!x) ((s.node x).hello cfg)
          (mem_flight_act.mpr (.inr ⟨rfl, (mem_posted hout).mpr List.mem_cons_self⟩)) ?_
        exact (greets_hello h.toLinked hv.symm hb').congr (hlearned v)
    · -- the other node hears of a write it lacks
      obtain ⟨-, rfl, -, -⟩ := SyncMessage.hello.inj heq
      have hn : ((s.node x).diffWant heads).get? v = some (s.learned owner v) := by
        unfold learned at hle ⊢
        rw [← hv] at hle ⊢
        rw [Daemon.get?_diffWant, hhead, Option.bind_some]
        obtain ⟨hnone, hzero⟩ | ⟨mine, hmine, hseq, -⟩ := (h.part x).headOf_cases v
        · rw [hnone, hzero]
        · simp only [hmine]
          rw [if_pos (by omega), hseq]
      exact .pulled (hwant v _ hn (by rw [hv, Bool.not_not]) le_rfl)

theorem Synced.want (h : s.Synced C params conn owner ws) {i : ℕ} {fromSeq : OrderedMap String ℕ} (hi : (s.flight x)[i]? = some (.want fromSeq)) :
    ((s.taken x i).act cfg conn x (.message (conn x) (.want fromSeq))).Synced
      C params conn owner ws := by
  have hst : (s.node x).Steady ((s.node x).step cfg (.message (conn x) (.want fromSeq))) :=
    (Daemon.Idle.handle cfg (s.node x) (conn x) (m := .want fromSeq)
      (by simp) (by simp) (by simp)).toSteady
  have hlinked : (s.taken x i).Linked C params owner ws := h.toLinked.taken
  refine ⟨hlinked.act hst.ledger (tells_of_steady hst), fun v hb => ?_⟩
  have hsame := @ledger_act V cfg conn (s.taken x i) x (.message (conn x) (.want fromSeq)) hst.ledger
  have hlearned : ∀ u, ((s.taken x i).act cfg conn x
      (.message (conn x) (.want fromSeq))).learned owner u = s.learned owner u :=
    fun u => congrArg (Ledger.reach · u) (hsame _)
  have hwritten : ∀ u, ((s.taken x i).act cfg conn x
      (.message (conn x) (.want fromSeq))).written owner u = s.written owner u :=
    fun u => congrArg (Ledger.reach · u) (hsame _)
  have hbehind : ∀ u, s.Behind owner u ↔ ((s.taken x i).act cfg conn x
      (.message (conn x) (.want fromSeq))).Behind owner u := fun u => by
    unfold Behind
    rw [hlearned, hwritten]
  -- the reply has the next write of every writer that was wanted and is lacking
  have hreply : ∀ u, s.Behind owner u → s.Pulls owner x (.want fromSeq) u →
      ((s.taken x i).act cfg conn x (.message (conn x) (.want fromSeq))).Pulled owner u := by
    intro u hbu hpulls
    cases hpulls with
    | data hx hw => exact absurd hw List.not_mem_nil
    | @want _ n hm hx hn hle =>
      obtain rfl := SyncMessage.want.inj hm
      have hlt : s.learned owner u < ((s.node x).ledger.heldOf u).length := by
        unfold Behind written Ledger.reach at hbu
        rw [← hx] at hbu
        exact hbu
      have hget := List.getElem?_eq_getElem hlt
      have hmem := ((h.part x).mem_heldOf (List.mem_of_getElem? hget)).2
      have hseq := (h.part x).seq_eq hget
      have hin : ((s.node x).ledger.heldOf u)[s.learned owner u] ∈
          fromSeq.entries.flatMap (fun e => (s.node x).ledger.writesFrom e.1 e.2) := by
        refine List.mem_flatMap.mpr ⟨_, (OrderedMap.get?_eq_some_iff _ _ _).mp hn, ?_⟩
        rw [(h.part x).writesFrom_eq, List.mem_iff_getElem?]
        refine ⟨s.learned owner u - n, ?_⟩
        rw [List.getElem?_drop, Nat.add_sub_cancel' hle, hget]
      have hout : ((s.node x).onWant (conn x) fromSeq).sent = (s.node x).sent ++ [(conn x,
          .writes (fromSeq.entries.flatMap (fun e => (s.node x).ledger.writesFrom e.1 e.2)))] := by
        unfold Daemon.onWant
        simp only
        rw [if_neg (by
          rw [List.isEmpty_iff]
          exact List.ne_nil_of_mem hin)]
        rfl
      refine ⟨!x, _, mem_flight_act.mpr (.inr ⟨rfl, (mem_posted hout).mpr List.mem_cons_self⟩), ?_⟩
      exact .data (by rw [hx]) hin hmem (by rw [hlearned]; exact hseq)
  rcases (h.covered v ((hbehind v).mpr hb)).taken hi with hcov | hpulls | ⟨u, hu, hbu, hpulls⟩ | hgreets
  · exact hcov.act hst.ledger fun _ => hst.conns
  · exact .pulled (hreply v ((hbehind v).mpr hb) hpulls)
  · exact .pulling u hu ((hbehind u).mp hbu) (hreply u hbu hpulls)
  · obtain ⟨root, heads, mode, genesis, hm, -⟩ := hgreets
    exact absurd hm (by simp)

/-- A message that is about no writes. -/
theorem Synced.other (h : s.Synced C params conn owner ws) {i : ℕ} (hi : (s.flight x)[i]? = some m)
    (hcarried : m.carried = []) (hhello : ∀ root heads mode genesis, m ≠ .hello root heads mode genesis)
    (hwant : ∀ fromSeq, m ≠ .want fromSeq)
    (hst : (s.node x).Steady ((s.node x).step cfg (.message (conn x) m))) :
    ((s.taken x i).act cfg conn x (.message (conn x) m)).Synced C params conn owner ws := by
  have hnone : ∀ u, ¬ s.Pulls owner x m u := by
    intro u hpulls
    cases hpulls with
    | want hm => exact hwant _ hm
    | data hx hw =>
      rw [hcarried] at hw
      exact absurd hw List.not_mem_nil
  have htaken : (s.taken x i).Synced C params conn owner ws := by
    refine ⟨h.toLinked.taken, fun v hb => ?_⟩
    rcases (h.covered v hb).taken hi with hcov | hpulls | ⟨u, -, -, hpulls⟩ | hgreets
    · exact hcov
    · exact absurd hpulls (hnone v)
    · exact absurd hpulls (hnone u)
    · obtain ⟨root, heads, mode, genesis, hm, -⟩ := hgreets
      exact absurd hm (hhello root heads mode genesis)
  exact htaken.steady hst

/-- Writes come in. -/
theorem Synced.data (h : s.Synced cfg.chain.crypto cfg.chain.params conn owner ws)
    (hws : Histories cfg.chain.crypto cfg.chain.params ws) {i : ℕ} (hi : (s.flight x)[i]? = some m)
    (hstep : (s.node x).step cfg (.message (conn x) m) = (s.node x).onWrites cfg (conn x) m.carried)
    (hhello : ∀ root heads mode genesis, m ≠ .hello root heads mode genesis)
    (hwant : ∀ fromSeq, m ≠ .want fromSeq) :
    ((s.taken x i).act cfg conn x (.message (conn x) m)).Synced
      cfg.chain.crypto cfg.chain.params conn owner ws := by
  have hcalls : ∀ w ∈ m.carried, w ∈ s.known owner ws := h.writes x m (List.mem_of_getElem? hi)
  obtain ⟨L', fresh, changed, hall, htook⟩ := (h.known x).applyAll (histories_known hws) hcalls
  obtain ⟨L'', fresh', changed', hall', hpart⟩ :=
    (h.part x).applyAll hws fun w hw => (mem_known.mp (hcalls w hw)).1
  have hpart' : L'.PartOf cfg.chain.crypto cfg.chain.params ws := by
    rw [hall] at hall'
    rw [(Prod.mk.inj hall').1]
    exact hpart.part
  obtain ⟨hledger, hconns, out, hout, hmem⟩ :=
    @Daemon.onWrites_spec V cfg (s.node x) (conn x) L' m.carried fresh changed hall
  rw [← hstep] at hledger hconns hout hmem
  generalize hs' : (s.taken x i).act cfg conn x (.message (conn x) m) = s'
  have hself : (s'.node x).ledger = L' := by
    rw [← hs', node_act_self]
    exact hledger
  have hother : s'.node (!x) = s.node (!x) := by
    rw [← hs', node_act_other]
    rfl
  have hflight : ∀ y m', m' ∈ s'.flight y ↔ m' ∈ (s.taken x i).flight y ∨
      y = !x ∧ changed = true ∧ m' = (s'.node x).hello cfg := by
    intro y m'
    rw [← hs', mem_flight_act, node_act_self]
    refine or_congr_right (and_congr_right fun _ => ?_)
    exact (mem_posted hout).trans (hmem m')
  have hgrown : ∀ v, (s.node x).ledger.reach v ≤ L'.reach v := fun v => (htook.grown v).length_le
  -- its own writers' writes were all there already
  have hwritten : ∀ v, s'.written owner v = s.written owner v := by
    intro v
    have hmost := reach_le htook.part v
    have hleast := hgrown v
    unfold written at hmost ⊢
    rcases side_cases x (owner v) with hx | hx
    · rw [hx] at hmost ⊢
      rw [hself]
      omega
    · rw [hx, hother]
  have hknown : s'.known owner ws = s.known owner ws := by
    unfold known
    simp only [hwritten]
  have hlinked : s'.Linked cfg.chain.crypto cfg.chain.params owner ws := by
    refine ⟨fun y => ?_, fun y => ?_, fun y m' hm' w hw => ?_,
      fun y root heads mode genesis hm' => ?_⟩
    · rcases side_cases x y with rfl | rfl
      · rw [hself]
        exact hpart'
      · rw [hother]
        exact h.part (!x)
    · rw [hknown]
      rcases side_cases x y with rfl | rfl
      · rw [hself]
        exact htook.part
      · rw [hother]
        exact h.known (!x)
    · rw [hknown]
      rcases (hflight y m').mp hm' with hm' | ⟨-, -, rfl⟩
      · exact h.writes y m' (mem_of_taken hm') w hw
      · exact absurd hw List.not_mem_nil
    · rcases (hflight y _).mp hm' with hm' | ⟨rfl, -, heq⟩
      · have hheld := h.heads y root heads mode genesis (mem_of_taken hm')
        rcases side_cases x (!y) with hy | hy
        · rw [hy] at hheld ⊢
          rw [hself]
          exact (h.part x).holds_of_grown hpart' htook.grown hheld
        · rw [hy] at hheld ⊢
          rw [hother]
          exact hheld
      · obtain ⟨-, hown, -, -⟩ := SyncMessage.hello.inj heq
        rw [hown, Bool.not_not, hself]
        exact hpart'.holds_heads
  refine ⟨hlinked, fun v hb => ?_⟩
  cases changed with
  | true =>
    -- the hello that follows a change answers for everything
    refine .greeted (!x) ((s'.node x).hello cfg) ((hflight _ _).mpr (.inr ⟨rfl, rfl, rfl⟩)) ?_
    rcases side_cases x (owner v) with hx | hx
    · exact greets_hello hlinked hx hb
    · exact ⟨_, _, _, _, rfl, .inl hx.symm⟩
  | false =>
    have hreach : ∀ y u, (s'.node y).ledger.reach u = (s.node y).ledger.reach u := by
      intro y u
      rcases side_cases x y with rfl | rfl
      · rw [hself]
        exact congrArg List.length (htook.same rfl u)
      · rw [hother]
    have hlearned : ∀ u, s'.learned owner u = s.learned owner u := fun u => hreach _ u
    have hb' : s.Behind owner v := by
      unfold Behind at hb ⊢
      rwa [hlearned, hwritten] at hb
    -- a next write would have changed it
    have hnone : ∀ u, ¬ s.Pulls owner x m u := by
      intro u hpulls
      cases hpulls with
      | want hm => exact hwant _ hm
      | data hx hw hv hs =>
        have hreached := htook.reached _ hw
        have hsame : L'.reach u = (s.node x).ledger.reach u := by
          rw [← hself]
          exact hreach x u
        unfold learned at hs
        rw [← hx] at hs
        rw [hv, hsame, hs] at hreached
        exact absurd (hreached le_rfl) (lt_irrefl _)
    rcases (h.covered v hb').taken hi with hcov | hpulls | ⟨u, -, -, hpulls⟩ | hgreets
    · refine hcov.persist hlearned (fun u => (hwritten u).ge) (fun hc => ?_) fun y m' hm' =>
        (hflight y m').mpr (.inl hm')
      rcases side_cases x (owner v) with hx | hx
      · rw [hx] at hc ⊢
        rw [← hs', node_act_self, show ((s.taken x i).node x) = s.node x from rfl, hconns]
        exact hc
      · rw [hx] at hc ⊢
        rw [hother]
        exact hc
    · exact absurd hpulls (hnone v)
    · exact absurd hpulls (hnone u)
    · obtain ⟨root, heads, mode, genesis, hm, -⟩ := hgreets
      exact absurd hm (hhello root heads mode genesis)

/-- A local write is taken and announced. -/
theorem Synced.submit (h : s.Synced cfg.chain.crypto cfg.chain.params conn owner ws)
    (hws : Histories cfg.chain.crypto cfg.chain.params ws) (hw : w ∈ ws) (hx : owner w.writer = x)
    (hseq : w.seq = s.written owner w.writer) :
    (s.act cfg conn x (.submit w)).Synced cfg.chain.crypto cfg.chain.params conn owner ws := by
  obtain ⟨L', more, buffered, happly, hpart, hheld, hreached⟩ := (h.part x).apply hws hw
  have hnext : w.seq = (s.node x).ledger.reach w.writer := by
    rw [hseq]
    unfold written
    rw [hx]
  have hlt := hreached hnext.le
  have hfirst : w ∈ more := by
    have hget := (hpart.get?_heldOf hws hw).mpr hlt
    unfold Ledger.reach at hnext
    rw [hheld, if_pos rfl, hnext, List.getElem?_append_right le_rfl, Nat.sub_self] at hget
    exact List.mem_of_getElem? hget
  obtain ⟨hledger, hconns, hout⟩ :=
    @Daemon.submit_spec V cfg (s.node x) L' w more buffered happly (List.ne_nil_of_mem hfirst)
  generalize hs' : s.act cfg conn x (.submit w) = s'
  have hself : (s'.node x).ledger = L' := by
    rw [← hs', node_act_self]
    exact hledger
  have hother : s'.node (!x) = s.node (!x) := by
    rw [← hs', node_act_other]
  have hflight : ∀ y m, m ∈ s'.flight y ↔ m ∈ s.flight y ∨
      y = !x ∧ conn x ∈ (s.node x).conns ∧ m = .announce more := by
    intro y m
    rw [← hs', mem_flight_act]
    refine or_congr_right (and_congr_right fun _ => (mem_posted hout).trans ?_)
    rw [List.mem_map]
    constructor
    · rintro ⟨c, hc, heq⟩
      obtain ⟨rfl, rfl⟩ := Prod.mk.inj heq
      exact ⟨hc, rfl⟩
    · rintro ⟨hc, rfl⟩
      exact ⟨_, hc, rfl⟩
  have hgrown : ∀ v, (s.node x).ledger.heldOf v <+: L'.heldOf v := fun v => by
    rw [hheld]
    split_ifs
    · exact List.prefix_append _ _
    · exact List.prefix_rfl
  have hlearned : ∀ u, s'.learned owner u = s.learned owner u := by
    intro u
    unfold learned
    rcases side_cases x (!owner u) with hu | hu
    · have hne : w.writer ≠ u := by
        rintro rfl
        rw [hx] at hu
        exact absurd hu (by simp)
      rw [hu, hself]
      unfold Ledger.reach
      rw [hheld, if_neg hne]
    · rw [hu, hother]
  have hwritten : ∀ u, s.written owner u ≤ s'.written owner u := by
    intro u
    unfold written
    rcases side_cases x (owner u) with hu | hu
    · rw [hu, hself]
      exact (hgrown u).length_le
    · rw [hu, hother]
  have hsub : ∀ a ∈ s.known owner ws, a ∈ s'.known owner ws := fun a ha => by
    obtain ⟨hmem, hbelow⟩ := mem_known.mp ha
    have hle := hwritten a.writer
    exact mem_known.mpr ⟨hmem, by omega⟩
  have hsup : ∀ a ∈ s'.known owner ws, a ∈ ws := fun a ha => (mem_known.mp ha).1
  have hmem : w ∈ s'.known owner ws := by
    refine mem_known.mpr ⟨hw, ?_⟩
    unfold written
    rw [hx, hself]
    exact hlt
  have hknown : L'.PartOf cfg.chain.crypto cfg.chain.params (s'.known owner ws) := by
    obtain ⟨L'', more', buffered', happly', hpart', -⟩ :=
      ((h.part x).widen (h.known x) hsub hsup).apply (histories_known hws) hmem
    rw [happly] at happly'
    rw [(Prod.mk.inj happly').1]
    exact hpart'
  have hlinked : s'.Linked cfg.chain.crypto cfg.chain.params owner ws := by
    refine ⟨fun y => ?_, fun y => ?_, fun y m hm a ha => ?_, fun y root heads mode genesis hm => ?_⟩
    · rcases side_cases x y with rfl | rfl
      · rw [hself]
        exact hpart
      · rw [hother]
        exact h.part (!x)
    · rcases side_cases x y with rfl | rfl
      · rw [hself]
        exact hknown
      · rw [hother]
        exact (h.part (!x)).widen (h.known (!x)) hsub hsup
    · rcases (hflight y m).mp hm with hm | ⟨-, -, rfl⟩
      · exact hsub a (h.writes y m hm a ha)
      · have hin : a ∈ L'.heldOf w.writer := by
          rw [hheld, if_pos rfl]
          exact List.mem_append_right _ ha
        exact (hknown.mem_heldOf hin).1
    · rcases (hflight y _).mp hm with hm | ⟨-, -, heq⟩
      · have hheld' := h.heads y root heads mode genesis hm
        rcases side_cases x (!y) with hy | hy
        · rw [hy] at hheld' ⊢
          rw [hself]
          exact (h.part x).holds_of_grown hpart hgrown hheld'
        · rw [hy] at hheld' ⊢
          rw [hother]
          exact hheld'
      · exact absurd heq (by simp)
  refine ⟨hlinked, fun v hb => ?_⟩
  have hconns' : conn (owner v) ∉ (s.node (owner v)).conns →
      conn (owner v) ∉ (s'.node (owner v)).conns := by
    intro hnone
    rcases side_cases x (owner v) with hv | hv
    · rw [hv] at hnone ⊢
      rw [← hs', node_act_self]
      show conn x ∉ ((s.node x).submit cfg w).conns
      rw [hconns]
      exact hnone
    · rw [hv] at hnone ⊢
      rw [hother]
      exact hnone
  by_cases hb' : s.Behind owner v
  · exact (h.covered v hb').persist hlearned hwritten hconns' fun y m hm =>
      (hflight y m).mpr (.inl hm)
  · -- the other node was level: only the new write is lacking, and it is announced
    have hle := reach_le (h.known (!owner v)) v
    have hlow := hlearned v
    unfold Behind at hb hb'
    have hv : v = w.writer := by
      by_contra hne
      have hsame : s'.written owner v = s.written owner v := by
        unfold written
        rcases side_cases x (owner v) with hv | hv
        · rw [hv, hself]
          unfold Ledger.reach
          rw [hheld, if_neg (Ne.symm hne)]
        · rw [hv, hother]
      omega
    subst hv
    have hlevel : w.seq = s'.learned owner w.writer := by
      unfold learned at hb' hlow ⊢
      omega
    by_cases hgreeted : conn x ∈ (s.node x).conns
    · exact .pulled ⟨!x, .announce more, (hflight _ _).mpr (.inr ⟨rfl, hgreeted, rfl⟩),
        .data (by rw [hx]) hfirst rfl hlevel⟩
    · exact .ungreeted (hconns' (by rwa [hx]))

/-! ## Runs -/

theorem Apart.synced (h : s.Apart conn owner ws C params) : s.Synced C params conn owner ws where
  part := h.part
  known := h.known
  writes := fun x m hm => absurd hm (by simp [h.flight x])
  heads := fun x root heads mode genesis hm => absurd hm (by simp [h.flight x])
  covered := fun v _ => .ungreeted (h.conns (owner v))

theorem Synced.step {e : Event} (h : s.Synced cfg.chain.crypto cfg.chain.params conn owner ws)
    (hws : Histories cfg.chain.crypto cfg.chain.params ws) (he : s.Legal cfg conn owner ws e) :
    (s.step cfg conn e).Synced cfg.chain.crypto cfg.chain.params conn owner ws := by
  have hun : ∀ x, (s.node x).ledger.Unpruned := fun x v c hc => ((h.part x).chain v c hc).base
  obtain ⟨hallowed, hunpruned⟩ := he
  cases e with
  | connect x => exact h.connect
  | submit x w =>
    obtain ⟨hw, hx, hseq⟩ := hallowed
    exact h.submit hws hw hx hseq
  | anchors x e =>
    have hafter : ((s.node x).step cfg e).ledger.Unpruned := by
      have := hunpruned x
      unfold Link.step at this
      rwa [node_act_self] at this
    exact h.steady (Daemon.steady_anchors hallowed (hun x) hafter)
  | deliver x i =>
    cases hi : (s.flight x)[i]? with
    | none =>
      have hstep : s.step cfg conn (.deliver x i) = s := by rw [Link.step, hi]
      rw [hstep]
      exact h
    | some m =>
      have hstep : s.step cfg conn (.deliver x i) =
          if conn x ∈ (s.node x).conns then (s.taken x i).act cfg conn x (.message (conn x) m)
          else s := by
        rw [Link.step, hi]
      rw [hstep] at hunpruned ⊢
      by_cases hconn : conn x ∈ (s.node x).conns
      · rw [if_pos hconn] at hunpruned ⊢
        have hafter : ((s.node x).handle cfg (conn x) m).ledger.Unpruned := by
          have := hunpruned x
          rwa [node_act_self] at this
        cases m with
        | hello root heads mode genesis => exact h.hello hws hi
        | want fromSeq => exact h.want hi
        | writes l => exact h.data hws hi rfl (by simp) (by simp)
        | announce l => exact h.data hws hi rfl (by simp) (by simp)
        | _ =>
          exact h.other hi rfl (by simp) (by simp) (Daemon.steady_handle (by simp) (by simp) hafter)
      · rw [if_neg hconn]
        exact h

/-- **Convergence.** Two nodes with parts of one history connect, each takes in its own writers'
writes in order, and messages arrive in any order. Whenever none is on its way between them, both
ledgers have the same heads. -/
theorem heads_converge (hws : Histories cfg.chain.crypto cfg.chain.params ws)
    (hs : s.Apart conn owner ws cfg.chain.crypto cfg.chain.params) {events : List Event}
    (hlegal : Along (Link.step cfg conn) (fun s e => s.Legal cfg conn owner ws e) s events)
    (hconns : ∀ x, conn x ∈ ((run (Link.step cfg conn) s events).node x).conns)
    (hflight : ∀ x, (run (Link.step cfg conn) s events).flight x = []) :
    (∀ v, ((run (Link.step cfg conn) s events).node true).ledger.heads.get? v
        = ((run (Link.step cfg conn) s events).node false).ledger.heads.get? v) ∧
      ((run (Link.step cfg conn) s events).node true).ledger.stateRoot cfg.chain.crypto
        = ((run (Link.step cfg conn) s events).node false).ledger.stateRoot cfg.chain.crypto := by
  have hsynced : (run (Link.step cfg conn) s events).Synced cfg.chain.crypto cfg.chain.params
      conn owner ws :=
    inv_of_along (fun _ _ h he => h.step hws he) hs.synced hlegal
  generalize run (Link.step cfg conn) s events = t at hconns hflight hsynced ⊢
  have hlevel : ∀ v, t.learned owner v = t.written owner v := by
    intro v
    have hle := reach_le (hsynced.known (!owner v)) v
    by_contra hne
    have hb : t.Behind owner v := lt_of_le_of_ne hle hne
    have hnone : ∀ u, ¬ t.Pulled owner u := by
      rintro u ⟨x, m, hm, -⟩
      rw [hflight x] at hm
      exact absurd hm List.not_mem_nil
    cases hsynced.covered v hb with
    | ungreeted h => exact h (hconns _)
    | pulled h => exact hnone v h
    | greeted y m hm h =>
      rw [hflight y] at hm
      exact absurd hm List.not_mem_nil
    | pulling u hu hb h => exact hnone u h
  have hreach : ∀ v, (t.node true).ledger.reach v = (t.node false).ledger.reach v := by
    intro v
    have hv := hlevel v
    unfold learned written at hv
    cases hside : owner v with
    | true =>
      rw [hside] at hv
      exact hv.symm
    | false =>
      rw [hside] at hv
      exact hv
  have hheads : ∀ v, (t.node true).ledger.heads.get? v = (t.node false).ledger.heads.get? v := by
    intro v
    rw [Ledger.get?_heads, Ledger.get?_heads, (hsynced.part true).headOf_eq,
      (hsynced.part false).headOf_eq,
      (hsynced.part true).heldOf_eq (hsynced.part false) hws (hreach v)]
  exact ⟨hheads, rootOfHeads_congr cfg.chain.crypto hheads⟩

/-! ## A run with reordering -/

namespace Reordered

open Daemon.Rollback (config peer)
open Ledger.Pruned (first second)

def start : Link View := ⟨fun _ => Daemon.new "gavl", fun _ => []⟩

/-- Two empty nodes greet; the one writes twice, and the later write arrives first. -/
def events : List Event :=
  [.connect true, .connect false, .deliver true 0, .deliver false 0, .submit true first,
    .submit true second, .deliver false 1, .deliver false 0, .deliver true 0, .deliver true 0,
    .deliver false 0]

end Reordered

theorem unpruned_iff (L : Ledger) : L.Unpruned ↔ ∀ c ∈ L.chains.values, c.baseSeq = 0 := by
  constructor
  · intro h c hc
    obtain ⟨v, hv⟩ := (OrderedMap.mem_values _ _).mp hc
    exact h v c hv
  · intro h v c hc
    exact h c ((OrderedMap.mem_values _ _).mpr ⟨v, hc⟩)

instance (L : Ledger) : Decidable L.Unpruned := decidable_of_iff' _ (unpruned_iff L)

instance (s : Link V) : Decidable s.Unpruned := inferInstanceAs (Decidable (∀ _, _))

open Reordered Ledger.Pruned in
open Daemon.Rollback (config peer) in
theorem apart_start : start.Apart (fun _ => peer) (fun _ => true) [first, second]
    config.chain.crypto config.chain.params where
  part := fun _ => .empty
  known := fun _ => .empty
  conns := fun _ => List.not_mem_nil
  flight := fun _ => rfl

open Reordered Ledger.Pruned in
open Daemon.Rollback (config peer) in
/-- Convergence in that run. -/
theorem heads_converge_reordered :
    (∀ v, ((run (Link.step config (fun _ => peer)) start events).node true).ledger.heads.get? v
        = ((run (Link.step config (fun _ => peer)) start events).node false).ledger.heads.get? v) ∧
      ((run (Link.step config (fun _ => peer)) start events).node true).ledger.stateRoot
          config.chain.crypto
        = ((run (Link.step config (fun _ => peer)) start events).node false).ledger.stateRoot
          config.chain.crypto := by
  obtain ⟨hunpruned, hfirst, hsecond, hconns, hflight⟩ :
      Along (Link.step config (fun _ => peer))
        (fun s e => (s.step config (fun _ => peer) e).Unpruned) start events ∧
      first.seq = (run (Link.step config (fun _ => peer)) start (events.take 4)).written
        (fun _ => true) first.writer ∧
      second.seq = (run (Link.step config (fun _ => peer)) start (events.take 5)).written
        (fun _ => true) second.writer ∧
      (∀ x, peer ∈ ((run (Link.step config (fun _ => peer)) start events).node x).conns) ∧
      ∀ x, ((run (Link.step config (fun _ => peer)) start events).flight x).length = 0 := by
    decide +kernel
  have hallowed : Along (Link.step config (fun _ => peer))
      (fun s e => s.Allowed (fun _ => true) [first, second] e) start events :=
    ⟨trivial, trivial, trivial, trivial, ⟨by simp, rfl, hfirst⟩, ⟨by simp, rfl, hsecond⟩, trivial,
      trivial, trivial, trivial, trivial, trivial⟩
  exact heads_converge Ledger.histories_second apart_start (along_and.mpr ⟨hallowed, hunpruned⟩) hconns
    fun x => List.length_eq_zero_iff.mp (hflight x)

end Link

end Gavl
