import Gavl.Sync.SnapshotTheorems

/-!
# Full pulls between agreeing peers

`ingestAnchors` takes an anchor whose predecessor it does not hold as a sign that lower anchors are
missing, and asks for the whole chain. A pruned node lacks them for good: a peer that holds more of
the same chain answers with the same anchors each time.
-/

namespace Gavl

open Runs AnchorChain

namespace Daemon

variable {V : Type} {cfg : DaemonConfig V} {d A B : Daemon V} {conn : Conn} {rest : List Task}
  {chain anchors todo : List Anchor} {a p x : Anchor} {low fromHeight : ℕ}

/-! ## Agreeing peers -/

/-- What a peer replies to `anchor-want`. -/
def replyTo (d : Daemon V) (fromHeight : ℕ) : List Anchor :=
  d.anchors.tipChain.filter (fun a => decide (fromHeight ≤ a.height))

theorem onAnchorWant_eq (d : Daemon V) (conn : Conn) (fromHeight : ℕ) :
    d.onAnchorWant conn fromHeight = if (d.replyTo fromHeight).isEmpty then d
      else d.send conn (.anchorChain (d.replyTo fromHeight)) := rfl

/-- The heights at which something is held. -/
def heldHeights (c : AnchorChain) : Set ℕ := {n | ∃ id a, c.get id = some a ∧ a.height = n}

/-- Two nodes on `chain`, which is linked up from block 0; each may have pruned what it likes. An
id names one anchor. -/
structure Agree (cfg : DaemonConfig V) (A B : Daemon V) (chain : List Anchor) : Prop where
  root : chain.head? = some (A.genesisFor cfg)
  linked : chain.IsChain (fun p a => a.link = some p.id ∧ a.height = p.height + 1)
  named : ∀ a ∈ chain, ∀ x, A.anchors.get a.id = some x → x = a
  tip : A.anchors.tip.isSome
  ours : A.anchors.tipChain <:+: chain
  theirs : B.anchors.tipChain <:+: chain

/-- The space backends refuse the placeholder that block 0 carries for a proof. -/
def RefusesPlaceholder (cfg : DaemonConfig V) : Prop :=
  ∀ s producer challenge proof, s.kind = "genesis" →
    (cfg.chain.verifier s producer challenge proof).ok = false

theorem exists_below {r : Anchor} {l : List Anchor}
    (h : (r :: l).IsChain (fun p a => a.link = some p.id ∧ a.height = p.height + 1)) (ha : a ∈ l) :
    ∃ p ∈ r :: l, a.link = some p.id ∧ a.height = p.height + 1 := by
  induction l generalizing r with
  | nil => exact absurd ha List.not_mem_nil
  | cons b l ih =>
    obtain ⟨hb, hrest⟩ := List.isChain_cons_cons.mp h
    rcases List.mem_cons.mp ha with rfl | ha
    · exact ⟨r, List.mem_cons_self, hb⟩
    · obtain ⟨p, hp, hlink⟩ := ih hrest ha
      exact ⟨p, List.mem_cons_of_mem r hp, hlink⟩

/-- An anchor of the chain is block 0 or has a predecessor on it. -/
theorem Agree.below (h : Agree cfg A B chain) (ha : a ∈ chain) :
    a = A.genesisFor cfg ∨ ∃ p ∈ chain, a.link = some p.id ∧ a.height = p.height + 1 := by
  have hroot := h.root
  have hlinked := h.linked
  cases chain with
  | nil => exact absurd ha List.not_mem_nil
  | cons r l =>
    rw [List.head?_cons, Option.some.injEq] at hroot
    rcases List.mem_cons.mp ha with rfl | ha
    · exact .inl hroot
    · exact .inr (exists_below hlinked ha)

@[simp] theorem anchors_handle (d : Daemon V) (conn : Conn) (l : List Anchor) :
    (d.handle cfg conn (.anchorChain l)).anchors = d.anchors := rfl

theorem anchorQueue_handle (hidle : d.anchorQueue = []) (conn : Conn) (l : List Anchor) :
    (d.handle cfg conn (.anchorChain l)).anchorQueue = .ingest conn l :: [] := by
  show d.anchorQueue ++ [.ingest conn l] = _
  rw [hidle, List.nil_append]

theorem Agree.handle (h : Agree cfg A B chain) (conn : Conn) (l : List Anchor) :
    Agree cfg (A.handle cfg conn (.anchorChain l)) B chain :=
  ⟨h.root, h.linked, h.named, h.tip, h.ours, h.theirs⟩

/-! ## One anchor -/

theorem add_held {c : AnchorChain} {check : StateCheck} (h : (c.get a.id).isSome) :
    c.add cfg.chain check a = (c, .ok) := by
  have hhas : c.anchors.has a.id = true := h
  unfold AnchorChain.add
  rw [if_pos hhas]

theorem add_unlinked {c : AnchorChain} {check : StateCheck} {id : String} (h : c.get a.id = none)
    (hlink : a.link = some id) (hid : c.get id = none) :
    c.add cfg.chain check a = (c, .fail "unknown prev anchor") := by
  have hprev := (AnchorBody.link_eq_some.mp hlink).1
  have hparent : c.parent a = none := by
    unfold AnchorChain.parent
    rw [hlink, Option.bind_some, hid]
  have hhas : c.anchors.has a.id = false := (OrderedMap.has_eq_false_iff _ _).mpr h
  unfold AnchorChain.add
  rw [hhas, if_neg Bool.false_ne_true, if_neg (by simp [hprev]), if_pos ⟨by simp [hlink], hparent⟩]

/-- Block 0 carries no proof that a space backend would accept. -/
theorem verify_genesis (hspace : RefusesPlaceholder cfg) :
    d.anchors.verify cfg.chain (d.genesisFor cfg) = .fail "bad space proof" := by
  have hparent : d.anchors.parent (d.genesisFor cfg) = none := rfl
  have hdiff : (d.genesisFor cfg).difficulty = d.anchors.difficultyFor cfg.chain none := by
    unfold genesisFor difficultyFor
    cases cfg.chain.schedule <;> rfl
  have hweight : (d.genesisFor cfg).weight = 0 + d.anchors.difficultyFor cfg.chain none := by
    rw [← hdiff, Nat.zero_add]
    rfl
  have hroot : (d.genesisFor cfg).stateRoot = rootOfHeads cfg.chain.crypto ∅ := rfl
  have hok := hspace (d.genesisFor cfg).space (d.genesisFor cfg).producer
    (anchorChallenge cfg.chain.crypto none 0) (d.genesisFor cfg).proof rfl
  unfold AnchorChain.verify AnchorChain.parentHeads
  rw [hparent]
  have hheight : (d.genesisFor cfg).height = 0 := rfl
  have hprev : (d.genesisFor cfg).prev = none := rfl
  have hdelta : (d.genesisFor cfg).headsDelta = ∅ := rfl
  have hstep : (d.genesisFor cfg).step = [] := rfl
  have hnonce : (d.genesisFor cfg).nonce = 0 := rfl
  unfold verifyAnchor challengeFor verifyProofs
  simp [hheight, hprev, hdelta, hstep, hnonce, hdiff, hweight, hroot, hok]

/-- Block 0 is installed, never added. -/
theorem add_genesis (hspace : RefusesPlaceholder cfg)
    (h : d.anchors.get (d.genesisFor cfg).id = none) :
    ∃ reason, (reason = "bad space proof" ∨ reason = "wrong genesis — block 0 is hardcoded") ∧
      ∀ check, d.anchors.add cfg.chain check (d.genesisFor cfg) = (d.anchors, .fail reason) := by
  have hhas : d.anchors.anchors.has (d.genesisFor cfg).id = false :=
    (OrderedMap.has_eq_false_iff _ _).mpr h
  have hlink : (d.genesisFor cfg).link = none := rfl
  unfold AnchorChain.add
  rw [hhas, verify_genesis hspace]
  simp only [Bool.false_eq_true, if_false]
  split_ifs with hwrong hunknown
  · exact ⟨_, .inr rfl, fun _ => rfl⟩
  · exact absurd hlink hunknown.1
  · exact ⟨_, .inl rfl, fun _ => rfl⟩

/-- An anchor that the chain below its lowest retained height would link to. -/
def Missing (low : ℕ) (a : Anchor) : Prop := a.height ≠ 0 ∧ a.height < low

instance (low : ℕ) (a : Anchor) : Decidable (Missing low a) :=
  inferInstanceAs (Decidable (_ ∧ _))

/-- Adding an anchor leaves the chain as it is, and finds its predecessor unknown exactly if it is
missing. -/
structure Inert (cfg : DaemonConfig V) (d : Daemon V) (low : ℕ) (a : Anchor) (r : AddResult) :
    Prop where
  add : ∀ check, d.anchors.add cfg.chain check a = (d.anchors, r)
  thrown : ∀ message, r ≠ .thrown message
  unlinked : r = .fail "unknown prev anchor" ↔ Missing low a
  conflict : r ≠ .fail "rejected: conflicts with finalized history"

theorem Agree.inert (h : Agree cfg A B chain) (hspace : RefusesPlaceholder cfg)
    (hlow : low ∈ lowerBounds (heldHeights A.anchors)) (ha : a ∈ chain)
    (hheld : low ≤ a.height → (A.anchors.get a.id).isSome) : ∃ r, Inert cfg A low a r := by
  by_cases hhas : (A.anchors.get a.id).isSome
  · obtain ⟨x, hx⟩ := Option.isSome_iff_exists.mp hhas
    have hxa := h.named a ha x hx
    have hle : low ≤ a.height := hlow ⟨a.id, x, hx, by rw [hxa]⟩
    refine ⟨.ok, fun check => add_held hhas, by simp, ?_, by simp⟩
    simp only [reduceCtorEq, false_iff]
    rintro ⟨-, hlt⟩
    omega
  · have hnone : A.anchors.get a.id = none := by simpa using hhas
    have hlt : a.height < low := by
      by_contra hle
      exact hhas (hheld (not_lt.mp hle))
    rcases h.below ha with rfl | ⟨p, hp, hlink, hheight⟩
    · obtain ⟨reason, hreason, hadd⟩ := add_genesis hspace hnone
      refine ⟨.fail reason, hadd, by simp, ?_, ?_⟩
      · have hzero : ¬ Missing low (A.genesisFor cfg) := fun hmissing => hmissing.1 rfl
        obtain rfl | rfl := hreason <;> simp [hzero]
      · obtain rfl | rfl := hreason <;> simp
    · have hbelow : A.anchors.get p.id = none := by
        cases hget : A.anchors.get p.id with
        | none => rfl
        | some y =>
          have hy := h.named p hp y hget
          have hle : low ≤ p.height := hlow ⟨p.id, y, hget, by rw [hy]⟩
          omega
      refine ⟨_, fun check => add_unlinked hnone hlink hbelow, by simp, ?_, by simp⟩
      simp only [true_iff]
      exact ⟨by omega, hlt⟩

/-! ## One batch -/

/-- The queue runs until the batch of anchors at its head is done. -/
def ingested (cfg : DaemonConfig V) (d : Daemon V) (anchors : List Anchor) : Daemon V :=
  run (step cfg) d (List.replicate (anchors.length + 2) .work)

/-- Between two states the daemon asks for anchors. -/
def Asks (d d' : Daemon V) : Prop :=
  ∃ conn fromHeight, (conn, .anchorWant fromHeight) ∈ d'.sent.drop d.sent.length

/-- The loop over anchors that leave the chain as it is. -/
theorem run_adding {before : Option String} {gap : Bool} (hin : ∀ a ∈ todo, ∃ r, Inert cfg d low a r) :
    run (step cfg) { d with anchorQueue := .adding conn anchors todo before gap false :: rest }
        (List.replicate todo.length .work)
      = { d with
          anchorQueue := .adding conn anchors [] before
            (gap || todo.any (fun a => decide (Missing low a))) false :: rest } := by
  induction todo generalizing gap with
  | nil => simp
  | cons a todo ih =>
    obtain ⟨r, hr⟩ := hin a List.mem_cons_self
    have hrest := fun gap => @ih gap fun x hx => hin x (List.mem_cons_of_mem a hx)
    have hwork : step cfg { d with
        anchorQueue := .adding conn anchors (a :: todo) before gap false :: rest } .work
        = { d with
            anchorQueue := .adding conn anchors todo before (gap || decide (Missing low a)) false
              :: rest } := by
      unfold step react work addAnchor
      simp only [hr.add]
      have hunlinked := hr.unlinked
      have hconflict := hr.conflict
      cases r with
      | ok =>
        have hflag : ¬ Missing low a := by simpa using hunlinked
        simp [hflag]
      | fail reason =>
        have hflag : reason = "unknown prev anchor" ↔ Missing low a := by simpa using hunlinked
        have hquiet : reason ≠ "rejected: conflicts with finalized history" := by simpa using hconflict
        simp [hflag, hquiet]
      | thrown message => exact absurd rfl (hr.thrown message)
    rw [List.length_cons, List.replicate_succ, run_cons, hwork, hrest, List.any_cons, Bool.or_assoc]

/-- The tip is held, so it is not below the lowest height. -/
theorem low_le_tip {t : Anchor} (hlow : low ∈ lowerBounds (heldHeights d.anchors))
    (ht : d.anchors.tip = some t) : low ≤ t.height := by
  obtain ⟨id, -, hget⟩ := Option.bind_eq_some_iff.mp ht
  exact hlow ⟨id, t, hget, rfl⟩

/-- The tail of a batch that left the tip where it was. -/
theorem finishIngest_eq {t : Anchor} {gap : Bool} (ht : d.anchors.tip = some t)
    (hpos : gap = true → t.height ≠ 0) :
    d.finishIngest cfg conn anchors (some t.id) gap false
      = ({ d with sent := d.sent ++ if gap then [(conn, .anchorWant 0)] else [] }, none) := by
  unfold finishIngest effectivelyFresh tipMove
  cases gap with
  | false => simp [ht]
  | true => simp [ht, hpos rfl, send]

/-- A node on a chain, given anchors of that chain, ends as it was but for a want. -/
theorem ingested_eq (hq : d.anchorQueue = .ingest conn anchors :: rest)
    (hin : ∀ a ∈ anchors, ∃ r, Inert cfg d low a r) (hlow : low ∈ lowerBounds (heldHeights d.anchors))
    (htip : d.anchors.tip.isSome) :
    ingested cfg d anchors = { d with
      anchorQueue := rest
      sent := d.sent ++
        if ∃ a ∈ anchors, Missing low a then [(conn, .anchorWant 0)] else [] } := by
  obtain ⟨t, ht⟩ := Option.isSome_iff_exists.mp htip
  have hperm := List.perm_insertionSort (fun x y : Anchor => x.height ≤ y.height) anchors
  have hstart : step cfg d .work = { d with
      anchorQueue := .adding conn anchors (byHeight anchors) (some t.id) false false :: rest } := by
    unfold step react work
    simp only [hq, ht, Option.map_some]
  have hloop := @run_adding V cfg d conn rest anchors (byHeight anchors) low (some t.id) false
    fun a ha => hin a (hperm.mem_iff.mp ha)
  have hgap : (false || (byHeight anchors).any (fun a => decide (Missing low a)))
      = decide (∃ a ∈ anchors, Missing low a) := by
    rw [Bool.false_or, Bool.eq_iff_iff, List.any_eq_true]
    simp only [decide_eq_true_eq, byHeight, hperm.mem_iff]
  have hlen : (byHeight anchors).length = anchors.length := hperm.length_eq
  rw [hgap, hlen] at hloop
  unfold ingested
  rw [List.replicate_succ, run_cons, hstart, List.replicate_succ', run_append, hloop, run_cons,
    run_nil]
  have hpos : decide (∃ a ∈ anchors, Missing low a) = true → t.height ≠ 0 := by
    intro hgap
    obtain ⟨a, -, hpos, hlt⟩ := of_decide_eq_true hgap
    have hle := low_le_tip hlow ht
    omega
  have hend := @finishIngest_eq V cfg { d with anchorQueue := rest } conn anchors t _ ht hpos
  unfold step react work
  simp only
  rw [hend]
  simp

/-! ## The condition -/

theorem exists_inert (h : Agree cfg A B chain) (hspace : RefusesPlaceholder cfg)
    (hlow : low ∈ lowerBounds (heldHeights A.anchors))
    (hheld : ∀ a ∈ B.replyTo fromHeight, low ≤ a.height → (A.anchors.get a.id).isSome) :
    ∀ a ∈ B.replyTo fromHeight, ∃ r, Inert cfg A low a r := fun a ha =>
  h.inert hspace hlow (h.theirs.subset (List.mem_of_mem_filter ha)) (hheld a ha)

/-- **Full pulls.** Two nodes agree, and the one is sent what the other replies to `anchor-want`, of
which it holds all that is not below its lowest retained height. It asks for nothing more exactly if
the reply has nothing below that height but block 0. -/
theorem quiet_iff (h : Agree cfg A B chain) (hspace : RefusesPlaceholder cfg)
    (hlow : IsLeast (heldHeights A.anchors) low)
    (hq : A.anchorQueue = .ingest conn (B.replyTo fromHeight) :: rest)
    (hheld : ∀ a ∈ B.replyTo fromHeight, low ≤ a.height → (A.anchors.get a.id).isSome) :
    ¬ Asks A (ingested cfg A (B.replyTo fromHeight)) ↔
      ∀ a ∈ B.replyTo fromHeight, a.height = 0 ∨ low ≤ a.height := by
  have hin := exists_inert h hspace hlow.2 hheld
  unfold Asks
  rw [ingested_eq hq hin hlow.2 h.tip]
  simp only
  rw [List.drop_left]
  constructor
  · intro hquiet a ha
    by_contra hmissing
    push Not at hmissing
    refine hquiet ⟨conn, 0, ?_⟩
    rw [if_pos ⟨a, ha, hmissing⟩]
    exact List.mem_singleton_self _
  · rintro hall ⟨conn', n, hmem⟩
    rw [if_neg] at hmem
    · exact absurd hmem List.not_mem_nil
    · rintro ⟨a, ha, hpos, hlt⟩
      rcases hall a ha with hzero | hle
      · exact hpos hzero
      · omega

/-! ## Pulls without end -/

/-- One turn of an exchange: `B` replies to a pull of the whole chain, and `A` goes through the
reply. -/
def turn (cfg : DaemonConfig V) (toB toA : Conn) (s : Daemon V × Daemon V) : Daemon V × Daemon V :=
  (ingested cfg (s.1.handle cfg toB (.anchorChain (s.2.replyTo 0))) (s.2.replyTo 0),
    s.2.handle cfg toA (.anchorWant 0))

/-- What `A` misses once it misses in every turn, and each turn ends in the pull the next one
starts from. -/
theorem pulls_again (h : Agree cfg A B chain) (hspace : RefusesPlaceholder cfg)
    (hlow : low ∈ lowerBounds (heldHeights A.anchors)) (hidle : A.anchorQueue = [])
    (hheld : ∀ a ∈ B.replyTo 0, low ≤ a.height → (A.anchors.get a.id).isSome)
    (hmissing : ∃ a ∈ B.replyTo 0, Missing low a) (toB toA : Conn) (n : ℕ) :
    (turn cfg toB toA)^[n] (A, B)
      = ({ A with sent := A.sent ++ List.replicate n (toB, .anchorWant 0) },
          { B with sent := B.sent ++ List.replicate n (toA, .anchorChain (B.replyTo 0)) }) := by
  induction n generalizing A B with
  | zero => simp
  | succ n ih =>
    have hA : ingested cfg (A.handle cfg toB (.anchorChain (B.replyTo 0))) (B.replyTo 0)
        = { A with sent := A.sent ++ [(toB, .anchorWant 0)] } := by
      rw [ingested_eq (anchorQueue_handle hidle toB (B.replyTo 0))
        (exists_inert (h.handle toB (B.replyTo 0)) hspace hlow hheld) hlow h.tip, if_pos hmissing]
      show ({ A with anchorQueue := [], sent := _ } : Daemon V) = _
      rw [← hidle]
      rfl
    have hB : B.handle cfg toA (.anchorWant 0)
        = { B with sent := B.sent ++ [(toA, .anchorChain (B.replyTo 0))] } := by
      obtain ⟨a, ha, -⟩ := hmissing
      show B.onAnchorWant toA 0 = _
      rw [onAnchorWant_eq, if_neg]
      · rfl
      · rw [List.isEmpty_iff]
        exact List.ne_nil_of_mem ha
    have hagree : Agree cfg { A with sent := A.sent ++ [(toB, .anchorWant 0)] }
        { B with sent := B.sent ++ [(toA, .anchorChain (B.replyTo 0))] } chain :=
      ⟨h.root, h.linked, h.named, h.tip, h.ours, h.theirs⟩
    have hturn : turn cfg toB toA (A, B)
        = ({ A with sent := A.sent ++ [(toB, .anchorWant 0)] },
            { B with sent := B.sent ++ [(toA, .anchorChain (B.replyTo 0))] }) := by
      unfold turn
      rw [hA, hB]
    rw [Function.iterate_succ_apply, hturn, ih hagree hlow hidle hheld hmissing]
    simp only [List.append_assoc, List.singleton_append, List.replicate_succ]
    rfl

/-! ## Two daemons that keep different margins -/

/-- Equality of two anchors that carry no space proof, field by field. -/
def bare (a b : Anchor) : Bool :=
  decide (a.height = b.height ∧ a.prev = b.prev ∧ a.producer = b.producer ∧ a.nonce = b.nonce ∧
    a.step = b.step ∧ a.difficulty = b.difficulty ∧ a.headsDelta.entries = b.headsDelta.entries ∧
    a.stateRoot = b.stateRoot ∧ a.appRoot = b.appRoot ∧ a.weight = b.weight ∧ a.space = b.space ∧
    a.time = b.time ∧ a.id = b.id ∧ a.sig = b.sig) &&
  match a.proof, b.proof with
  | .null, .null => true
  | _, _ => false

theorem eq_of_bare {a b : Anchor} (h : bare a b = true) : a = b := by
  obtain ⟨⟨height, prev, producer, nonce, step, difficulty, delta, stateRoot, appRoot, weight, space,
    proof⟩, time, id, sig⟩ := a
  obtain ⟨⟨height', prev', producer', nonce', step', difficulty', delta', stateRoot', appRoot',
    weight', space', proof'⟩, time', id', sig'⟩ := b
  unfold bare at h
  rw [Bool.and_eq_true, decide_eq_true_eq] at h
  obtain ⟨⟨rfl, rfl, rfl, rfl, rfl, rfl, hdelta, rfl, rfl, rfl, rfl, rfl, rfl, rfl⟩, hproof⟩ := h
  obtain rfl : delta = delta' := OrderedMap.ext_entries hdelta
  obtain rfl : proof = proof' := by
    cases proof <;> cases proof' <;> simp_all
  rfl

namespace Margins

open Rollback

/-- A node that checkpoints every anchor and keeps `margin` anchors below a checkpoint. -/
def config (margin : ℕ) : DaemonConfig View :=
  { Rollback.config with
    chain := { openConfig with
      verifier := fun s _ _ _ => if s.kind = "genesis" then ⟨false, none⟩ else ⟨true, some "0"⟩
      finalityDepth := some 1
      settlementDepth := some 1 }
    checkpointEvery := 1
    anchorKeepMargin := margin }

def third : Anchor := certifying above ∅
def fourth : Anchor := certifying third ∅

def whole : List Anchor := [root, boundary, above, third, fourth]

/-- A node hears of a write and of the anchors above block 0. -/
def synced (margin : ℕ) : Daemon View :=
  run (step (config margin)) (Daemon.new "gavl")
    [.root false, .submit first, .submitAnchor boundary, .submitAnchor above, .submitAnchor third,
      .submitAnchor fourth]

/-- The node that keeps less, as it gets the other's reply to a full pull. -/
def asked : Daemon View := (synced 0).handle (config 0) peer (.anchorChain ((synced 1).replyTo 0))

theorem evaluated : (synced 0).network = "gavl" ∧
    whole.all (fun a => ((synced 0).anchors.get a.id).all (fun x => bare x a)) = true ∧
    (synced 0).anchors.tip.isSome ∧
    List.Forall₂ (fun a b => bare a b = true) (synced 0).anchors.tipChain [third, fourth] ∧
    List.Forall₂ (fun a b => bare a b = true) (synced 1).anchors.tipChain [above, third, fourth] ∧
    ((synced 0).anchors.get third.id).map (·.height) = some 3 ∧
    (∀ e ∈ (synced 0).anchors.anchors.entries, 3 ≤ e.2.height) ∧
    (∀ a ∈ (synced 1).replyTo 0, 3 ≤ a.height → ((synced 0).anchors.get a.id).isSome) ∧
    (synced 0).anchorQueue.isEmpty ∧ (∃ a ∈ (synced 1).replyTo 0, Missing 3 a) := by
  decide +kernel

theorem eq_of_forall₂_bare {l l' : List Anchor} (h : List.Forall₂ (fun a b => bare a b = true) l l') :
    l = l' := by
  induction h with
  | nil => rfl
  | cons hab _ ih => rw [eq_of_bare hab, ih]

theorem agree : Agree (config 0) (synced 0) (synced 1) whole := by
  obtain ⟨hnetwork, hnamed, htip, hours, htheirs, -⟩ := evaluated
  refine ⟨?_, ?_, fun a ha x hx => ?_, htip, ?_, ?_⟩
  · unfold genesisFor
    rw [hnetwork]
    rfl
  · decide +kernel
  · have hall := List.all_eq_true.mp hnamed a ha
    rw [hx] at hall
    exact eq_of_bare hall
  · rw [eq_of_forall₂_bare hours]
    exact ⟨[root, boundary, above], [], rfl⟩
  · rw [eq_of_forall₂_bare htheirs]
    exact ⟨[root, boundary], [], rfl⟩

theorem refuses : RefusesPlaceholder (config 0) := fun s _ _ _ hs => by
  show (if s.kind = "genesis" then _ else _ : SpaceResult).ok = false
  rw [if_pos hs]

theorem isLeast : IsLeast (heldHeights (synced 0).anchors) 3 := by
  obtain ⟨-, -, -, -, -, hthird, hall, -⟩ := evaluated
  obtain ⟨a, ha, hheight⟩ := Option.map_eq_some_iff.mp hthird
  refine ⟨⟨third.id, a, ha, hheight⟩, ?_⟩
  rintro n ⟨id, x, hx, rfl⟩
  exact hall _ ((OrderedMap.get?_eq_some_iff _ _ _).mp hx)

theorem held : ∀ a ∈ (synced 1).replyTo 0, 3 ≤ a.height → ((synced 0).anchors.get a.id).isSome :=
  evaluated.2.2.2.2.2.2.2.1

theorem idle : (synced 0).anchorQueue = [] :=
  List.isEmpty_iff.mp evaluated.2.2.2.2.2.2.2.2.1

/-- The hypotheses hold of the node as it gets the reply. -/
theorem asked_spec : Agree (config 0) asked (synced 1) whole ∧
    IsLeast (heldHeights asked.anchors) 3 ∧
    (∀ a ∈ (synced 1).replyTo 0, 3 ≤ a.height → (asked.anchors.get a.id).isSome) ∧
    asked.anchorQueue = .ingest peer ((synced 1).replyTo 0) :: [] := by
  unfold asked
  rw [anchors_handle]
  exact ⟨agree.handle _ _, isLeast, held, anchorQueue_handle idle _ _⟩

end Margins

open Margins Rollback in
/-- Two nodes took the same anchors up to height 4; the one holds those from 2 on and the other those
from 3 on. The latter holds all of the former's reply that is not below its own floor, asks for the
whole chain, and does so again in every turn. -/
theorem full_pulls_forever :
    Agree (config 0) asked (synced 1) whole ∧ IsLeast (heldHeights asked.anchors) 3 ∧
      (∀ a ∈ (synced 1).replyTo 0, 3 ≤ a.height → (asked.anchors.get a.id).isSome) ∧
      Asks asked (ingested (config 0) asked ((synced 1).replyTo 0)) ∧
      ∀ n, ((turn (config 0) peer peer)^[n] (synced 0, synced 1)).1.sent
        = (synced 0).sent ++ List.replicate n (peer, .anchorWant 0) := by
  have hmissing : ∃ a ∈ (synced 1).replyTo 0, Missing 3 a := evaluated.2.2.2.2.2.2.2.2.2
  obtain ⟨hagree, hleast, hheld, hqueue⟩ := asked_spec
  refine ⟨hagree, hleast, hheld, ?_, fun n => ?_⟩
  · unfold Asks
    rw [ingested_eq hqueue (exists_inert hagree refuses hleast.2 hheld) hleast.2 hagree.tip,
      if_pos hmissing]
    exact ⟨peer, 0, by simp⟩
  · rw [pulls_again agree refuses isLeast.2 idle held hmissing]

open Margins Rollback in
/-- The equivalence at these two nodes. -/
theorem quiet_iff_asked :
    ¬ Asks asked (ingested (config 0) asked ((synced 1).replyTo 0)) ↔
      ∀ a ∈ (synced 1).replyTo 0, a.height = 0 ∨ 3 ≤ a.height := by
  obtain ⟨hagree, hleast, hheld, hqueue⟩ := asked_spec
  exact quiet_iff hagree refuses hleast hqueue hheld

end Daemon

end Gavl
