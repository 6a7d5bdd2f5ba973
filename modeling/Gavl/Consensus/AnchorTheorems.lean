import Gavl.Consensus.Anchor

/-!
# What a verified anchor satisfies

`verifyAnchor` accepts only anchors whose every derived field has the value recomputed from the
predecessor. Later proofs use `Verified` and never unfold the check.
-/

namespace Gavl

/-! ## Links -/

theorem AnchorBody.link_eq_some {b : AnchorBody} {id : String} :
    b.link = some id ↔ b.prev = some id ∧ id ≠ "" := by
  unfold AnchorBody.link
  rw [Option.filter_eq_some_iff, decide_eq_true_eq]

theorem AnchorBody.link_of_prev_none {b : AnchorBody} (h : b.prev = none) : b.link = none := by
  unfold AnchorBody.link
  rw [h]
  rfl

/-! ## Deltas -/

/-- A writer's head after a delta: the delta's if it has one, the previous one otherwise. -/
theorem get?_applyHeadsDelta (prev delta : Heads) (w : String) :
    (applyHeadsDelta prev delta).get? w = (delta.get? w).orElse (fun _ => prev.get? w) :=
  OrderedMap.get?_overlay prev delta w

@[simp] theorem applyHeadsDelta_empty (prev : Heads) : applyHeadsDelta prev ∅ = prev := rfl

/-! ## Verification -/

/-- What `verifyAnchor` has checked of an anchor it accepts with the given heads. -/
structure Verified (C : Crypto) (a : Anchor) (prev : Option Anchor) (prevHeads : Heads)
    (expected : ℕ) (heads : Heads) : Prop where
  difficulty_eq : a.difficulty = expected
  height_eq : a.height = (match prev with | none => 0 | some p => p.height + 1)
  prev_eq : a.prev = prev.map (·.id)
  weight_eq : a.weight = (match prev with | none => 0 | some p => p.weight) + expected
  heads_eq : heads = applyHeadsDelta prevHeads a.headsDelta
  stateRoot_eq : a.stateRoot = rootOfHeads C heads
  id_eq : idOf C a.toAnchorBody a.time = a.id

/-- The proofs are judged last: success returns the heads unchanged and binds the id. -/
theorem verifyProofs_ok {C : Crypto} {params : ChainParams} {verifier : SpaceVerifier} {a : Anchor}
    {expected : ℕ} {challenge : Bytes} {heads heads' : Heads}
    (h : verifyProofs C params verifier a expected challenge heads = .ok heads') :
    heads' = heads ∧ idOf C a.toAnchorBody a.time = a.id := by
  unfold verifyProofs at h
  simp only at h
  split at h
  · exact absurd h (by simp)
  · split at h
    · exact absurd h (by simp)
    · split_ifs at h with h1 h2 h3 h4
      · exact ⟨(AnchorResult.ok.inj h).symm, not_not.mp h3⟩

theorem verifyAnchor_ok {C : Crypto} {a : Anchor} {prev : Option Anchor} {prevHeads heads : Heads}
    {params : ChainParams} {expected : ℕ} {verifier : SpaceVerifier}
    (h : verifyAnchor C a prev prevHeads params expected verifier = .ok heads) :
    Verified C a prev prevHeads expected heads := by
  unfold verifyAnchor at h
  simp only at h
  split_ifs at h with hdiff hheight hprev hweight hroot hstep
  split at h
  · exact absurd h (by simp)
  · obtain ⟨hheads, hid⟩ := verifyProofs_ok h
    exact ⟨not_not.mp hdiff, not_not.mp hheight, not_not.mp hprev, not_not.mp hweight, hheads,
      hheads ▸ not_not.mp hroot, hid⟩

namespace Verified

variable {C : Crypto} {a p : Anchor} {prev : Option Anchor} {prevHeads heads : Heads}
  {expected : ℕ}

/-- A verified anchor has no predecessor only where it names none. -/
theorem prev_eq_none (h : Verified C a prev prevHeads expected heads) (hprev : prev = none) :
    a.prev = none := by
  rw [h.prev_eq, hprev]
  rfl

theorem height_of_parent (h : Verified C a (some p) prevHeads expected heads) :
    p.height + 1 = a.height := h.height_eq.symm

theorem weight_of_parent (h : Verified C a (some p) prevHeads expected heads) :
    p.weight + expected = a.weight := h.weight_eq.symm

end Verified

end Gavl
