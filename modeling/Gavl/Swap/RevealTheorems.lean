import Gavl.Swap.SessionTheorems

/-!
# When the taker reveals its secret

A claim of the maker's HTLC carries the secret. The tick that builds it checks the maker's lock
first; a tick that finds it saved sends it again while the lock is unspent, and checks nothing else.
-/

namespace Gavl

open Runs

namespace SwapSession

variable {E : Engine} {c : Ctx} {r : Reads} {s : SwapSession}

/-- The explorer data of a tick shows the maker's HTLC safe to claim: an output of the agreed
amount, unspent, confirmed and early in its refund window. -/
def ShowsSafe (E : Engine) (c : Ctx) (r : Reads) : Prop :=
  ∃ theirs o, c.scanTheirs E r .taker = .ok theirs ∧ o ∈ theirs.outs ∧
    o.value = c.terms.makerAmount ∧ Tick.Revealable E c o theirs.tip

/-- What a tick finds of what was recorded before it: a recorded output has the agreed amount, and
the target of a saved claim, while unspent, is confirmed and early in its refund window. -/
def FindsSafe (E : Engine) (c : Ctx) (r : Reads) (s : SwapSession) : Prop :=
  ∀ theirs o, c.scanTheirs E r .taker = .ok theirs →
    Tick.theirOut s.tick theirs.outs c.terms.makerAmount false = some o →
    (s.side.theirLock.isSome = true → o.value = c.terms.makerAmount) ∧
      (s.side.claim.isSome = true → o.spend = none → Tick.Revealable E c o theirs.tip)

/-- A step whose tick finds safe what was recorded before it. -/
def Careful (E : Engine) (s : SwapSession) (i : SessionStep) : Prop :=
  ∀ c r, i.tick? = some (c, r) → FindsSafe E c r s

/-- A claim is handed to an explorer. -/
def sendsClaim : SwapEffect → Bool
  | .broadcast .claim _ _ => true
  | _ => false

/-- A step that hands a claim to an explorer sees the maker's HTLC safe in the same tick. -/
def RevealsSafely (E : Engine) (s : SwapSession) (i : SessionStep) : Prop :=
  (s.effects E i).any sendsClaim = true → ∃ c r, i.tick? = some (c, r) ∧ ShowsSafe E c r

/-- A claim is sent by the tick that builds it, or again by a tick that finds it saved. -/
theorem sees_of_broadcast {k₀ k : Tick} (h : Tick.Acts E c r k₀ k) (hk₀ : k₀.effects = [])
    (hrole : k₀.side.role = .taker) {e : SwapEffect} (hmem : e ∈ k.effects)
    (hsends : sendsClaim e = true) :
    (k₀.side.claim = none ∧ Tick.SeesTarget E c r k₀ (Tick.Revealable E c)) ∨
      (k₀.side.claim.isSome = true ∧ Tick.SeesTarget E c r k₀ (fun o _ => o.spend = none)) := by
  refine h.forall_effects (P := fun e => sendsClaim e = true → _) ?_ hk₀ e hmem hsends
  intro k k' e hact hmore hsends
  obtain ⟨chain, tx, rfl⟩ : ∃ chain tx, e = .broadcast .claim chain tx := by
    unfold sendsClaim at hsends
    split at hsends
    · exact ⟨_, _, rfl⟩
    · cases hsends
  cases hact with
  | sendClaim hsafe =>
    obtain hfresh | ⟨hclaim, hsees⟩ := hsafe hrole
    · exact Or.inl hfresh
    · exact Or.inr ⟨by rw [hclaim]; rfl, hsees⟩
  | post => exact absurd (Tick.eq_post_of_postOp hmore) (by simp)
  | abort => exact absurd (Tick.eq_post_of_abort hmore) (by simp)
  | _ => simp [Tick.adoptLock] at hmore

theorem showsSafe_of_sees {k₀ : Tick} (h : Tick.SeesTarget E c r k₀ (Tick.Revealable E c))
    (hvalue : ∀ theirs o, c.scanTheirs E r .taker = .ok theirs →
      Tick.theirOut k₀ theirs.outs c.terms.makerAmount false = some o →
      k₀.side.theirLock.isSome = true → o.value = c.terms.makerAmount) : ShowsSafe E c r := by
  obtain ⟨theirs, o, hscan, hout, hsafe⟩ := h
  obtain ⟨hmem, hexact⟩ := Tick.theirOut_spec hout
  refine ⟨theirs, o, hscan, hmem, ?_, hsafe⟩
  cases hlock : k₀.side.theirLock with
  | none => exact hexact hlock
  | some lock => exact hvalue theirs o hscan hout (by rw [hlock]; rfl)

/-- One careful step of a taker. -/
theorem revealsSafely_of_careful {i : SessionStep} (hrole : s.side.role = .taker)
    (h : Careful E s i) : RevealsSafely E s i := by
  intro hsent
  obtain ⟨e, hmem, hsends⟩ := List.any_eq_true.mp hsent
  obtain ⟨c, r, hi, hmem⟩ := mem_effects hmem
  have hsafe := h c r hi
  refine ⟨c, r, hi, ?_⟩
  obtain ⟨-, hsees⟩ | ⟨hclaim, theirs, o, hscan, hout, hunspent⟩ :=
    sees_of_broadcast Tick.acts_step rfl hrole hmem hsends
  · exact showsSafe_of_sees hsees fun theirs o hscan hout => (hsafe theirs o hscan hout).1
  · -- sent again: what the saved claim's tick checked may have passed since
    refine showsSafe_of_sees ⟨theirs, o, hscan, hout, ?_⟩ fun theirs o hscan hout =>
      (hsafe theirs o hscan hout).1
    exact (hsafe theirs o hscan hout).2 hclaim hunspent

/-- **Along a run of careful steps the taker reveals its secret in the safe window only.** -/
theorem reveals_safely (E : Engine) (identity : String) (steps : List SessionStep)
    (h : Along (step E) (Careful E) (fresh .taker identity) steps) :
    Along (step E) (RevealsSafely E) (fresh .taker identity) steps := by
  have hparty := kept_party (E := E) .taker identity
  refine along_of_inv (Both (fun side => side.role = .taker ∧ side.identity = identity))
    (fun s i hs => hparty.step hs i) (fun s i hs hcareful => ?_) ⟨⟨rfl, rfl⟩, ⟨rfl, rfl⟩⟩ h
  exact revealsSafely_of_careful hs.1.1 hcareful

/-- Explorers at a height: my lock, and the maker's at a height of 98. -/
def lockedReads (tip : ℕ) (claimSent : Except String Unit) : Reads :=
  { emptyReads 0 with
    mine := .ok ⟨[samplePayment 1000000 90], tip⟩
    theirs := .ok ⟨[samplePayment 100000 98], tip⟩
    claimSent := claimSent }

/-- A claim built in time that no explorer took, and again once the maker may refund. -/
def lateClaim : List SessionStep :=
  [.pass (sampleCtx 100000 1 20) (lockedReads 100 (.error "offline")) false,
    .pass (sampleCtx 100000 1 90) (lockedReads 170 (.ok ())) false]

/-- The theorem where the claim is built in time. -/
theorem reveals_safely_timely :
    Along (step sampleEngine) (RevealsSafely sampleEngine) (fresh .taker "taker")
      (lateClaim.take 1) := by
  refine reveals_safely sampleEngine "taker" (lateClaim.take 1)
    ⟨fun c r _ theirs o _ _ => ⟨fun hlock => ?_, fun hclaim => ?_⟩, trivial⟩
  · cases hlock
  · cases hclaim

/-- The saved claim is sent again 73 blocks into a refund window of 72. -/
theorem reveals_late :
    ¬Along (step sampleEngine) (RevealsSafely sampleEngine) (fresh .taker "taker") lateClaim := by
  rintro ⟨-, hlate, -⟩
  obtain ⟨c, r, hi, theirs, o, hscan, hmem, -, hsafe⟩ := hlate (by decide +kernel)
  obtain ⟨rfl, rfl⟩ := Prod.mk.inj (Option.some.inj hi)
  have hshown : (((sampleCtx 100000 1 90).scanTheirs sampleEngine (lockedReads 170 (.ok ()))
      .taker).toOption.map fun s => (s.tip, s.outs.map HtlcOut.height)) = some (170, [some 98]) := by
    decide +kernel
  rw [hscan] at hshown
  obtain ⟨htip, houts⟩ := Prod.mk.inj (Option.some.inj hshown)
  have hheight : o.height = some 98 := by
    have := List.mem_map_of_mem (f := HtlcOut.height) hmem
    rw [houts] at this
    exact List.mem_singleton.mp this
  have hearly := hsafe.early
  rw [htip, hheight] at hearly
  exact absurd hearly (by decide)

end SwapSession

end Gavl
