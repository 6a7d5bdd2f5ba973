import Gavl.Swap.ScanTheorems
import Gavl.Swap.Session

/-!
# The life of a side

What the acts of its ticks keep of a side, its whole life keeps, crashes included.
-/

namespace Gavl

open Runs

namespace SwapSession

variable {E : Engine} {s : SwapSession} {I : Side → Prop}

/-! ## Invariants of a side -/

theorem fileAfter_of_saves {saved : Side} {effects : List SwapEffect} (hsaved : I saved)
    (h : ∀ side, .save side ∈ effects → I side) : I (fileAfter saved effects) := by
  unfold fileAfter
  refine List.foldlRecOn effects _ hsaved fun side hside e he => ?_
  cases e with
  | save side => exact h side he
  | _ => exact hside

/-- What acts keep of a side, and notes do not matter to. -/
structure Kept (E : Engine) (I : Side → Prop) : Prop where
  act : ∀ c r k₀ k k', Tick.Act E c r k₀ k k' → I k.side → I k'.side
  label : ∀ side note lockPosted, I side → I { side with note := note, lockPosted := lockPosted }

/-- It holds in memory and in the file. -/
def Both (I : Side → Prop) (s : SwapSession) : Prop := I s.side ∧ I s.saved

theorem Kept.tick (hI : Kept E I) (h : I s.side) (c : Ctx) (r : Reads) :
    I (s.tick.step E c r).side ∧ ∀ side, .save side ∈ (s.tick.step E c r).effects → I side :=
  Tick.Acts.inv (hI.act c r s.tick) Tick.acts_step h rfl

theorem Kept.step (hI : Kept E I) (h : Both I s) (i : SessionStep) : Both I (s.step E i) := by
  cases i with
  | pass c r elsewhere =>
    obtain ⟨hside, hsaves⟩ := hI.tick h.1 c r
    refine ⟨hside, ?_⟩
    show I (if _ then _ else _)
    split_ifs
    · exact hside
    · exact fileAfter_of_saves h.2 hsaves
  | crash c r n =>
    obtain ⟨-, hsaves⟩ := hI.tick h.1 c r
    have hfile : I (fileAfter s.saved ((s.tick.step E c r).effects.take n)) :=
      fileAfter_of_saves h.2 fun side hmem => hsaves side (List.mem_of_mem_take hmem)
    exact ⟨hfile, hfile⟩
  | posted kind answer =>
    show Both I (s.posted kind answer)
    unfold posted
    split
    · exact h
    · split_ifs
      · exact h
      · split
        · exact ⟨hI.label s.side s.side.note _ h.1, h.2⟩
        · exact ⟨hI.label s.side _ s.side.lockPosted h.1, h.2⟩
  | absent =>
    have hside := hI.label s.side (some "this identity is no longer in the local wallet")
      s.side.lockPosted h.1
    refine ⟨hside, ?_⟩
    show I (if _ then _ else _)
    split_ifs
    · exact hside
    · exact h.2

/-- **What acts keep of a side, its life keeps.** -/
theorem Kept.run (hI : Kept E I) (h : Both I s) (steps : List SessionStep) :
    Both I (Runs.run (SwapSession.step E) s steps) :=
  inv_run (Both I) (fun _ i hs => hI.step hs i) h steps

/-- What a step does, the tick it comes from does. -/
theorem mem_effects {i : SessionStep} {e : SwapEffect} (h : e ∈ s.effects E i) :
    ∃ c r, i.tick? = some (c, r) ∧ e ∈ (s.tick.step E c r).effects := by
  cases i with
  | pass c r elsewhere => exact ⟨c, r, rfl, h⟩
  | crash c r n => exact ⟨c, r, rfl, List.mem_of_mem_take h⟩
  | posted => cases h
  | absent => cases h

/-- A step with a tick: the acts of what it did lead to its side and its file, or, where it died, to
the file alone. -/
theorem exists_acts {i : SessionStep} {c : Ctx} {r : Reads} (h : i.tick? = some (c, r)) :
    ∃ k, Tick.Acts E c r s.tick k ∧ k.effects = s.effects E i ∧
      ∀ I : Side → Prop, I k.side → I (fileAfter s.saved k.effects) → Both I (s.step E i) := by
  cases i with
  | pass c' r' elsewhere =>
    obtain ⟨rfl, rfl⟩ := Prod.mk.inj (Option.some.inj h)
    refine ⟨s.tick.step E c' r', Tick.acts_step, rfl, fun I hside hfile => ⟨hside, ?_⟩⟩
    show I (if _ then _ else _)
    split_ifs
    · exact hside
    · exact hfile
  | crash c' r' n =>
    obtain ⟨rfl, rfl⟩ := Prod.mk.inj (Option.some.inj h)
    obtain ⟨k, hacts, heffects⟩ :=
      Tick.Acts.cut (Tick.acts_step (E := E) (c := c') (r := r') (k := s.tick))
        (List.take_prefix n _) rfl
    refine ⟨k, hacts, heffects, fun I _ hfile => ?_⟩
    rw [heffects] at hfile
    exact ⟨hfile, hfile⟩
  | posted => cases h
  | absent => cases h

/-- A step without a tick changes notes at most. -/
theorem both_of_label {i : SessionStep} (hi : i.tick? = none)
    (hlabel : ∀ side note lockPosted, I side →
      I { side with note := note, lockPosted := lockPosted })
    (h : Both I s) : Both I (s.step E i) := by
  cases i with
  | pass => cases hi
  | crash => cases hi
  | posted kind answer =>
    show Both I (s.posted kind answer)
    unfold posted
    split
    · exact h
    · split_ifs
      · exact h
      · split
        · exact ⟨hlabel s.side s.side.note _ h.1, h.2⟩
        · exact ⟨hlabel s.side _ s.side.lockPosted h.1, h.2⟩
  | absent =>
    have hside := hlabel s.side (some "this identity is no longer in the local wallet")
      s.side.lockPosted h.1
    refine ⟨hside, ?_⟩
    show I (if _ then _ else _)
    split_ifs
    · exact hside
    · exact h.2

theorem kept_party (role : Role) (identity : String) :
    Kept E (fun side => side.role = role ∧ side.identity = identity) where
  act _ _ _ _ _ hact h := ⟨hact.party.1.trans h.1, hact.party.2.trans h.2⟩
  label _ _ _ h := h

end SwapSession

/-! ## A sample swap -/

/-- The secret and the keys are read off the seed, and every text is an address. -/
def sampleSwapLib : SwapLib :=
  { plainSwapLib with
    schnorr := { plainSchnorr with getPublicKey := fun key => key }
    tx := { sampleLib with decode := fun _ _ _ => some ⟨true, sampleScript⟩ }
    spendVsize := fun witness _ => if witness.length = 4 then 153 else 135
    swapKey := fun seed _ _ _ => seed.map (· + 1) }

def sampleEngine : Engine :=
  ⟨sampleSwapLib, ⟨fun _ => 1, fun _ => ⟨"1", true, id⟩, 0, 0⟩, .on, fun _ => .mainnet⟩

/-- A proof that lists one coin of another network. -/
def sampleProof (chain : Chain) : FundsProof :=
  ⟨chain, .testnet, toHex (List.replicate 32 9), [⟨toHex (List.replicate 32 6), 0, "5000"⟩],
    toHex (List.replicate 64 1)⟩

/-- A match in escrow between the seeds of ones and of twos. -/
def sampleMatch (amount : ℕ) : Match where
  id := toHex (List.replicate 32 7)
  offerId := toHex (List.replicate 32 8)
  maker := "maker"
  taker := "taker"
  takeSeq := 0
  makerChain := .bitcoin
  makerAmount := amount
  makerRefundBlocks := 72
  takerChain := .litecoin
  takerAmount := 10 * amount
  takerRefundBlocks := 576
  hash := toHex (List.replicate 32 1)
  takerKey := toHex (List.replicate 32 2)
  makerKey := some (toHex (List.replicate 32 3))
  status := .escrow
  takenAt := 0
  proofDeadline := 10
  pruneAt := 2200
  makerProof := some (sampleProof .bitcoin)
  takerProof := some (sampleProof .litecoin)
  makerLock := none
  takerLock := none
  cancelled := none

/-- The board at a height, in the eyes of a seed. -/
def sampleCtx (amount : ℕ) (seed : UInt8) (h : ℤ) : Ctx :=
  ⟨(sampleMatch amount).id, termsOf (sampleMatch amount), some (sampleMatch amount), some h,
    List.replicate 32 seed⟩

/-- Explorers that list nothing at a height of 100, and a wallet that cannot pay. -/
def emptyReads (now : ℕ) : Reads where
  now := now
  mine := .ok ⟨[], 100⟩
  theirsBefore := .ok ⟨[], 100⟩
  theirsAgain := .ok ⟨[], 100⟩
  theirs := .ok ⟨[], 100⟩
  utxos _ := .ok []
  fund := .failed "insufficient funds"
  getTx := .ok none
  claimSent := .ok ()
  refundSent := .ok ()

/-- A payment to an HTLC. -/
def samplePayment (amount height : ℕ) : EsploraTx :=
  ⟨toHex (List.replicate 32 5), [], [⟨some (toHex plainHtlc.scriptPubKey), amount⟩], some height⟩

/-- A transaction that spends the payment. -/
def sampleSpend (witness : List String) : EsploraTx :=
  ⟨toHex (List.replicate 32 4), [⟨some (toHex (List.replicate 32 5)), some 0, witness⟩], [], none⟩

end Gavl
