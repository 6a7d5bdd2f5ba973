import Gavl.Chain.Writer
import Gavl.Consensus.Mining
import Gavl.Pos.PlotTheorems
import Gavl.Pot.HashVdf

/-!
# Producing writes

The writer's side of `verifyWrite`: find the best proof of the plot, serve exactly the cooldown its
quality asks for, and sign the id. What it produces passes every check.
-/

namespace Gavl

/-! ## Definitions -/

/-- The position a write takes, and what it says. -/
structure WriteArgs where
  prev : Option String
  seq : ℕ
  stateRoot : String
  payload : Json
  ts : Json

/-- What writes are produced with: a key, a plot and the delay function. -/
structure Writer where
  publicKey : Bytes
  /-- `ed.sign` with the private key. -/
  sign : Bytes → Bytes
  plot : Plot
  /-- The plot is that of the key. -/
  seed_eq : plot.seed = publicKey
  /-- `vdf.eval`; `none` where it throws or does not return. -/
  vdfEval : Bytes → ℕ → Option TimeProof

namespace Writer

variable (W : Writer) (C : Crypto) (params : ChainParams)

def pubHex : String := toHex W.publicKey

/-- Build the next write. -/
def write (args : WriteArgs) : Option Write :=
  let trunk : Trunk := ⟨W.pubHex, args.seq, args.prev, .str args.stateRoot⟩
  let challenge := challengeOf C trunk
  (W.plot.prove C challenge).bind (fun space =>
    (hexToNat? space.quality).bind (fun quality =>
      let needIters := requiredIters quality params 1 params.difficulty
      (W.vdfEval (vdfChallenge C challenge space.value) (numberOf needIters)).map (fun time =>
        let core : WriteCore :=
          { trunk with
            plot := W.plot.commitment C
            difficulty := toString params.difficulty
            ts := args.ts
            payload := args.payload }
        { core with
          space := space
          time := time
          id := writeIdOf C core space time
          sig := toHex (W.sign (fromHex (writeIdOf C core space time))) })))

/-- The writer's signatures and time proofs verify. A delay of `2 ^ 53` steps or more does not end:
its counter is a double. -/
structure Complete : Prop where
  signs : ∀ m, C.edVerify W.publicKey m (W.sign m) = true
  evals : ∀ seed n t, W.vdfEval seed n = some t →
    t.iters = n ∧ n < 2 ^ 53 ∧ params.vdfVerify seed t = true

/-- A write that was asked for and verifies. -/
structure Written (args : WriteArgs) (w : Write) : Prop where
  writer : w.writer = W.pubHex
  seq : w.seq = args.seq
  prev : w.prev = args.prev
  payload : w.payload = args.payload
  plot : w.plot = W.plot.commitment C
  verified : verifyWrite C params false w = .ok

end Writer

/-- The hash chain as the delay function. -/
def hashDelay (C : Crypto) (challenge : Bytes) (iters : ℕ) : Option TimeProof :=
  if iters < 2 ^ 53 then (HashVdf.eval C challenge iters).toOption else none

/-! ## Produced writes verify -/

namespace Writer

variable {W : Writer} {C : Crypto} {params : ChainParams} {args : WriteArgs} {w : Write}

theorem write_spec (hW : W.Complete C params) (h : W.write C params args = some w) :
    W.Written C params args w := by
  obtain ⟨space, hspace, h⟩ := Option.bind_eq_some_iff.mp h
  obtain ⟨quality, hquality, h⟩ := Option.bind_eq_some_iff.mp h
  obtain ⟨time, htime, rfl⟩ := Option.map_eq_some_iff.mp h
  obtain ⟨hiters, hsafe, hvalid⟩ := hW.evals _ _ _ htime
  have hseed : W.plot.seed = fromHex W.pubHex := by
    rw [W.seed_eq, pubHex, fromHex_toHex]
  obtain ⟨proof, hproof, hspaceOk⟩ := verifySpaceProof_prove W.plot C
    (challengeOf C ⟨W.pubHex, args.seq, args.prev, .str args.stateRoot⟩) hseed
  obtain rfl : space = proof := Option.some.inj (hspace.symm.trans hproof)
  refine ⟨rfl, rfl, rfl, rfl, rfl, ?_⟩
  unfold verifyWrite
  simp only
  rw [if_neg (by simp), hspaceOk, hquality]
  simp only [Bool.not_true, Bool.false_eq_true, if_false, Bool.not_false, Bool.true_and]
  -- the count served is the one required: below `2 ^ 53` it survives the conversion
  rw [if_neg (by rw [hiters, numberOf_eq hsafe]; exact lt_irrefl _), if_neg (by simp [hvalid]),
    if_neg (by simp), pubHex, fromHex_toHex, fromHex_toHex, if_neg (by simp [hW.signs])]

/-- With the hash chain for the delay, it is enough that signatures verify. -/
theorem complete_hashDelay (hdelay : W.vdfEval = hashDelay C)
    (hverify : params.vdfVerify = HashVdf.verify C)
    (hsigns : ∀ m, C.edVerify W.publicKey m (W.sign m) = true) : W.Complete C params where
  signs := hsigns
  evals := by
    intro seed n t ht
    rw [hdelay] at ht
    unfold hashDelay at ht
    split_ifs at ht with hlt
    cases heval : HashVdf.eval C seed n with
    | error err =>
      rw [heval] at ht
      cases ht
    | ok proof =>
      rw [heval] at ht
      obtain rfl : proof = t := Option.some.inj ht
      obtain ⟨hiters, hok⟩ := HashVdf.verify_of_eval heval
      rw [hverify]
      exact ⟨hiters, hlt, hok⟩

end Writer

end Gavl
