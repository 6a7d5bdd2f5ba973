import Gavl.Consensus.AnchorTheorems
import Gavl.Det.CanonicalTheorems
import Gavl.Det.Number

/-!
# Mining an anchor

The producer's side of `verifyAnchor`: find a challenge the plot answers, serve the cooldown
its quality asks for, and commit to the heads. A miner whose proofs verify is refused for two
reasons only: the verifier expects another difficulty, or the heads that the delta leads to at
the verifier are not the ones the miner committed to.
-/

namespace Gavl

/-! ## Definitions -/

/-- A space proof with its quality (hex). -/
structure MinedProof where
  proof : Json
  quality : String

/-- The space prover of a plot. -/
structure SpaceProver where
  commitment : SpaceCommitment
  /-- `none` where the plot yields no proof for the challenge. -/
  prove : Bytes → Option MinedProof

/-- What an anchor is produced with: a key, a plot and the delay function. -/
structure Farmer where
  publicKey : Bytes
  /-- `ed.sign` with the private key. -/
  sign : Bytes → Bytes
  prover : SpaceProver
  /-- `vdf.eval`; `none` where it throws or does not return. -/
  vdfEval : Bytes → ℕ → Option TimeProof

/-- Nonces tried at genesis. -/
def genesisGrind : ℕ := 256

/-- `Number(n)` of a bigint that doubles reach. -/
def numberOf (n : ℕ) : ℕ := Double.round53 n 1

/-- A challenge the plot answers, and how it was reached. -/
structure Ticket where
  mined : MinedProof
  challenge : Bytes
  nonce : ℕ
  step : List TimeProof

namespace Farmer

variable (F : Farmer)

def ticket (challenge : Bytes) (nonce : ℕ) (step : List TimeProof) : Option Ticket :=
  (F.prover.prove challenge).map (fun mined => ⟨mined, challenge, nonce, step⟩)

/-- Genesis: try the nonce, and as many after it as the bound allows. -/
def grind (C : Crypto) : ℕ → ℕ → Option Ticket
  | 0, nonce => F.ticket (anchorChallenge C none nonce) nonce []
  | n + 1, nonce =>
    (F.ticket (anchorChallenge C none nonce) nonce []).orElse
      (fun _ => grind C n (nonce + 1))

/-- Walk the signage points from the one that `step` has reached. -/
def walkSignage (C : Crypto) (base : Bytes) (stepIters : ℕ) :
    ℕ → String → List TimeProof → Option Ticket
  | 0, vdfOut, step => F.ticket (signageChallenge C base vdfOut step.length) 0 step
  | n + 1, vdfOut, step =>
    (F.ticket (signageChallenge C base vdfOut step.length) 0 step).orElse (fun _ =>
      (F.vdfEval (fromHex vdfOut) stepIters).bind (fun advance =>
        walkSignage C base stepIters n advance.output (step ++ [advance])))

def findTicket (C : Crypto) (params : ChainParams) : Option Anchor → Option Ticket
  | none => F.grind C genesisGrind 0
  | some p =>
    let base := anchorChallenge C (some p) 0
    F.walkSignage C base (signageStepIters params) maxSignage (toHex base) []

/-- Produce an anchor extending `prev` and certifying `heads`. `none` where the plot has no
proof this round, or where the quality or the delay is refused. -/
def mineAnchor (C : Crypto) (params : ChainParams) (prev : Option Anchor) (prevHeads heads : Heads)
    (difficulty : ℕ) (appRoot : String) : Option Anchor :=
  (F.findTicket C params prev).bind (fun k =>
    ((hexToNat? k.mined.quality).filter (fun _ => decide (k.mined.quality ≠ ""))).bind
      (fun quality =>
        let need := requiredIters quality params (spaceWeightFor F.prover.commitment) difficulty
        (F.vdfEval (vdfChallenge C k.challenge k.mined.quality) (numberOf need)).map (fun time =>
          let body : AnchorBody :=
            { height := match prev with | none => 0 | some p => p.height + 1
              prev := prev.map (·.id)
              producer := toHex F.publicKey
              nonce := k.nonce
              step := k.step
              difficulty := difficulty
              headsDelta := diffHeads prevHeads heads
              stateRoot := rootOfHeads C heads
              appRoot := appRoot
              weight := (match prev with | none => 0 | some p => p.weight) + difficulty
              space := F.prover.commitment
              proof := k.mined.proof }
          { body with
            time := time
            id := idOf C body time
            sig := toHex (F.sign (fromHex (idOf C body time))) })))

/-- The farmer's proofs verify. A delay of `2 ^ 53` steps or more does not end: its counter is
a double. -/
structure Complete (C : Crypto) (params : ChainParams) (verifier : SpaceVerifier) : Prop where
  signs : ∀ m, C.edVerify F.publicKey m (F.sign m) = true
  proves : ∀ challenge m, F.prover.prove challenge = some m →
    verifier F.prover.commitment (toHex F.publicKey) challenge m.proof = ⟨true, some m.quality⟩
  evals : ∀ seed n t, F.vdfEval seed n = some t →
    t.iters = n ∧ n < 2 ^ 53 ∧ params.vdfVerify seed t = true

end Farmer

/-! ## Numbers and hex -/

theorem le_roundHalfEven (n d : ℕ) : n / d ≤ Double.roundHalfEven n d := by
  unfold Double.roundHalfEven
  split_ifs <;> omega

/-- A bigint below `2 ^ 53` becomes the number it is. -/
theorem numberOf_of_lt {n : ℕ} (h : n < 2 ^ 53) : numberOf n = n := by
  have he : Nat.log2 n ≤ 52 := by
    by_cases hn : n = 0
    · rw [hn, Nat.log2_zero]
      omega
    · exact Nat.lt_succ_iff.mp ((Nat.log2_lt hn).mpr h)
  have hunit : n % 2 ^ 0 = 0 := by omega
  unfold numberOf Double.round53
  rw [Nat.div_one, one_mul, Nat.sub_eq_zero_of_le he, Double.roundHalfEven, hunit,
    if_pos (by decide)]
  omega

/-- What becomes a number below `2 ^ 53` becomes the number it is. -/
theorem numberOf_eq {n : ℕ} (h : numberOf n < 2 ^ 53) : numberOf n = n := by
  by_cases he : Nat.log2 n ≤ 52
  · refine numberOf_of_lt ?_
    by_cases hn : n = 0
    · rw [hn]
      exact Nat.two_pow_pos _
    · exact (Nat.log2_lt hn).mp (Nat.lt_succ_iff.mpr he)
  · -- more than 53 bits: the rounded significand keeps 52 of them
    exfalso
    unfold numberOf Double.round53 at h
    rw [Nat.div_one, one_mul] at h
    obtain ⟨e, he⟩ := Nat.exists_eq_add_of_le (Nat.lt_of_not_le he)
    have hn : 2 ^ (53 + e) ≤ n := by
      have hne : n ≠ 0 := by
        rintro rfl
        rw [Nat.log2_zero] at he
        omega
      have hlog := Nat.log2_self_le hne
      rw [he] at hlog
      exact hlog
    rw [he, show 52 + 1 + e - 52 = e + 1 by omega] at h
    have hq : 2 ^ 52 ≤ n / 2 ^ (e + 1) := by
      rw [Nat.le_div_iff_mul_le (Nat.two_pow_pos _), ← pow_add]
      rw [show 52 + (e + 1) = 53 + e by omega]
      exact hn
    have hge : 2 ^ 52 * 2 ^ (e + 1) ≤ Double.roundHalfEven n (2 ^ (e + 1)) * 2 ^ (e + 1) :=
      Nat.mul_le_mul_right _ (le_trans hq (le_roundHalfEven _ _))
    have htwo : 2 ≤ 2 ^ (e + 1) := by
      rw [pow_succ]
      have hpos := Nat.two_pow_pos e
      omega
    have hmul : 2 ^ 52 * 2 ≤ 2 ^ 52 * 2 ^ (e + 1) := Nat.mul_le_mul_left _ htwo
    omega

/-! ## Deltas -/

/-- A delta carries the heads that the predecessor does not certify as they are. -/
theorem get?_diffHeads (prev next : Heads) (w : String) :
    (diffHeads prev next).get? w = (next.get? w).filter (fun h => decide (prev.get? w ≠ some h)) := by
  unfold diffHeads
  rw [OrderedMap.get?_filter]
  congr 1
  funext h
  cases hp : prev.get? w with
  | none => simp
  | some p =>
    rcases p with ⟨id, seq⟩
    rcases h with ⟨id', seq'⟩
    by_cases hseq : seq = seq' <;> by_cases hid : id = id' <;> simp [hseq, hid]

/-- The delta taken against `prev` leads from `other` to `next` if and only if `next` has a head
of every writer `other` has, and whatever the delta leaves out of `next` is in `other`. -/
theorem applyHeadsDelta_diffHeads_iff (prev other next : Heads) :
    (∀ w, (applyHeadsDelta other (diffHeads prev next)).get? w = next.get? w) ↔
      (∀ w, other.get? w ≠ none → next.get? w ≠ none) ∧
        ∀ w h, next.get? w = some h → prev.get? w = some h → other.get? w = some h := by
  have hget : ∀ w, (applyHeadsDelta other (diffHeads prev next)).get? w =
      ((next.get? w).filter (fun h => decide (prev.get? w ≠ some h))).orElse
        (fun _ => other.get? w) := by
    intro w
    rw [get?_applyHeadsDelta, get?_diffHeads]
  constructor
  · intro h
    refine ⟨fun w hw hnone => ?_, fun w x hnext hprev => ?_⟩
    · have hover := h w
      rw [hget, hnone] at hover
      exact hw hover
    · have hover := h w
      rw [hget, hnext, Option.filter_some, if_neg (by simp [hprev])] at hover
      exact hover
  · rintro ⟨hcovers, hkept⟩ w
    rw [hget]
    cases hnext : next.get? w with
    | none =>
      by_contra hne
      exact hcovers w hne hnext
    | some x =>
      by_cases hprev : prev.get? w = some x
      · rw [Option.filter_some, if_neg (by simp [hprev])]
        exact hkept w x hnext hprev
      · rw [Option.filter_some, if_pos (by simpa using hprev)]
        rfl

/-! ## The challenge -/

theorem orElse_eq_some {α : Type*} {x : Option α} {y : Unit → Option α} {a : α}
    (h : x.orElse y = some a) : x = some a ∨ y () = some a := by
  cases x with
  | none => exact Or.inr h
  | some b => exact Or.inl h

namespace Farmer

variable {F : Farmer} {C : Crypto} {params : ChainParams} {verifier : SpaceVerifier}

/-- A ticket answers the challenge it was asked for. -/
theorem ticket_spec {challenge : Bytes} {nonce : ℕ} {step : List TimeProof} {k : Ticket}
    (h : F.ticket challenge nonce step = some k) :
    F.prover.prove challenge = some k.mined ∧ k.challenge = challenge ∧ k.nonce = nonce ∧
      k.step = step := by
  obtain ⟨mined, hmined, rfl⟩ := Option.map_eq_some_iff.mp h
  exact ⟨hmined, rfl, rfl, rfl⟩

/-- A ticket found by grinding answers the genesis challenge of its nonce. -/
theorem grind_spec {k : Ticket} : ∀ {n nonce : ℕ}, F.grind C n nonce = some k →
    F.prover.prove k.challenge = some k.mined ∧ k.challenge = anchorChallenge C none k.nonce ∧
      k.step = [] := by
  intro n
  induction n with
  | zero =>
    intro nonce h
    obtain ⟨hmined, hchallenge, hnonce, hstep⟩ := ticket_spec h
    rw [hchallenge, hnonce]
    exact ⟨hmined, rfl, hstep⟩
  | succ n ih =>
    intro nonce h
    unfold grind at h
    rcases orElse_eq_some h with hfound | hnext
    · obtain ⟨hmined, hchallenge, hnonce, hstep⟩ := ticket_spec hfound
      rw [hchallenge, hnonce]
      exact ⟨hmined, rfl, hstep⟩
    · exact ih hnext

/-- A ticket found on the signage walk comes with the steps that reached it, each of the right
size and valid over the one before. -/
theorem walkSignage_spec (hF : F.Complete C params verifier) {base : Bytes} {k : Ticket} :
    ∀ {n : ℕ} {vdfOut : String} {step : List TimeProof},
      F.walkSignage C base (signageStepIters params) n vdfOut step = some k →
      ∃ walked out, k.step = step ++ walked ∧ walked.length ≤ n ∧ k.nonce = 0 ∧
        F.prover.prove k.challenge = some k.mined ∧
        signageWalk params (signageStepIters params) step.length vdfOut walked = .ok out ∧
        k.challenge = signageChallenge C base out k.step.length := by
  intro n
  induction n with
  | zero =>
    intro vdfOut step h
    obtain ⟨hmined, hchallenge, hnonce, hstep⟩ := ticket_spec h
    refine ⟨[], vdfOut, by rw [hstep, List.append_nil], le_refl _, hnonce, ?_, rfl, ?_⟩
    · rw [hchallenge]
      exact hmined
    · rw [hchallenge, hstep]
  | succ n ih =>
    intro vdfOut step h
    unfold walkSignage at h
    rcases orElse_eq_some h with hfound | hnext
    · obtain ⟨hmined, hchallenge, hnonce, hstep⟩ := ticket_spec hfound
      refine ⟨[], vdfOut, by rw [hstep, List.append_nil], Nat.zero_le _, hnonce, ?_, rfl, ?_⟩
      · rw [hchallenge]
        exact hmined
      · rw [hchallenge, hstep]
    · obtain ⟨advance, hadvance, hrest⟩ := Option.bind_eq_some_iff.mp hnext
      obtain ⟨walked, out, hstep, hlen, hnonce, hmined, hwalk, hchallenge⟩ := ih hrest
      obtain ⟨hiters, -, hvalid⟩ := hF.evals _ _ _ hadvance
      refine ⟨advance :: walked, out, by rw [hstep, List.append_assoc, List.singleton_append],
        by rw [List.length_cons]; omega, hnonce, hmined, ?_, hchallenge⟩
      unfold signageWalk
      rw [if_neg (by simp [hiters]), if_neg (by simp [hvalid])]
      rw [List.length_append, List.length_singleton] at hwalk
      exact hwalk

/-- The verifier recomputes the challenge that a mined anchor answers. -/
theorem findTicket_spec (hF : F.Complete C params verifier) {prev : Option Anchor} {k : Ticket}
    (h : F.findTicket C params prev = some k) :
    F.prover.prove k.challenge = some k.mined ∧ k.step.length ≤ maxSignage ∧
      ∀ a : Anchor, a.nonce = k.nonce → a.step = k.step →
        challengeFor C params a prev = .ok k.challenge := by
  cases prev with
  | none =>
    obtain ⟨hmined, hchallenge, hstep⟩ := grind_spec h
    refine ⟨hmined, by rw [hstep]; exact Nat.zero_le _, fun a hnonce ha => ?_⟩
    unfold challengeFor
    rw [ha, hstep, if_neg (by simp), hnonce, ← hchallenge]
  | some p =>
    obtain ⟨walked, out, hstep, hlen, hzero, hmined, hwalk, hchallenge⟩ := walkSignage_spec hF h
    rw [List.nil_append] at hstep
    refine ⟨hmined, by rw [hstep]; exact hlen, fun a hnonce ha => ?_⟩
    have hwalk' : signageWalk params (signageStepIters params) 0
        (toHex (anchorChallenge C (some p) 0)) a.step = .ok out := by
      rw [ha, hstep]
      exact hwalk
    simp only [challengeFor]
    rw [if_neg (by simp [hnonce, hzero]), hwalk', ha, hchallenge]

/-! ## The anchor -/

/-- What a mined anchor commits to, and that its proofs verify at the difficulty it was mined
at. -/
structure Mined (C : Crypto) (params : ChainParams) (verifier : SpaceVerifier)
    (prev : Option Anchor) (prevHeads heads : Heads) (difficulty : ℕ) (appRoot : String)
    (a : Anchor) : Prop where
  height_eq : a.height = (match prev with | none => 0 | some p => p.height + 1)
  prev_eq : a.prev = prev.map (·.id)
  difficulty_eq : a.difficulty = difficulty
  weight_eq : a.weight = (match prev with | none => 0 | some p => p.weight) + difficulty
  headsDelta_eq : a.headsDelta = diffHeads prevHeads heads
  stateRoot_eq : a.stateRoot = rootOfHeads C heads
  appRoot_eq : a.appRoot = appRoot
  step_le : a.step.length ≤ maxSignage
  proofs : ∃ challenge, challengeFor C params a prev = .ok challenge ∧
    ∀ hs, verifyProofs C params verifier a difficulty challenge hs = .ok hs

theorem mineAnchor_spec (hF : F.Complete C params verifier) {prev : Option Anchor}
    {prevHeads heads : Heads} {difficulty : ℕ} {appRoot : String} {a : Anchor}
    (h : F.mineAnchor C params prev prevHeads heads difficulty appRoot = some a) :
    Mined C params verifier prev prevHeads heads difficulty appRoot a := by
  obtain ⟨k, hk, h⟩ := Option.bind_eq_some_iff.mp h
  obtain ⟨quality, hquality, h⟩ := Option.bind_eq_some_iff.mp h
  obtain ⟨time, htime, rfl⟩ := Option.map_eq_some_iff.mp h
  obtain ⟨hq, hne⟩ := Option.filter_eq_some_iff.mp hquality
  obtain ⟨hmined, hlen, hchallenge⟩ := findTicket_spec hF hk
  obtain ⟨hiters, hsafe, hvalid⟩ := hF.evals _ _ _ htime
  refine ⟨rfl, rfl, rfl, rfl, rfl, rfl, rfl, hlen, k.challenge, hchallenge _ rfl rfl, fun hs => ?_⟩
  have hresult := hF.proves _ _ hmined
  unfold verifyProofs
  simp only [hresult]
  rw [Option.filter_some, if_pos (by simpa using hne)]
  simp only [hq]
  -- the count served is the one required: below `2 ^ 53` it survives the conversion
  rw [if_neg (by rw [hiters, numberOf_eq hsafe]; exact lt_irrefl _), if_neg (by simp [hvalid]),
    if_neg (by simp), fromHex_toHex, fromHex_toHex, if_neg (by simp [hF.signs])]

/-- A miner's anchor is refused for its difficulty or for its heads, or not at all. -/
theorem Mined.verifyAnchor_iff {prev : Option Anchor} {prevHeads heads : Heads} {difficulty : ℕ}
    {appRoot : String} {a : Anchor}
    (h : Mined C params verifier prev prevHeads heads difficulty appRoot a) (other : Heads)
    (expected : ℕ) :
    (∃ hs, verifyAnchor C a prev other params expected verifier = .ok hs) ↔
      difficulty = expected ∧
        rootOfHeads C heads = rootOfHeads C (applyHeadsDelta other (diffHeads prevHeads heads)) := by
  constructor
  · rintro ⟨hs, hok⟩
    have hverified := verifyAnchor_ok hok
    refine ⟨h.difficulty_eq.symm.trans hverified.difficulty_eq, ?_⟩
    rw [← h.stateRoot_eq, hverified.stateRoot_eq, hverified.heads_eq, h.headsDelta_eq]
  · rintro ⟨rfl, hroot⟩
    obtain ⟨challenge, hchallenge, hproofs⟩ := h.proofs
    refine ⟨applyHeadsDelta other a.headsDelta, ?_⟩
    unfold verifyAnchor
    refine (if_neg (not_not.mpr h.difficulty_eq)).trans ?_
    refine (if_neg (not_not.mpr h.height_eq)).trans ?_
    refine (if_neg (not_not.mpr h.prev_eq)).trans ?_
    refine (if_neg (not_not.mpr h.weight_eq)).trans ?_
    simp only
    rw [if_neg (by rw [h.stateRoot_eq, h.headsDelta_eq]; exact not_not.mpr hroot),
      if_neg (Nat.not_lt.mpr h.step_le), hchallenge]
    exact hproofs _

end Farmer

end Gavl
