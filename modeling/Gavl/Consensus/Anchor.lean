import Gavl.Chain.Iters
import Gavl.Ledger.Heads

/-!
# Anchors

An anchor is a proven certificate of a snapshot of writer heads. Anchors form a chain: each
names its predecessor and carries only the heads that advanced since it, together with a
commitment to the full map. `verifyAnchor` is what stands between a peer's anchor and the
chain.

Amounts that cross the wire as decimal strings (difficulty, weight) are natural numbers
here: `verifyAnchor` compares the string with the canonical text of the value it expects, so
no other spelling passes.
-/

namespace Gavl

/-- Public commitment to a plot. -/
structure SpaceCommitment where
  kind : String
  id : String
  k : ℕ
deriving DecidableEq

structure AnchorBody where
  height : ℕ
  prev : Option String
  producer : String
  /-- Grindable at genesis only. -/
  nonce : ℕ
  /-- The signage-point walk that revealed this anchor's challenge. -/
  step : List TimeProof
  difficulty : ℕ
  /-- The writer heads that changed since `prev`. -/
  headsDelta : Heads
  /-- `rootOfHeads` of the full heads. -/
  stateRoot : String
  /-- `viewRoot` of the board the parent certifies. -/
  appRoot : String
  /-- Cumulative weight. -/
  weight : ℕ
  space : SpaceCommitment
  proof : Json

structure Anchor extends AnchorBody where
  time : TimeProof
  id : String
  sig : String

/-! ## Parameters -/

/-- What a space verifier answers. -/
structure SpaceResult where
  ok : Bool
  quality : Option String

/-- `verify(commitment, producer, challenge, proof)` of the pluggable space backend. -/
abbrev SpaceVerifier := SpaceCommitment → String → Bytes → Json → SpaceResult

def genesisSeed : List Char := "gavl-anchor-genesis-v1".toList

/-- Bound on the signage-point walk. -/
def maxSignage : ℕ := 4096

/-- Sequential steps between signage points. -/
def signageStepIters (params : ChainParams) : ℕ :=
  if 0 < params.floorIters then params.floorIters else 1

def spaceWeightFor (commitment : SpaceCommitment) : ℕ :=
  if commitment.kind = "chiapos" then expectedPlotSize commitment.k else 1

/-! ## Heads deltas -/

/-- The writers whose head changed from `prev` to `next`. -/
def diffHeads (prev next : Heads) : Heads :=
  next.filter (fun w h => match prev.get? w with
    | none => true
    | some p => decide (p.seq ≠ h.seq) || decide (p.id ≠ h.id))

/-- A delta applied onto the previous full heads. -/
def applyHeadsDelta (prev delta : Heads) : Heads := prev.overlay delta

/-! ## Challenges -/

/-- The base challenge of the next anchor. -/
def anchorChallenge (C : Crypto) (prev : Option Anchor) (nonce : ℕ) : Bytes :=
  match prev with
  | none => C.sha256 (utf8 genesisSeed ++ u32be nonce)
  | some p => C.sha256 (fromHex p.time.output ++ fromHex p.id)

/-- The challenge at signage point `sp`. -/
def signageChallenge (C : Crypto) (base : Bytes) (vdfOut : String) (sp : ℕ) : Bytes :=
  if sp = 0 then base else C.sha256 (base ++ fromHex vdfOut ++ u32be sp)

/-! ## Identity -/

namespace SpaceCommitment

def toJson (s : SpaceCommitment) : Json :=
  .obj [("kind", .str s.kind), ("id", .str s.id), ("k", .nat s.k)]

end SpaceCommitment

namespace AnchorBody

def toJson (b : AnchorBody) : Json :=
  .obj [("height", .nat b.height), ("prev", .nullable b.prev), ("producer", .str b.producer),
    ("nonce", .nat b.nonce), ("step", .arr (b.step.map TimeProof.toJson)),
    ("difficulty", .decimal b.difficulty), ("headsDelta", b.headsDelta.toJson),
    ("stateRoot", .str b.stateRoot), ("appRoot", .str b.appRoot), ("weight", .decimal b.weight),
    ("space", b.space.toJson), ("proof", b.proof)]

/-- The predecessor's id where it counts as one: the code tests `prev` for truth, so an
empty string is no link. -/
def link (b : AnchorBody) : Option String := b.prev.filter (fun p => decide (p ≠ ""))

end AnchorBody

/-- The id an anchor must carry. -/
def idOf (C : Crypto) (body : AnchorBody) (time : TimeProof) : String :=
  C.sha256Hex (canonicalBytes (.obj [("body", body.toJson), ("time", time.toJson)]))

/-! ## Verification -/

/-- What `verifyAnchor` yields: the reconstructed full heads, a reason, or an exception from a
conversion of a field the space backend supplied. -/
inductive AnchorResult where
  | ok (heads : Heads)
  | fail (reason : String)
  | thrown (message : String)

/-- The signage walk of `verifyAnchor`: every step of the right size and valid over the
previous output. Returns the output reached. -/
def signageWalk (params : ChainParams) (stepIters : ℕ) :
    ℕ → String → List TimeProof → Except String String
  | _, vdfOut, [] => .ok vdfOut
  | i, vdfOut, s :: rest =>
    if s.iters ≠ stepIters then .error s!"bad signage step {i} size"
    else if !params.vdfVerify (fromHex vdfOut) s then .error s!"bad signage step {i} proof"
    else signageWalk params stepIters (i + 1) s.output rest

/-- The space challenge an anchor answers, or why the walk that led to it is invalid. -/
def challengeFor (C : Crypto) (params : ChainParams) (anchor : Anchor) :
    Option Anchor → Except String Bytes
  | none =>
    if anchor.step.length ≠ 0 then .error "genesis carries signage steps"
    else .ok (anchorChallenge C none anchor.nonce)
  | some p =>
    if anchor.nonce ≠ 0 then .error "non-genesis nonce must be 0"
    else
      let base := anchorChallenge C (some p) 0
      match signageWalk params (signageStepIters params) 0 (toHex base) anchor.step with
      | .error e => .error e
      | .ok vdfOut => .ok (signageChallenge C base vdfOut anchor.step.length)

/-- The proofs an anchor carries over its challenge: space, cooldown, time, id, signature. -/
def verifyProofs (C : Crypto) (params : ChainParams) (verifier : SpaceVerifier)
    (anchor : Anchor) (expectedDifficulty : ℕ) (challenge : Bytes) (heads : Heads) : AnchorResult :=
  let v := verifier anchor.space anchor.producer challenge anchor.proof
  match v.quality.filter (fun q => v.ok && decide (q ≠ "")) with
  | none => .fail "bad space proof"
  | some quality =>
    match hexToNat? quality with
    | none => .thrown "Cannot convert quality to a BigInt"
    | some q =>
      let need := requiredIters q params (spaceWeightFor anchor.space) expectedDifficulty
      if anchor.time.iters < need then .fail "insufficient cooldown"
      else if !params.vdfVerify (vdfChallenge C challenge quality) anchor.time then
        .fail "bad time proof"
      else if idOf C anchor.toAnchorBody anchor.time ≠ anchor.id then .fail "id mismatch"
      else if !C.edVerify (fromHex anchor.producer) (fromHex anchor.id) (fromHex anchor.sig) then
        .fail "bad signature"
      else .ok heads

/-- Verify an anchor against its predecessor, the heads the predecessor certified and the
expected difficulty. -/
def verifyAnchor (C : Crypto) (anchor : Anchor) (prev : Option Anchor) (prevHeads : Heads)
    (params : ChainParams) (expectedDifficulty : ℕ) (verifier : SpaceVerifier) : AnchorResult :=
  if anchor.difficulty ≠ expectedDifficulty then
    .fail s!"wrong difficulty ({anchor.difficulty}, expected {expectedDifficulty})"
  else if anchor.height ≠ (match prev with | none => 0 | some p => p.height + 1) then
    .fail "bad height"
  else if anchor.prev ≠ prev.map (·.id) then .fail "bad prev link"
  else if anchor.weight ≠ (match prev with | none => 0 | some p => p.weight) + expectedDifficulty then
    .fail "bad cumulative weight"
  else
    let heads := applyHeadsDelta prevHeads anchor.headsDelta
    if anchor.stateRoot ≠ rootOfHeads C heads then .fail "stateRoot ≠ heads"
    else if maxSignage < anchor.step.length then .fail "too many signage steps"
    else
      match challengeFor C params anchor prev with
      | .error reason => .fail reason
      | .ok challenge => verifyProofs C params verifier anchor expectedDifficulty challenge heads

end Gavl
