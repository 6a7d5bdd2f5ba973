import Gavl.Consensus.Difficulty

/-!
# The anchor chain

Heaviest-cumulative-weight fork choice with sticky depth finality. The chain stores every
valid anchor it has seen; the tip is the anchor of greatest cumulative weight, and once the
tip's `finalityDepth`-th ancestor is locked, a fork that abandons it must win `resolveFork`.

The loops of the source that follow `prev` links run until a link is missing. Here they are
`ParentWalk.walk` with the number of stored anchors as fuel: a run of links that ends visits
no stored anchor twice, and only where the links form a cycle, on which the source would not
return, does the fuel cut anything off.
-/

namespace Gavl

open ParentWalk

/-- The producer of the hardcoded genesis: a sentinel, not a farmer. -/
def genesisProducer : String := "0000000000000000000000000000000000000000000000000000000000000000"

/-- Anchors, ending at the fork point, whose producers form the reference weights of
`resolveFork`. -/
def forkWindow : ℕ := 64

/-- A conflicting branch refused because it does not contain this node's settled anchor. -/
structure SettledConflict where
  settledId : String
  settledHeight : ℕ
  rejectedId : String
  rejectedHeight : ℕ
  rejectedWeight : ℕ
deriving DecidableEq

inductive AddResult where
  | ok
  | fail (reason : String)
  /-- The promise rejects: verification threw. -/
  | thrown (message : String)
deriving DecidableEq

/-- What an `AnchorChain` is constructed with. -/
structure ChainConfig where
  crypto : Crypto
  params : ChainParams
  verifier : SpaceVerifier
  schedule : Option RetargetSchedule
  finalityDepth : Option ℕ
  settlementDepth : Option ℕ

/-- The mutable state of an `AnchorChain`. -/
structure AnchorChain where
  anchors : OrderedMap String Anchor
  tipId : Option String
  /-- Full heads of the current tip. -/
  tipHeads : Heads
  lockedId : Option String
  settledId : Option String
  /-- Oldest anchor still held once pruned or adopted, with its full heads. -/
  floorId : Option String
  floorHeads : Heads
  genesisId : Option String
  settledConflict : Option SettledConflict

/-- The application's judgement of an anchor's `appRoot`, looking at the chain that already
stores it. -/
abbrev StateCheck := AnchorChain → Anchor → Heads → Bool

/-- `a` is the better tip: more cumulative weight, ties broken by the lower id. -/
def heavier (a b : Anchor) : Bool :=
  if a.weight ≠ b.weight then decide (b.weight < a.weight) else decide (a.id < b.id)

namespace AnchorChain

/-- A chain as constructed: nothing stored. -/
def new : AnchorChain where
  anchors := ∅
  tipId := none
  tipHeads := ∅
  lockedId := none
  settledId := none
  floorId := none
  floorHeads := ∅
  genesisId := none
  settledConflict := none

variable (c : AnchorChain)

/-! ## Reads -/

def get (id : String) : Option Anchor := c.anchors.get? id

def tip : Option Anchor := c.tipId.bind c.get

/-- `cur.prev ? this.anchors.get(cur.prev) : undefined`. -/
def parent (a : Anchor) : Option Anchor := a.link.bind c.get

/-- The anchor, its parent, ..., as far as links are held. -/
def ancestry (a : Anchor) : List Anchor := walk c.parent (c.anchors.size + 1) a

/-- The same run, oldest first. -/
def chainTo (a : Anchor) : List Anchor := (c.ancestry a).reverse

/-- Whether `anchor` is or descends from the anchor `id`; anything descends from no anchor. -/
def descendsFrom (anchor : Anchor) (id : Option String) : Bool :=
  match id.filter (fun i => decide (i ≠ "")) with
  | none => true
  | some i => (c.ancestry anchor).any (fun a => decide (a.id = i))

/-- The ancestor `k` links below, or the last one held above it. -/
def deep : ℕ → Anchor → Anchor
  | 0, a => a
  | k + 1, a => match c.parent a with
    | none => a
    | some p => deep k p

def finalized (k : ℕ) : Option Anchor := c.tip.map (c.deep k)

def settled : Option Anchor := c.settledId.bind c.get

/-- The full writer heads an anchor certified, rebuilt from the deltas along its ancestry.
The tip's are cached, the floor's are stored. -/
def headsAt (anchorId : String) : Heads :=
  if some anchorId = c.tipId then c.tipHeads
  else if some anchorId = c.floorId then c.floorHeads
  else
    match c.get anchorId with
    | none => ∅
    | some a =>
      match c.chainTo a with
      | [] => ∅
      | bottom :: above =>
        if c.floorId = some bottom.id then
          above.foldl (fun heads b => applyHeadsDelta heads b.headsDelta) c.floorHeads
        else
          (bottom :: above).foldl (fun heads b => applyHeadsDelta heads b.headsDelta) ∅

/-- The difficulty an anchor extending `prev` must commit to. -/
def difficultyFor (cfg : ChainConfig) (prev : Option Anchor) : ℕ :=
  match cfg.schedule with
  | none => cfg.params.difficulty
  | some sched => nextDifficulty c.parent sched prev

/-! ## Moving the tip -/

/-- The later of the current lock and the anchor now `depth` deep. -/
def advanceLock (cur : Option String) (depth : Option ℕ) : Option String :=
  match depth with
  | none => cur
  | some k =>
    match c.finalized k with
    | none => cur
    | some newly =>
      match cur.bind c.get with
      | none => some newly.id
      | some prev => if prev.height < newly.height then some newly.id else cur

/-- Lock the anchor now `finalityDepth` deep and settle the one `settlementDepth` deep. -/
def updateLock (cfg : ChainConfig) : AnchorChain :=
  { c with
    lockedId := c.advanceLock c.lockedId cfg.finalityDepth
    settledId := c.advanceLock c.settledId cfg.settlementDepth }

def setTip (cfg : ChainConfig) (anchor : Anchor) (heads : Heads) : AnchorChain :=
  { c with tipId := some anchor.id, tipHeads := heads }.updateLock cfg

/-! ## Fork resolution -/

/-- What `resolveFork` answers. -/
structure Verdict where
  switchTo : Option String
  final : Bool
deriving DecidableEq

/-- The producers of a branch, each once. -/
def producersOf (branch : List Anchor) : List String := (branch.map (·.producer)).dedup

/-- The producers of the reference window ending at the fork point, one entry for each
anchor won. -/
def referenceProducers (fork : Anchor) : List String :=
  (((c.ancestry fork).take forkWindow).map (·.producer)).filter
    (fun p => decide (p ≠ genesisProducer))

/-- Reference weight of the producers who built on one branch and not on the other. -/
def support (reference mine other : List String) : ℕ :=
  ((mine.filter (fun p => decide (p ∉ other))).map (fun p => reference.count p)).sum

/-- The anchors of `anchor`'s branch that are not on `tip`'s, newest first. -/
def branchAbove (anchor tip : Anchor) : List Anchor :=
  (c.ancestry anchor).takeWhile (fun a => decide (a.id ∉ (c.ancestry tip).map (·.id)))

/-- The last anchor the two branches share. -/
def forkPoint (anchor tip : Anchor) : Option Anchor :=
  (c.ancestry anchor).find? (fun a => decide (a.id ∈ (c.ancestry tip).map (·.id)))

/-- Weigh a branch that conflicts with the lock against the current one. -/
def resolveFork (anchor tip : Anchor) : Verdict :=
  match c.forkPoint anchor tip with
  | none => ⟨none, false⟩
  | some fork =>
    let theirs : List Anchor := c.branchAbove anchor tip
    let ours := (c.ancestry tip).takeWhile (fun a => decide (a.id ≠ fork.id))
    let reference := c.referenceProducers fork
    let ourProducers := producersOf ours
    let theirProducers := producersOf theirs
    if reference.length < 2 * support reference ourProducers theirProducers then ⟨none, false⟩
    else if reference.length < 2 * support reference theirProducers ourProducers then
      ⟨theirs.getLast?.map (fun a => a.id), true⟩
    else ⟨some fork.id, false⟩

/-! ## Adding an anchor -/

/-- `tip === null || heavier(anchor, tip)`. -/
def wouldBeTip (anchor : Anchor) : Bool :=
  match c.tip with
  | none => true
  | some tip => heavier anchor tip

/-- The verdict on a branch that conflicts with the lock. -/
def forkVerdict (anchor : Anchor) : Verdict :=
  match c.tip with
  | none => ⟨none, false⟩
  | some tip => c.resolveFork anchor tip

/-- The conflict reported when `anchor` abandons the settled anchor. -/
def conflictWith (anchor : Anchor) : Option SettledConflict :=
  c.settled.map (fun s : Anchor => ⟨s.id, s.height, anchor.id, anchor.height, anchor.weight⟩)

/-- The tail of `add`: the anchor is stored and its app state accepted; decide the tip. -/
def choose (cfg : ChainConfig) (anchor : Anchor) (heads : Heads) : AnchorChain × AddResult :=
  if c.descendsFrom anchor c.lockedId then
    if c.wouldBeTip anchor then (c.setTip cfg anchor heads, .ok) else (c, .ok)
  else
    match (c.forkVerdict anchor).switchTo with
    | some switchTo =>
      if (c.forkVerdict anchor).final || c.wouldBeTip anchor then
        -- settlement is absolute: whatever `resolveFork` says, stay on the settled anchor
        if !c.descendsFrom anchor c.settledId then
          ({ c with settledConflict := c.conflictWith anchor },
            .fail "rejected: conflicts with SETTLED history")
        else ({ c with lockedId := some switchTo }.setTip cfg anchor heads, .ok)
      else (c, .ok)
    | none =>
      if c.wouldBeTip anchor then (c, .fail "rejected: conflicts with finalized history")
      else (c, .ok)

/-- The chain with `anchor` stored. -/
def store (anchor : Anchor) : AnchorChain := { c with anchors := c.anchors.set anchor.id anchor }

/-- The full heads the delta of `anchor` is applied onto. -/
def parentHeads (anchor : Anchor) : Heads :=
  match c.parent anchor with
  | none => ∅
  | some p => c.headsAt p.id

/-- `verifyAnchor` as `add` calls it. -/
def verify (cfg : ChainConfig) (anchor : Anchor) : AnchorResult :=
  verifyAnchor cfg.crypto anchor (c.parent anchor) (c.parentHeads anchor) cfg.params
    (c.difficultyFor cfg (c.parent anchor)) cfg.verifier

/-- Add an anchor. -/
def add (cfg : ChainConfig) (verifyState : StateCheck) (anchor : Anchor) :
    AnchorChain × AddResult :=
  if c.anchors.has anchor.id then (c, .ok)
  else if anchor.prev = none ∧ c.genesisId ≠ none ∧ some anchor.id ≠ c.genesisId then
    (c, .fail "wrong genesis — block 0 is hardcoded")
  else if anchor.link ≠ none ∧ c.parent anchor = none then (c, .fail "unknown prev anchor")
  else
    match c.verify cfg anchor with
    | .fail reason => (c, .fail reason)
    | .thrown message => (c, .thrown message)
    | .ok heads =>
      if !verifyState (c.store anchor) anchor heads then
        -- stored first so that the check can walk the ancestry, dropped when it fails
        ({ c.store anchor with anchors := (c.store anchor).anchors.delete anchor.id },
          .fail "appRoot ≠ folded state")
      else (c.store anchor).choose cfg anchor heads

/-! ## Pruning and roots -/

/-- Never prune above the given anchor, when it is held. -/
def clampTo (id : Option String) (floorHeight : ℤ) : ℤ :=
  match id.bind c.get with
  | none => floorHeight
  | some a => if (a.height : ℤ) < floorHeight then a.height else floorHeight

/-- Drop the anchors below `floorHeight`, keeping the full heads of the floor. -/
def prune (cfg : ChainConfig) (floorHeight : ℤ) : AnchorChain :=
  match c.tip with
  | none => c
  | some tip =>
    let floorHeight := c.clampTo c.lockedId floorHeight
    let floorHeight :=
      if cfg.settlementDepth.isSome then c.clampTo c.settledId floorHeight else floorHeight
    if floorHeight ≤ 0 then c
    else
      let already := match c.floorId.bind c.get with
        | none => false
        | some f => decide (floorHeight ≤ (f.height : ℤ))
      if already then c
      else
        match (c.ancestry tip).find? (fun a => decide ((a.height : ℤ) ≤ floorHeight)) with
        | none => c
        | some floor =>
          if (floor.height : ℤ) ≠ floorHeight then c
          else
            { c with
              anchors := c.anchors.filter (fun _ a => decide (floorHeight ≤ (a.height : ℤ)))
              floorId := some floor.id
              floorHeads := c.headsAt floor.id }

/-- The linked run of `ancestry` directly below `cur`, up to the first gap. -/
def linkedRun (cur : Anchor) : List Anchor → List Anchor
  | [] => []
  | a :: rest =>
    if cur.prev ≠ some a.id ∨ a.height + 1 ≠ cur.height then [] else a :: linkedRun a rest

/-- A chain holding only an installed genesis still counts as fresh. -/
def genesisOnly : Bool :=
  decide (c.anchors.size = 1) && decide (c.tip.map (·.height) = some 0)

/-- Why difficulty could not be recomputed above `floor` as a full node would. -/
def floorObjection (cfg : ChainConfig) (floor : Anchor) (linked : List Anchor) : Option String :=
  match cfg.schedule with
  | none => none
  | some sched =>
    -- a remainder by an epoch of zero is not a number, hence not zero
    if sched.epoch = 0 ∨ floor.height % sched.epoch ≠ 0 then
      some "adopt: floor must sit on an epoch boundary for deterministic retarget"
    else
      let dip := sched.window - sched.epoch
      if linked.length < dip then
        some (s!"adopt: retarget window exceeds epoch and ancestry covers {linked.length}/{dip} "
          ++ "anchor(s) below the floor — cannot bound the difficulty window")
      else none

/-- The store `adopt` builds on: nothing of a bare genesis is kept. -/
def adoptBase : OrderedMap String Anchor := if c.genesisOnly then ∅ else c.anchors

/-- Bootstrap a fresh chain at a trusted floor. -/
def adopt (cfg : ChainConfig) (floor : Anchor) (floorHeads : Heads) (ancestry : List Anchor) :
    Except String AnchorChain :=
  if c.tipId ≠ none ∧ c.genesisOnly = false then .error "adopt: chain is not empty"
  else if rootOfHeads cfg.crypto floorHeads ≠ floor.stateRoot then
    .error "adopt: floorHeads do not match floor.stateRoot"
  else
    let linked := linkedRun floor ancestry
    match floorObjection cfg floor linked with
    | some reason => .error reason
    | none =>
      .ok { c with
        anchors := (linked.foldl (fun m a => m.set a.id a) c.adoptBase).set floor.id floor
        floorId := some floor.id
        floorHeads := floorHeads
        tipId := some floor.id
        tipHeads := floorHeads
        lockedId := some floor.id
        settledId := some floor.id }

/-- Install the hardcoded genesis as the root of an empty chain. -/
def installGenesis (cfg : ChainConfig) (genesis : Anchor) (heads : Heads) :
    Except String AnchorChain :=
  if c.tipId ≠ none ∨ 0 < c.anchors.size then .error "installGenesis: chain is not empty"
  else if genesis.height ≠ 0 ∨ genesis.prev ≠ none then
    .error "installGenesis: genesis must be height 0 with no prev"
  else if rootOfHeads cfg.crypto heads ≠ genesis.stateRoot then
    .error "installGenesis: heads do not match genesis.stateRoot"
  else
    .ok { c with
      anchors := c.anchors.set genesis.id genesis
      tipId := some genesis.id
      tipHeads := heads
      lockedId := some genesis.id
      settledId := some genesis.id
      genesisId := some genesis.id }

end AnchorChain

end Gavl
