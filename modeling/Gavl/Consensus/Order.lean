import Gavl.Chain.Writer
import Gavl.Consensus.Chain
import Gavl.Det.Number

/-!
# The order an anchor induces

An anchor certifies the writes its heads cover. They fold in the order of their epochs, the
height of the first anchor on its chain that covered them; within an epoch, in the order of
their stamps.
-/

namespace Gavl

/-! ## Epochs -/

/-- What the loop over the chain has found: the highest seq covered of each writer, and the
epochs assigned. -/
structure Epochs where
  covered : OrderedMap String ℕ
  epoch : OrderedMap String ℤ

namespace Epochs

/-- `w` is in the stretch of its writer that a head at `seq` newly covers. -/
def fresh (s : Epochs) (seq : ℕ) (w : Write) : Bool :=
  (match s.covered.get? w.writer with
    | none => true
    | some from' => decide (from' < w.seq)) && decide (w.seq ≤ seq)

/-- Assign an epoch to a write that has none. -/
def assign (height : ℕ) (epoch : OrderedMap String ℤ) (w : Write) : OrderedMap String ℤ :=
  if epoch.has w.id then epoch else epoch.set w.id height

/-- One writer of one anchor's delta. -/
def cover (writes : List Write) (height : ℕ) (s : Epochs) (e : String × Head) : Epochs :=
  let moved := match s.covered.get? e.1 with
    | none => true
    | some from' => decide (from' < e.2.seq)
  if !moved then s
  else
    { covered := s.covered.set e.1 e.2.seq
      epoch := (writes.filter (fun w => decide (w.writer = e.1) && s.fresh e.2.seq w)).foldl
        (assign height) s.epoch }

/-- One anchor of the chain. -/
def coverAnchor (writes : List Write) (s : Epochs) (anchor : Anchor) : Epochs :=
  anchor.headsDelta.entries.foldl (cover writes anchor.height) s

end Epochs

/-- Write id to height of the first anchor of `chain` that certified it. -/
def epochOf (chain : List Anchor) (writes : List Write) : OrderedMap String ℤ :=
  (chain.foldl (Epochs.coverAnchor writes) ⟨∅, ∅⟩).epoch

/-! ## The ordering -/

/-- The writes an anchor certifies with the order and the clock they fold by. -/
structure FinalOrdering where
  included : List Write
  /-- Negative: the first comes first. -/
  order : Write → Write → ℤ
  bornAt : OrderedMap String ℤ
  /-- `none` where there is no anchor yet. -/
  nowHeight : Option ℤ
  /-- The certifying chain, oldest first. -/
  chain : List Anchor

/-- `Number.MAX_SAFE_INTEGER`, the epoch of a write no anchor certified. -/
def noEpoch : ℤ := 9007199254740991

/-- By epoch, stamp, writer and sequence number. -/
def epochOrder (epoch : OrderedMap String ℤ) (a b : Write) : ℤ :=
  let ea := (epoch.get? a.id).getD noEpoch
  let eb := (epoch.get? b.id).getD noEpoch
  if ea ≠ eb then ea - eb
  else if !Json.strictEq a.ts b.ts then Json.minus a.ts b.ts
  else if a.writer ≠ b.writer then if a.writer < b.writer then -1 else 1
  else (a.seq : ℤ) - b.seq

/-- The ordering relative to `anchor`. -/
def orderingFor (writes : List Write) (anchors : AnchorChain) (anchor : Option Anchor) :
    FinalOrdering :=
  match anchor with
  | none => ⟨[], fun _ _ => 0, ∅, none, []⟩
  | some anchor =>
    let chain := anchors.chainTo anchor
    let heads := anchors.headsAt anchor.id
    let included := writes.filter (fun w => match heads.get? w.writer with
      | none => false
      | some h => decide (w.seq ≤ h.seq))
    let epoch := epochOf chain included
    ⟨included, epochOrder epoch, epoch, some anchor.height, chain⟩

/-- The ordering relative to the anchor `k` deep. -/
def finalizedOrdering (writes : List Write) (anchors : AnchorChain) (k : ℕ) : FinalOrdering :=
  orderingFor writes anchors (anchors.finalized k)

end Gavl
