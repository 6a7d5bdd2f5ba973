import Gavl.Sync.Node

/-!
# Ingesting arbitrary values

An `anchor-chain` message carries JSON, of which nothing but the array is checked before it is
sorted and added one by one. A value that throws ends the entry of the queue it is in, and the queue
swallows the error.
-/

namespace Gavl

namespace AnchorChain

/-- `add`, with what `verifyAnchor` answers on the anchor. -/
def addWith (c : AnchorChain) (cfg : ChainConfig) (verifyState : StateCheck) (anchor : Anchor)
    (verdict : AnchorResult) : AnchorChain × AddResult :=
  if c.anchors.has anchor.id then (c, .ok)
  else if anchor.prev = none ∧ c.genesisId ≠ none ∧ some anchor.id ≠ c.genesisId then
    (c, .fail "wrong genesis — block 0 is hardcoded")
  else if anchor.link ≠ none ∧ c.parent anchor = none then (c, .fail "unknown prev anchor")
  else
    match verdict with
    | .fail reason => (c, .fail reason)
    | .thrown message => (c, .thrown message)
    | .ok heads =>
      if !verifyState (c.store anchor) anchor heads then
        ({ c.store anchor with anchors := (c.store anchor).anchors.delete anchor.id },
          .fail "appRoot ≠ folded state")
      else (c.store anchor).choose cfg anchor heads

theorem addWith_verify (c : AnchorChain) (cfg : ChainConfig) (verifyState : StateCheck)
    (anchor : Anchor) :
    c.addWith cfg verifyState anchor (c.verify cfg anchor) = c.add cfg verifyState anchor := rfl

end AnchorChain

/-- What a height reads as, where arithmetic asks for a number. -/
inductive Height where
  | number (value : ℚ)
  | nan
  /-- It is a field of `null`, or an object that does not convert. -/
  | thrown

/-- The number, 0 where it is none. -/
def Height.value : Height → ℚ
  | number value => value
  | _ => 0

/-- A value of a message, as far as the node reads it. -/
inductive Offered where
  /-- Its id, prev, height and weight are of their types. Verifying it ends in any way where other
  fields are not. -/
  | value (anchor : Anchor) (verdict : AnchorChain → AnchorResult)
  /-- One of these is not: `add` refuses the value, knows its id or throws, and stores nothing. An
  id that is no string is given by a number. -/
  | stray (id : String ⊕ ℕ) (height : Height) (result : AddResult)

namespace Offered

/-- An anchor. -/
def anchor (cfg : ChainConfig) (a : Anchor) : Offered := .value a (fun c => c.verify cfg a)

def id : Offered → String ⊕ ℕ
  | value a _ => .inl a.id
  | stray id _ _ => id

def height : Offered → Height
  | value a _ => .number a.height
  | stray _ height _ => height

def asAnchor : Offered → Option Anchor
  | value a _ => some a
  | stray _ _ _ => none

/-- The height is a number. -/
def ordered (e : Offered) : Bool :=
  match e.height with
  | .number _ => true
  | _ => false

/-- Comparing by the height throws. -/
def throws (e : Offered) : Bool :=
  match e.height with
  | .thrown => true
  | _ => false

end Offered

/-- What `sort((x, y) => x.height - y.height)` may leave: some order, and the stable one where all
heights are numbers. -/
def SortsTo (elements sorted : List Offered) : Prop :=
  sorted.Perm elements ∧ ((∀ e ∈ elements, e.ordered = true) →
    sorted = elements.insertionSort (fun x y => x.height.value ≤ y.height.value))

/-- The stable sort that takes what is no number for 0. -/
def stableSort (elements : List Offered) : List Offered :=
  elements.insertionSort (fun x y => x.height.value ≤ y.height.value)

theorem sortsTo_stableSort (elements : List Offered) : SortsTo elements (stableSort elements) :=
  ⟨List.perm_insertionSort _ _, fun _ => rfl⟩

/-- What the `adoptFloor` hook does. -/
inductive Adoption where
  | refused
  | adopted (anchors : AnchorChain)
  | thrown

/-- What a `GavlNode` runs on: its chain's configuration and check, its hook, and the engine's
sort. -/
structure NodeHooks where
  cfg : ChainConfig
  verifyState : StateCheck
  adoptFloor : AnchorChain → List Offered → Adoption
  /-- The floor is the tip of the chain that is adopted. -/
  floored : ∀ c elements c', adoptFloor c elements = .adopted c' → c'.tip.isSome
  sort : List Offered → List Offered
  sorts : ∀ elements, SortsTo elements (sort elements)

/-- What processing a message leaves. -/
structure Ingested where
  anchors : AnchorChain
  orphanAnchors : OrderedMap (String ⊕ ℕ) Offered
  /-- Sent to the peer. -/
  replies : List SyncMessage
  /-- `onTip` is called with the tip, which then is broadcast. -/
  announced : Option Daemon.TipMove

namespace NodeHooks

variable (h : NodeHooks)

/-- `await this.anchors.add(a)`. -/
def offer (c : AnchorChain) : Offered → AnchorChain × AddResult
  | .value a verdict => c.addWith h.cfg h.verifyState a (verdict c)
  | .stray _ _ result => (c, result)

/-- The loop over the sorted values: whether there was a gap and a conflict, `none` if it threw. -/
def offerAll : AnchorChain → List Offered → Bool → Bool → AnchorChain × Option (Bool × Bool)
  | c, [], gap, conflict => (c, some (gap, conflict))
  | c, e :: es, gap, conflict =>
    match h.offer c e with
    | (c, .thrown _) => (c, none)
    | (c, .ok) => offerAll c es gap conflict
    | (c, .fail reason) =>
      offerAll c es (gap || decide (reason = "unknown prev anchor"))
        (conflict || decide (reason = "rejected: conflicts with finalized history"))

/-- Every value is compared, unless it is the only one. -/
def sortThrows (elements : List Offered) : Bool :=
  decide (2 ≤ elements.length) && elements.any Offered.throws

/-- Sort and add. -/
def offerSorted (c : AnchorChain) (elements : List Offered) : AnchorChain × Option (Bool × Bool) :=
  if sortThrows elements then (c, none) else h.offerAll c (h.sort elements) false false

/-- `resolveBootstrap`. -/
def resolveBootstrap (c : AnchorChain) (orphans : OrderedMap (String ⊕ ℕ) Offered)
    (replies : List SyncMessage) : Ingested :=
  if !c.fresh || decide (orphans.size = 0) then ⟨c, orphans, replies, none⟩
  else
    match h.adoptFloor c orphans.values with
    | .refused => ⟨c, orphans, replies, none⟩
    | .thrown => ⟨c, orphans, replies, none⟩
    | .adopted c =>
      match h.offerSorted c orphans.values with
      | (c, none) => ⟨c, orphans, replies, none⟩
      | (c, some _) => ⟨c, ∅, replies, c.tip.map (fun t => ⟨t, none⟩)⟩

end NodeHooks

namespace Ingested

/-- The values that are not on the own branch. -/
def foreign (c : AnchorChain) (elements : List Offered) : List Offered :=
  elements.filter (fun e => c.tipChain.all (fun a => decide (e.id ≠ .inl a.id)))

/-- The own branch from the fork up. Where a foreign height is no number, nothing is above it. -/
def branchFor (c : AnchorChain) (elements : List Offered) : List Anchor :=
  if (foreign c elements).any (fun e => !e.ordered) then []
  else c.tipChain.filter (fun a =>
    (foreign c elements).any (fun e => decide (e.height.value ≤ a.height)))

/-- A late joiner holding only block 0 is still fresh. -/
def effectivelyFresh (c : AnchorChain) (elements : List Offered) : Bool :=
  match c.tip with
  | none => true
  | some t => decide (t.height = 0) && elements.all (fun e => decide (0 < e.height.value))

/-- Looking at the heights again, for the fork or for freshness, throws. -/
def rereadThrows (c : AnchorChain) (elements : List Offered) (conflict : Bool) : Bool :=
  (conflict && (foreign c elements).any Offered.throws)
    || (decide (c.tip.map (·.height) = some 0) && elements.any Offered.throws)

/-- Buffer values that link to nothing held. -/
def bufferOrphans (orphans : OrderedMap (String ⊕ ℕ) Offered) (elements : List Offered) :
    OrderedMap (String ⊕ ℕ) Offered :=
  if orphans.size < orphanCap then elements.foldl (fun m e => m.set e.id e) orphans else orphans

end Ingested

namespace NodeHooks

variable (h : NodeHooks)

open Ingested

/-- The tail of `ingestAnchors`, its loop done. -/
def finishIngest (c : AnchorChain) (orphans : OrderedMap (String ⊕ ℕ) Offered) (conn : Conn)
    (elements : List Offered) (before : Option String) (gap conflict : Bool) : Ingested :=
  let replies := if conflict && !(foreign c elements).any Offered.throws then
    [SyncMessage.anchorChain (branchFor c elements)] else []
  if rereadThrows c elements conflict then ⟨c, orphans, replies, none⟩
  else if gap && effectivelyFresh c elements then
    h.resolveBootstrap c (bufferOrphans orphans elements) replies
  else
    ⟨c, orphans, if gap then replies ++ [.anchorWant 0] else replies,
      (c.tip.filter (fun t => decide (some t.id ≠ before))).map (fun t => ⟨t, some conn⟩)⟩

/-- `ingestAnchors`, with the errors that the queue swallows. -/
def ingestAnchors (c : AnchorChain) (orphans : OrderedMap (String ⊕ ℕ) Offered) (conn : Conn)
    (elements : List Offered) : Ingested :=
  match h.offerSorted c elements with
  | (c', none) => ⟨c', orphans, [], none⟩
  | (c', some (gap, conflict)) =>
    h.finishIngest c' orphans conn elements (c.tip.map (·.id)) gap conflict

end NodeHooks

end Gavl
