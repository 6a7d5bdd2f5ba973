import Gavl.Lib.OrderedMap
import Gavl.Det.Canonical

/-!
# Writer heads

The tip of every writer's chain, and the commitment over all of them that anchors carry.
-/

namespace Gavl

/-- A writer's current tip. -/
structure Head where
  id : String
  seq : ℕ
deriving DecidableEq, Repr

/-- Writer public key (hex) to head. -/
abbrev Heads := OrderedMap String Head

namespace Heads

/-- The object `{ writer: { id, seq } }`. -/
def toJson (h : Heads) : Json :=
  .obj (h.entries.map (fun e => (e.1, .obj [("id", .str e.2.id), ("seq", .nat e.2.seq)])))

/-- The entries in the order of their writers. -/
def sortedEntries (h : Heads) : List (String × Head) :=
  h.entries.insertionSort (fun a b => a.1 ≤ b.1)

/-- The list of `[writer, id, seq]` the commitment is taken over. -/
def entriesJson (h : Heads) : Json :=
  .arr (h.sortedEntries.map (fun e => .arr [.str e.1, .str e.2.id, .nat e.2.seq]))

end Heads

/-- Deterministic commitment over a set of heads. -/
def rootOfHeads (C : Crypto) (heads : Heads) : String :=
  C.sha256Hex (canonicalBytes heads.entriesJson)

end Gavl
