import Gavl.Chain.Iters
import Gavl.Lib.OrderedMap
import Gavl.Pos.Space

/-!
# The per-writer chain

Each identity owns a single chain of writes. A write proves on its own the space, the cooldown
and the signature behind it; its chain checks that it extends the tip.
-/

namespace Gavl

/-- Chain position: the only inputs to the proof challenge. -/
structure Trunk where
  writer : String
  seq : ℕ
  prev : Option String
  /-- No check reads it, so off the wire it is any value. -/
  stateRoot : Json

/-- The signed-over body. -/
structure WriteCore extends Trunk where
  plot : PlotCommitment
  difficulty : String
  /-- Wall-clock stamp. No check reads it, so off the wire it is any value. -/
  ts : Json
  payload : Json

structure Write extends WriteCore where
  space : SpaceProof
  time : TimeProof
  id : String
  sig : String

namespace Trunk

def fields (t : Trunk) : List (String × Json) :=
  [("writer", .str t.writer), ("seq", .nat t.seq), ("prev", .nullable t.prev),
    ("stateRoot", t.stateRoot)]

end Trunk

namespace WriteCore

def toJson (c : WriteCore) : Json :=
  .obj (c.toTrunk.fields ++ [("plot", c.plot.toJson), ("difficulty", .str c.difficulty),
    ("ts", c.ts), ("payload", c.payload)])

end WriteCore

/-- The challenge space and time are computed over. -/
def challengeOf (C : Crypto) (trunk : Trunk) : Bytes :=
  C.sha256 (canonicalBytes (.obj trunk.fields))

/-- The id a write must carry. -/
def writeIdOf (C : Crypto) (core : WriteCore) (space : SpaceProof) (time : TimeProof) : String :=
  C.sha256Hex (canonicalBytes
    (.obj [("core", core.toJson), ("space", space.toJson), ("time", time.toJson)]))

/-! ## Self-contained verification -/

inductive VerifyResult where
  | ok
  | fail (reason : String)
  /-- A conversion of a field threw. -/
  | thrown (message : String)
deriving DecidableEq

/-- `skipTimeProof` skips only the check that the time proof ran. -/
def verifyWrite (C : Crypto) (params : ChainParams) (skipTimeProof : Bool) (w : Write) :
    VerifyResult :=
  if w.difficulty ≠ toString params.difficulty then
    .fail s!"wrong difficulty ({w.difficulty}, expected {params.difficulty})"
  else
    let challenge := challengeOf C w.toTrunk
    if !verifySpaceProof C w.writer w.plot challenge w.space then .fail "bad space proof"
    else
      match hexToNat? w.space.quality with
      | none => .thrown "Cannot convert quality to a BigInt"
      | some quality =>
        let needIters := requiredIters quality params 1 params.difficulty
        if w.time.iters < needIters then
          .fail (s!"insufficient cooldown ({w.time.iters} < {needIters} required by proof "
            ++ "quality)")
        else if !skipTimeProof && !params.vdfVerify (vdfChallenge C challenge w.space.value) w.time
        then .fail "bad time proof"
        else if writeIdOf C w.toWriteCore w.space w.time ≠ w.id then .fail "id mismatch"
        else if !C.edVerify (fromHex w.writer) (fromHex w.id) (fromHex w.sig) then
          .fail "bad signature"
        else .ok

/-! ## The chain of one writer -/

/-- One writer's chain, holding its writes from `baseSeq` upward. -/
structure WriterChain where
  writer : String
  /-- Null only on a resumed chain without writes: learned from the first write. -/
  plotRoot : Option String
  writes : List Write
  /-- Sum of the difficulties, the pruned prefix included. -/
  weight : ℕ
  baseSeq : ℕ
  /-- Id of the write below the base, which the first write links to. -/
  baseHeadId : Option String

inductive AppendResult where
  | ok
  | fail (reason : String)
  /-- A different write already occupies the slot. -/
  | equivocation (existing w : Write)
  | thrown (message : String)

namespace WriterChain

/-- An empty chain of a writer with the given plot. -/
def fresh (writer : String) (plot : PlotCommitment) : WriterChain :=
  ⟨writer, some plot.root, [], 0, 0, none⟩

/-- Resume above a finalized checkpoint: no history below `baseSeq`. -/
def resumeAt (params : ChainParams) (writer : String) (baseSeq : ℕ) (baseHeadId : String) :
    WriterChain :=
  ⟨writer, none, [], baseSeq * writeWeight params, baseSeq, some baseHeadId⟩

variable (c : WriterChain)

/-- Next seq this chain expects. -/
def nextSeq : ℕ := c.baseSeq + c.writes.length

/-- Id of the last write, else of the pruned head. -/
def headId : Option String :=
  match c.writes.getLast? with
  | some w => some w.id
  | none => c.baseHeadId

/-- The tip of the chain, if it has one. -/
def head : Option (String × ℕ) :=
  match c.writes.getLast? with
  | some w => some (w.id, w.seq)
  | none => c.baseHeadId.map (fun id => (id, c.baseSeq - 1))

/-- The write held at an absolute seq. -/
def writeAt (seq : ℕ) : Option Write := if seq < c.baseSeq then none else c.writes[seq - c.baseSeq]?

/-- Append a write that extends the tip. -/
def append (C : Crypto) (params : ChainParams) (skipTimeProof : Bool) (w : Write) :
    WriterChain × AppendResult :=
  if w.writer ≠ c.writer then (c, .fail "wrong writer")
  else if c.plotRoot ≠ none ∧ c.plotRoot ≠ some w.plot.root then (c, .fail "wrong plot commitment")
  else
    match verifyWrite C params skipTimeProof w with
    | .thrown message => (c, .thrown message)
    | .fail reason => (c, .fail s!"invalid write: {reason}")
    | .ok =>
      match c.writes.find? (fun x => decide (x.seq = w.seq)) with
      | some existing =>
        if existing.id = w.id then (c, .ok) else (c, .equivocation existing w)
      | none =>
        if w.seq ≠ c.nextSeq then
          (c, .fail s!"non-sequential seq ({w.seq}, expected {c.nextSeq})")
        else if w.prev ≠ c.headId then (c, .fail "bad prev link")
        else
          ({ c with
              plotRoot := some (c.plotRoot.getD w.plot.root)
              writes := c.writes ++ [w]
              weight := c.weight + writeWeight params }, .ok)

end WriterChain

end Gavl
