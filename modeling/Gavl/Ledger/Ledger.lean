import Gavl.Chain.Writer
import Gavl.Ledger.Heads

/-!
# The multi-writer ledger

The chains of every known writer, held in memory. Writes that arrive ahead of their
predecessor wait in a buffer that drains as the gap closes.
-/

namespace Gavl

/-- A buffered write with the clock at which it came. -/
structure Pending where
  w : Write
  tick : ℕ

/-- Apply calls a buffered write may wait. -/
def pendingMaxAge : ℕ := 1024

structure Ledger where
  chains : OrderedMap String WriterChain
  pending : OrderedMap String (OrderedMap ℕ Pending)
  /-- Monotonic apply counter. -/
  tick : ℕ

inductive ApplyResult where
  | applied (writes : List Write) (buffered : Bool)
  | fail (reason : String)
  | equivocation (existing w : Write)
  | thrown (message : String)

namespace Ledger

def empty : Ledger := ⟨∅, ∅, 0⟩

variable (L : Ledger)

/-- The buffer of a writer. -/
def pendingOf (writer : String) : OrderedMap ℕ Pending := (L.pending.get? writer).getD ∅

/-- Append the buffered writes that the chain is ready for, as long as there are any. The buffer
shrinks in every round, so its size bounds their number. -/
def drain (C : Crypto) (params : ChainParams) (skip : Bool) :
    ℕ → WriterChain → OrderedMap ℕ Pending → List Write →
      WriterChain × OrderedMap ℕ Pending × ApplyResult
  | 0, chain, pend, applied => (chain, pend, .applied applied false)
  | n + 1, chain, pend, applied =>
    match pend.get? chain.nextSeq with
    | none => (chain, pend, .applied applied false)
    | some next =>
      match chain.append C params skip next.w with
      | (chain', .ok) =>
        drain C params skip n chain' (pend.delete chain.nextSeq) (applied ++ [next.w])
      | (chain', .fail reason) => (chain', pend.delete chain.nextSeq, .fail reason)
      | (chain', .equivocation x y) => (chain', pend.delete chain.nextSeq, .equivocation x y)
      | (chain', .thrown message) => (chain', pend.delete chain.nextSeq, .thrown message)

/-- Append in order, buffer if ahead, detect equivocation. -/
def apply (C : Crypto) (params : ChainParams) (skip : Bool) (w : Write) : Ledger × ApplyResult :=
  let tick := L.tick + 1
  let chain := (L.chains.get? w.writer).getD (WriterChain.fresh w.writer w.plot)
  let pend :=
    if L.chains.has w.writer then
      (L.pendingOf w.writer).filter (fun _ e => decide (tick - e.tick ≤ pendingMaxAge))
    else ∅
  let L' : Ledger :=
    { chains := L.chains.set w.writer chain, pending := L.pending.set w.writer pend, tick := tick }
  if w.seq < chain.baseSeq then (L', .applied [] false)
  else
    let existing :=
      if w.seq < chain.nextSeq then chain.writeAt w.seq else (pend.get? w.seq).map (·.w)
    match existing with
    | some x => if x.id = w.id then (L', .applied [] false) else (L', .equivocation x w)
    | none =>
      if chain.nextSeq < w.seq then
        match verifyWrite C params skip w with
        | .thrown message => (L', .thrown message)
        | .fail reason => (L', .fail reason)
        | .ok =>
          ({ L' with pending := L'.pending.set w.writer (pend.set w.seq ⟨w, tick⟩) },
            .applied [] true)
      else
        match chain.append C params skip w with
        | (chain', .ok) =>
          let (chain'', pend', result) := drain C params skip pend.size chain' pend [w]
          ({ L' with
              chains := L'.chains.set w.writer chain''
              pending := L'.pending.set w.writer pend' }, result)
        | (chain', .fail reason) =>
          ({ L' with chains := L'.chains.set w.writer chain' }, .fail reason)
        | (chain', .equivocation x y) =>
          ({ L' with chains := L'.chains.set w.writer chain' }, .equivocation x y)
        | (chain', .thrown message) =>
          ({ L' with chains := L'.chains.set w.writer chain' }, .thrown message)

/-- The head of one writer. -/
def headOf (writer : String) : Option Head :=
  ((L.chains.get? writer).bind WriterChain.head).map (fun h => ⟨h.1, h.2⟩)

/-- Current head of every writer with a known tip. -/
def heads : Heads :=
  L.chains.entries.foldl (fun out e => match e.2.head with
    | none => out
    | some h => out.set e.1 ⟨h.1, h.2⟩) ∅

/-- Id of the write held at `seq`, or of the pruned head. -/
def idAt (writer : String) (seq : ℕ) : Option String :=
  (L.chains.get? writer).bind (fun chain =>
    if (seq : ℤ) = (chain.baseSeq : ℤ) - 1 then chain.baseHeadId
    else (chain.writeAt seq).map (·.id))

/-- Resume every writer's chain above its certified head. -/
def seedCheckpoint (params : ChainParams) (heads : Heads) : Ledger :=
  heads.entries.foldl (fun (L : Ledger) e =>
    { L with
      chains := L.chains.set e.1 (WriterChain.resumeAt params e.1 (e.2.seq + 1) e.2.id)
      pending := L.pending.set e.1 ∅ }) L

/-- Drop the history below a checkpoint, linking what is above onto the new base. -/
def pruneBelow (C : Crypto) (params : ChainParams) (heads : Heads) : Ledger :=
  heads.entries.foldl (fun (L : Ledger) e =>
    match L.chains.get? e.1 with
    | none => L
    | some chain =>
      if e.2.seq < chain.baseSeq then L
      else
        let keep := chain.writes.filter (fun w => decide (e.2.seq < w.seq))
        let resumed := keep.foldl (fun (r : WriterChain) w => (r.append C params false w).1)
          (WriterChain.resumeAt params e.1 (e.2.seq + 1) e.2.id)
        { L with chains := L.chains.set e.1 resumed }) L

/-- Every applied write of every writer. -/
def allWrites : List Write := L.chains.values.flatMap (·.writes)

/-- Cumulative weight of every writer's chain. -/
def totalWeight : ℕ := (L.chains.values.map (·.weight)).sum

/-- The number of writers known. -/
def writers : ℕ := L.chains.size

/-- Cheap commitment over the heads. -/
def stateRoot (C : Crypto) : String := rootOfHeads C L.heads

/-- Applied writes of a writer from `fromSeq` on, as far as they are held. -/
def writesFrom (writer : String) (fromSeq : ℕ) : List Write :=
  match L.chains.get? writer with
  | none => []
  | some chain => chain.writes.drop (fromSeq - chain.baseSeq)

/-- Apply a batch, up to the first write that throws. Returns what was appended and whether
anything was appended or buffered, unless it threw. -/
def applyAll (C : Crypto) (params : ChainParams) (skip : Bool) :
    Ledger → List Write → Ledger × Option (List Write × Bool)
  | L, [] => (L, some ([], false))
  | L, w :: ws =>
    match L.apply C params skip w with
    | (L', .thrown _) => (L', none)
    | (L', .applied applied buffered) =>
      let (L'', rest) := applyAll C params skip L' ws
      (L'', rest.map (fun r => (applied ++ r.1, !applied.isEmpty || buffered || r.2)))
    | (L', _) => applyAll C params skip L' ws

end Ledger

end Gavl
