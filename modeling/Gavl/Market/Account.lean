import Gavl.Chain.Produce
import Gavl.Lib.Runs
import Gavl.Market.Payload
import Gavl.Store.Store

/-!
# Accounts

An identity that appends signed writes to its own chain over its node. Posts wait for one another: a
post reads the head, serves its cooldown and hands the write to the node, and only then does the next
one start. Meanwhile the node goes on with its ledger.
-/

namespace Gavl

/-- The board as a builder reads it: the height of the tip, and the view there. -/
structure Board where
  height : Option ℤ
  view : View

/-- What a post says, given the board as it is then and the exact seq the write will take; `none` where
it throws. -/
abbrev Builder := Board → ℕ → Option Json

namespace Builder

/-- The write that an op is tried as. -/
def dryWrite (writer : String) (seq : ℕ) : Write where
  writer := writer
  seq := seq
  prev := none
  stateRoot := .null
  plot := ⟨"", 0⟩
  difficulty := ""
  ts := .null
  payload := .null
  space := ⟨0, "", [], ""⟩
  time := ⟨0, "", ""⟩
  id := ""
  sig := ""

/-- `submit` of the daemon: the op is parsed, and tried at the next height on the board, before
anything is paid for it. -/
def submit (K : Curve) (writer : String) (build : ℕ → Json) : Builder := fun board seq =>
  (parseOp K (build seq)).bind (fun op =>
    let h := board.height.getD 0 + 1
    match (applyOp (advance board.view h) (dryWrite writer seq) op h).2 with
    | some _ => none
    | none => some (opPayload op))

def noop : Builder := fun _ _ => some .null

end Builder

/-- An account and the ledger of its node. -/
structure Account where
  writer : Writer
  ledger : Ledger
  /-- Posts that wait for the one before them. -/
  queue : List Builder
  /-- The post that is serving its cooldown. -/
  serving : Option (Builder × WriteArgs)
  /-- The posts that have ended, with what they resolved to. -/
  settled : List (Builder × Option Write)
  /-- What was gossiped of them. -/
  announced : List (List Write)

inductive AccountStep where
  | post (build : Builder)
  /-- The oldest post starts. -/
  | start (board : Board) (ts : Json)
  /-- The cooldown is over. -/
  | finish
  /-- A write comes from a peer, or from the store. -/
  | arrive (skip : Bool) (w : Write)
  /-- The node drops what a final checkpoint covers. -/
  | prune (heads : Heads)
  /-- The node adopts a checkpoint. -/
  | seed (heads : Heads)

namespace AccountStep

/-- The post that is made. -/
def build? : AccountStep → Option Builder
  | post build => some build
  | _ => none

end AccountStep

namespace Account

variable (C : Crypto) (params : ChainParams) (a : Account)

/-- The key that it posts under. -/
def pubHex : String := a.writer.pubHex

/-- The writes it made, the oldest first. -/
def posted : List Write := a.settled.filterMap Prod.snd

/-- A post ended. -/
def settle (build : Builder) (w : Option Write) : Account :=
  { a with serving := none, settled := a.settled ++ [(build, w)] }

/-- The seq that the next write takes, and what it links to. -/
def next : ℕ × Option String := a.ledger.nextPost a.pubHex

def start (board : Board) (ts : Json) : Account :=
  match a.serving, a.queue with
  | none, build :: queue =>
    match build board a.next.1 with
    | none => { a with queue := queue }.settle build none
    | some payload =>
      { a with
        queue := queue
        serving := some (build, ⟨a.next.2, a.next.1, a.ledger.stateRoot C, payload, ts⟩) }
  | _, _ => a

/-- Hand a write to the node. It is returned to the poster whatever the node makes of it, unless that
throws. -/
def submit (build : Builder) (w : Write) : Account :=
  match a.ledger.apply C params false w with
  | (ledger, .thrown _) => { a with ledger := ledger }.settle build none
  | (ledger, .applied applied _) =>
    { a with
      ledger := ledger
      announced := if applied.isEmpty then a.announced else a.announced ++ [applied] }.settle build
        (some w)
  | (ledger, _) => { a with ledger := ledger }.settle build (some w)

def finish : Account :=
  match a.serving with
  | none => a
  | some (build, args) =>
    match a.writer.write C params args with
    | none => a.settle build none
    | some w => a.submit C params build w

def step (a : Account) : AccountStep → Account
  | .post build => { a with queue := a.queue ++ [build] }
  | .start board ts => a.start C board ts
  | .finish => a.finish C params
  | .arrive skip w => { a with ledger := (a.ledger.apply C params skip w).1 }
  | .prune heads => { a with ledger := a.ledger.pruneBelow C params heads }
  | .seed heads => { a with ledger := a.ledger.seedCheckpoint params heads }

end Account

end Gavl
