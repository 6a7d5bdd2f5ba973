import Gavl.Lib.OrderedMap
import Gavl.Lib.Runs
import Gavl.Pot.HashVdf

/-!
# The worker pool

`eval` and `verifyAsync` hand the hash chain to worker threads. The threads answer in any order, may
die, and are replaced when the next job comes; a job is settled by the answer that carries its id.
-/

namespace Gavl

inductive VdfOp where
  | eval
  | verify
deriving DecidableEq

/-- What the pool posts to a worker. -/
structure VdfRequest where
  id : ℕ
  op : VdfOp
  challenge : String
  iters : ℕ
  output : Option String
deriving DecidableEq

/-- What a worker posts back. -/
structure VdfReply where
  id : ℕ
  output : Option String
  valid : Option Bool
  error : Option String
deriving DecidableEq

/-- The message of an exception, which is not empty. -/
structure Thrown where
  text : String
  nonempty : text ≠ ""

/-- How a worker answers a message, which may throw. -/
def vdfWorker (C : Crypto) (msg : VdfRequest) (thrown : Option Thrown) : VdfReply :=
  match thrown with
  | some e => ⟨msg.id, none, none, some e.text⟩
  | none =>
    let out := toHex (hashChain C (fromHex msg.challenge) msg.iters)
    match msg.op with
    | .eval => ⟨msg.id, some out, none, none⟩
    | .verify => ⟨msg.id, none, some (decide (some out = msg.output)), none⟩

/-- A worker thread. -/
structure VdfThread where
  /-- It holds the event loop open. -/
  ref : Bool
  /-- Messages it has not handled, the oldest first. -/
  inbox : List VdfRequest

/-- How a job's promise ends. -/
inductive Settled where
  | resolved (m : VdfReply)
  | rejected (err : String)
deriving DecidableEq

structure VdfPool where
  poolSize : ℕ
  workers : ℕ → Option VdfThread
  load : ℕ → ℕ
  /-- Job id to the worker it was sent to. -/
  pending : OrderedMap ℕ ℕ
  seq : ℕ

namespace VdfPool

def new (poolSize : ℕ) : VdfPool := ⟨poolSize, fun _ => none, fun _ => 0, ∅, 0⟩

variable (p : VdfPool)

def spawn (i : ℕ) : VdfPool :=
  { p with
    workers := Function.update p.workers i (some ⟨false, []⟩)
    load := Function.update p.load i 0 }

/-- Look at worker `i` for the least loaded one, spawning it when it is not there. -/
def look (s : VdfPool × ℕ) (i : ℕ) : VdfPool × ℕ :=
  let p := if (s.1.workers i).isNone then s.1.spawn i else s.1
  (p, if p.load i < p.load s.2 then i else s.2)

def leastLoaded : VdfPool × ℕ := (List.range p.poolSize).foldl look (p, 0)

/-- Send a job to worker `best`. -/
def sendTo (best : ℕ) (msg : VdfRequest) : VdfPool :=
  { p with
    seq := msg.id
    load := Function.update p.load best (p.load best + 1)
    pending := p.pending.set msg.id best
    workers := Function.update p.workers best ((p.workers best).map (fun t =>
      ⟨t.ref || decide (p.load best = 0), t.inbox ++ [msg]⟩)) }

/-- Send a job to the least-loaded worker. -/
def dispatch (op : VdfOp) (challenge : Bytes) (iters : ℕ) (output : Option String) : VdfPool :=
  p.leastLoaded.1.sendTo p.leastLoaded.2 ⟨p.seq + 1, op, toHex challenge, iters, output⟩

/-- A worker's message arrives: the pool, and how the job it is for ends. -/
def onMessage (m : VdfReply) : VdfPool × List (ℕ × Settled) :=
  match p.pending.get? m.id with
  | none => (p, [])
  | some widx =>
    ({ p with
        pending := p.pending.delete m.id
        load := Function.update p.load widx (p.load widx - 1)
        workers :=
          -- idle: it stops holding the loop open
          if p.load widx - 1 = 0 then
            Function.update p.workers widx ((p.workers widx).map (fun t => ⟨false, t.inbox⟩))
          else p.workers },
      [(m.id, match m.error with
        | some err => if err ≠ "" then .rejected err else .resolved m
        | none => .resolved m)])

/-- A worker dies: its jobs are rejected, and the next dispatch replaces it. -/
def onError (i : ℕ) (err : String) : VdfPool × List (ℕ × Settled) :=
  ({ p with
      pending := p.pending.filter (fun _ widx => decide (widx ≠ i))
      workers := Function.update p.workers i none
      load := Function.update p.load i 0 },
    (p.pending.entries.filter (fun e => decide (e.2 = i))).map (fun e => (e.1, .rejected err)))

def close : VdfPool × List (ℕ × Settled) :=
  ({ p with workers := fun _ => none, load := fun _ => 0, pending := ∅ },
    p.pending.entries.map (fun e => (e.1, .rejected "vdf pool closed")))

end VdfPool

/-! ## The pool and its threads -/

/-- A call of the pool. -/
inductive VdfCall where
  | eval (challenge : Bytes) (iters : ℕ)
  | verifyAsync (challenge : Bytes) (proof : TimeProof)
deriving DecidableEq

/-- What a call comes to: the proof or the error of `eval`, the verdict of `verifyAsync`. -/
inductive VdfAnswer where
  | proof (p : TimeProof)
  | thrown (err : String)
  | verdict (valid : Bool)
deriving DecidableEq

namespace VdfCall

def iters : VdfCall → ℕ
  | eval _ iters => iters
  | verifyAsync _ proof => proof.iters

/-- What is posted for a call, under an id. -/
def request (id : ℕ) : VdfCall → VdfRequest
  | eval challenge iters => ⟨id, .eval, toHex challenge, iters, none⟩
  | verifyAsync challenge proof => ⟨id, .verify, toHex challenge, proof.iters, some proof.output⟩

/-- A call of one iteration or more is dispatched. -/
def dispatch (p : VdfPool) : VdfCall → VdfPool
  | eval challenge iters => p.dispatch .eval challenge iters none
  | verifyAsync challenge proof => p.dispatch .verify challenge proof.iters (some proof.output)

/-- What a call makes of the end of its job. A job that fails is no verdict of `verifyAsync`. -/
def answer : VdfCall → Settled → VdfAnswer
  | eval _ iters, .resolved m => .proof ⟨iters, m.output.getD "", ""⟩
  | eval _ _, .rejected err => .thrown err
  | verifyAsync _ _, .resolved m => .verdict (m.valid.getD false)
  | verifyAsync _ _, .rejected _ => .verdict false

/-- What the inline delay function answers. -/
def inline (C : Crypto) : VdfCall → VdfAnswer
  | eval challenge iters =>
    match HashVdf.eval C challenge iters with
    | .ok proof => .proof proof
    | .error err => .thrown err
  | verifyAsync challenge proof => .verdict (HashVdf.verify C challenge proof)

end VdfCall

/-- The pool, the answers on their way to it, the calls it has dispatched, and how they ended. -/
structure VdfSystem where
  pool : VdfPool
  wire : List VdfReply
  asked : OrderedMap ℕ VdfCall
  settled : List (ℕ × Settled)

inductive VdfStep where
  /-- `eval` or `verifyAsync` is called. -/
  | call (c : VdfCall)
  /-- A thread handles its oldest message. -/
  | work (i : ℕ) (thrown : Option Thrown)
  /-- An answer arrives, in any order. -/
  | deliver (m : VdfReply)
  /-- A thread dies. What it had answered may still arrive. -/
  | fail (i : ℕ) (err : String)
  | close

namespace VdfSystem

def new (poolSize : ℕ) : VdfSystem := ⟨VdfPool.new poolSize, [], ∅, []⟩

variable (s : VdfSystem)

/-- A call with fewer than one iteration is answered at once. -/
def call (c : VdfCall) : VdfSystem :=
  if c.iters < 1 then s
  else { s with pool := c.dispatch s.pool, asked := s.asked.set (s.pool.seq + 1) c }

def work (C : Crypto) (i : ℕ) (thrown : Option Thrown) : VdfSystem :=
  match s.pool.workers i with
  | some ⟨ref, msg :: inbox⟩ =>
    { s with
      pool := { s.pool with workers := Function.update s.pool.workers i (some ⟨ref, inbox⟩) }
      wire := s.wire ++ [vdfWorker C msg thrown] }
  | _ => s

def deliver (m : VdfReply) : VdfSystem :=
  if m ∈ s.wire then
    { s with
      pool := (s.pool.onMessage m).1
      wire := s.wire.erase m
      settled := s.settled ++ (s.pool.onMessage m).2 }
  else s

def step (C : Crypto) (s : VdfSystem) : VdfStep → VdfSystem
  | .call c => s.call c
  | .work i thrown => s.work C i thrown
  | .deliver m => s.deliver m
  | .fail i err =>
    { s with pool := (s.pool.onError i err).1, settled := s.settled ++ (s.pool.onError i err).2 }
  | .close => { s with pool := s.pool.close.1, settled := s.settled ++ s.pool.close.2 }

end VdfSystem

end Gavl
