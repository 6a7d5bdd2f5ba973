import Gavl.Chains.Esplora
import Gavl.Lib.OrderedMap
import Gavl.Lib.Runs
import Gavl.Market.Board

/-!
# Endpoint failover

A client asks one endpoint after the other until one answers, and starts at the one that answered
last. Its requests run side by side: which endpoint is next is read anew before each fetch, and
moves with the answers that other requests get meanwhile.
-/

namespace Gavl

/-- `DEFAULT_BASES`. -/
def defaultBases : Chain → Net → List String
  | .bitcoin, .mainnet => ["https://mempool.space/api", "https://blockstream.info/api"]
  | .bitcoin, .testnet => ["https://mempool.space/testnet4/api", "https://blockstream.info/testnet4/api"]
  | .litecoin, .mainnet => ["https://litecoinspace.org/api"]
  | .litecoin, .testnet => ["https://litecoinspace.org/testnet/api"]
  -- a local chain only: its endpoints come from the environment
  | _, .regtest => []

/-- The name of `URL_ENV[chain]`. -/
def urlEnv : Chain → String
  | .bitcoin => "GAVL_BTC_ESPLORA_URL"
  | .litecoin => "GAVL_LTC_ESPLORA_URL"

/-- How a fetch ends. -/
inductive Fetched where
  | responded (status : ℕ) (body : String)
  /-- No connection, or the timeout aborted it. -/
  | thrown (message : String)
deriving DecidableEq

/-- It is an answer, of which a 404 is one, and not the sign of a sick endpoint. -/
def Fetched.Healthy : Fetched → Prop
  | .responded status _ => status < 500
  | .thrown _ => False

instance : DecidablePred Fetched.Healthy
  | .responded status _ => inferInstanceAs (Decidable (status < 500))
  | .thrown _ => inferInstanceAs (Decidable False)

/-- How a request ends. -/
inductive Reply where
  | response (status : ℕ) (body : String)
  | error (message : String)
deriving DecidableEq

/-- A request under way, at its `i`-th fetch. -/
structure EsploraRequest where
  path : String
  /-- What is posted. -/
  body : Option String
  i : ℕ
  /-- The endpoint of the fetch, picked when it began. -/
  «at» : ℕ
deriving DecidableEq

/-- The client of one chain. -/
structure EsploraClient where
  chain : Chain
  net : Net
  bases : List String
  /-- The endpoint that answered last. -/
  preferred : ℕ

structure EsploraOptions where
  chain : Option Chain
  net : Option Net
  base : Option String
  bases : Option (List String)

namespace EsploraClient

def new (opts : EsploraOptions) : EsploraClient :=
  let chain := opts.chain.getD .bitcoin
  let net := opts.net.getD .testnet
  let bases := opts.bases.getD []
  { chain := chain
    net := net
    bases := match opts.base with
      | some base => if base ≠ "" then [base] else
          if bases ≠ [] then bases else defaultBases chain net
      | none => if bases ≠ [] then bases else defaultBases chain net
    preferred := 0 }

variable (c : EsploraClient)

/-- The endpoint of a request's `i`-th fetch. -/
def pick (i : ℕ) : ℕ := (c.preferred + i) % c.bases.length

/-- A request begins: its first fetch, or its end. -/
def req (path : String) (body : Option String) : EsploraRequest ⊕ Reply :=
  if c.bases.length = 0 then
    .inr (.error s!"esplora: no endpoint for {c.chain.name} {c.net.name} — set {urlEnv c.chain}")
  else .inl ⟨path, body, 0, c.pick 0⟩

/-- A fetch of a request failed: it goes on to the next endpoint, or ends with the error it met last. -/
def failOver (r : EsploraRequest) (lastErr : String) : EsploraRequest ⊕ Reply :=
  if r.i + 1 < c.bases.length then .inl ⟨r.path, r.body, r.i + 1, c.pick (r.i + 1)⟩
  else .inr (.error ("esplora: all endpoints failed (" ++ ", ".intercalate c.bases ++ ") — last: " ++ lastErr))

/-- A fetch of a request ended. -/
def onFetched (r : EsploraRequest) : Fetched → EsploraClient × (EsploraRequest ⊕ Reply)
  | .responded status body =>
    if status ≥ 500 then
      (c, c.failOver r ("esplora " ++ c.bases.getD r.«at» "" ++ s!": HTTP {status}"))
    else ({ c with preferred := r.«at» }, .inr (.response status body))
  | .thrown message => (c, c.failOver r message)

end EsploraClient

/-! ## Requests side by side -/

inductive EsploraEvent where
  | call (path : String) (body : Option String)
  /-- The fetch of a request ends. -/
  | fetched (id : ℕ) (f : Fetched)
deriving DecidableEq

structure EsploraRun where
  client : EsploraClient
  /-- The requests under way, by the number of their call. -/
  pending : OrderedMap ℕ EsploraRequest
  /-- How many requests were made. -/
  made : ℕ
  /-- The fetches that ended: of which request, at which endpoint, and how. -/
  asked : List (ℕ × ℕ × Fetched)
  /-- The requests that ended. -/
  replies : List (ℕ × Reply)

namespace EsploraRun

def start (c : EsploraClient) : EsploraRun := ⟨c, ∅, 0, [], []⟩

variable (s : EsploraRun)

/-- What a request comes to. -/
def next (id : ℕ) : EsploraRequest ⊕ Reply → EsploraRun
  | .inl r => { s with pending := s.pending.set id r }
  | .inr reply => { s with pending := s.pending.delete id, replies := s.replies ++ [(id, reply)] }

def step : EsploraEvent → EsploraRun
  | .call path body => { s with made := s.made + 1 }.next s.made (s.client.req path body)
  | .fetched id f =>
    match s.pending.get? id with
    | none => s
    | some r =>
      { s with
        client := (s.client.onFetched r f).1
        asked := s.asked ++ [(id, r.«at», f)] }.next id (s.client.onFetched r f).2

/-- What a request asked of which endpoint. -/
def askedOf (id : ℕ) : List (ℕ × Fetched) :=
  (s.asked.filter (fun e => decide (e.1 = id))).map Prod.snd

end EsploraRun

end Gavl
