import Gavl.Consensus.Chain

/-!
# Adds in flight

`add` waits twice: for the verification of the anchor, and for the application's answer about it.
In between other calls run. A call keeps what it read before it first waited; everything after is
done on the chain as it is by then.
-/

namespace Gavl

/-- Where a call of `add` stands. -/
inductive Phase where
  /-- Waiting for `verifyAnchor`. -/
  | verifying
  /-- Stored with these full heads, waiting for `verifyState`. -/
  | checking (heads : Heads)
  /-- Returned or thrown; whether both checks passed. -/
  | finished (passed : Bool)

/-- A call of `add`, with what it read at its start. -/
structure AddCall where
  anchor : Anchor
  prev : Option Anchor
  prevHeads : Heads
  difficulty : ℕ
  phase : Phase

/-- What `verifyAnchor` answers the call. -/
def AddCall.verdict (cfg : ChainConfig) (call : AddCall) : AnchorResult :=
  verifyAnchor cfg.crypto call.anchor call.prev call.prevHeads cfg.params call.difficulty cfg.verifier

namespace AnchorChain

/-- The start of `add`: the call it makes of an anchor, or `none` where it returns at once. -/
def opening (c : AnchorChain) (cfg : ChainConfig) (anchor : Anchor) : Option AddCall :=
  if c.anchors.has anchor.id then none
  else if anchor.prev = none ∧ c.genesisId ≠ none ∧ some anchor.id ≠ c.genesisId then none
  else if anchor.link ≠ none ∧ c.parent anchor = none then none
  else some ⟨anchor, c.parent anchor, c.parentHeads anchor, c.difficultyFor cfg (c.parent anchor),
    .verifying⟩

/-- The chain without an anchor the application refused. -/
def unstore (c : AnchorChain) (id : String) : AnchorChain :=
  { c with anchors := c.anchors.delete id }

/-- The tail of `add` on any chain. Where the tip or the settled anchor it reads is not stored, it
throws and leaves the chain as it is. -/
def conclude (c : AnchorChain) (cfg : ChainConfig) (anchor : Anchor) (heads : Heads) : AnchorChain :=
  if c.tipId.isSome && c.tip.isNone then c
  else if (c.choose cfg anchor heads).2 = .fail "rejected: conflicts with SETTLED history"
      ∧ c.settled.isNone then c
  else (c.choose cfg anchor heads).1

end AnchorChain

/-- A chain and the calls of `add` made so far. -/
structure Adding where
  chain : AnchorChain
  calls : List AddCall

/-- What happens next. -/
inductive AddEvent where
  /-- `add` is called. -/
  | start (anchor : Anchor)
  /-- The verification of the call settles. -/
  | verified (i : ℕ)
  /-- The application answers the call. -/
  | answered (i : ℕ) (accepted : Bool)

namespace Adding

variable (s : Adding)

/-- The call `i` moved on to a phase. -/
def move (i : ℕ) (call : AddCall) (phase : Phase) : List AddCall :=
  s.calls.set i { call with phase := phase }

/-- The call resumes with what `verifyAnchor` answered. -/
def resumeVerified (cfg : ChainConfig) (i : ℕ) (call : AddCall) : Adding :=
  match call.verdict cfg with
  | .ok heads => ⟨s.chain.store call.anchor, s.move i call (.checking heads)⟩
  | .fail _ => ⟨s.chain, s.move i call (.finished false)⟩
  | .thrown _ => ⟨s.chain, s.move i call (.finished false)⟩

/-- The call resumes with the application's answer. -/
def resumeAnswered (cfg : ChainConfig) (i : ℕ) (call : AddCall) (heads : Heads) (accepted : Bool) :
    Adding :=
  if accepted then ⟨s.chain.conclude cfg call.anchor heads, s.move i call (.finished true)⟩
  else ⟨s.chain.unstore call.anchor.id, s.move i call (.finished false)⟩

/-- One event; those that fit no call change nothing. -/
def step (cfg : ChainConfig) (s : Adding) : AddEvent → Adding
  | .start anchor =>
    match s.chain.opening cfg anchor with
    | none => s
    | some call => { s with calls := s.calls ++ [call] }
  | .verified i =>
    match s.calls[i]? with
    | none => s
    | some call =>
      match call.phase with
      | .verifying => s.resumeVerified cfg i call
      | _ => s
  | .answered i accepted =>
    match s.calls[i]? with
    | none => s
    | some call =>
      match call.phase with
      | .checking heads => s.resumeAnswered cfg i call heads accepted
      | _ => s

/-- No call is running. -/
def Quiet : Prop := ∀ call ∈ s.calls, ∃ passed, call.phase = .finished passed

end Adding

end Gavl
