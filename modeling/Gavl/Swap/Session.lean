import Gavl.Lib.Runs
import Gavl.Swap.StepTheorems

/-!
# A side over its ticks

One side of a swap from the take on: passes, posts that end, crashes in the middle of a tick, and
restarts from the saved file.
-/

namespace Gavl

structure SwapSession where
  /-- In memory. -/
  side : Side
  posts : OrderedMap (Role × PostKind) Post
  /-- In the file. A match without a file is adopted afresh, which is the side it starts with. -/
  saved : Side

inductive SessionStep where
  /-- A pass over the side. The file is written when it has changed, here or elsewhere in it. -/
  | pass (c : Ctx) (r : Reads) (elsewhere : Bool)
  /-- The process dies after so many of the tick's effects and starts again. -/
  | crash (c : Ctx) (r : Reads) (n : ℕ)
  /-- An op in flight reaches the board, or fails. -/
  | posted (kind : PostKind) (answer : Except String Unit)
  /-- A pass while the identity is not in the local wallet. -/
  | absent

/-- What the tick of a step, if it has one, reads. -/
def SessionStep.tick? : SessionStep → Option (Ctx × Reads)
  | pass c r _ => some (c, r)
  | crash c r _ => some (c, r)
  | posted _ _ => none
  | absent => none

namespace SwapSession

def fresh (role : Role) (identity : String) : SwapSession :=
  ⟨Side.new role identity, ∅, Side.new role identity⟩

variable (s : SwapSession)

/-- The tick that is about to start. -/
def tick : Tick := ⟨s.side, s.posts, []⟩

/-- The file once some effects have happened. -/
def fileAfter (saved : Side) (effects : List SwapEffect) : Side :=
  effects.foldl (fun saved e => match e with
    | .save side => side
    | _ => saved) saved

def pass (E : Engine) (c : Ctx) (r : Reads) (elsewhere : Bool) : SwapSession :=
  let k := s.tick.step E c r
  ⟨k.side, k.posts,
    if elsewhere = true ∨ k.side ≠ s.side then k.side else fileAfter s.saved k.effects⟩

def crash (E : Engine) (c : Ctx) (r : Reads) (n : ℕ) : SwapSession :=
  let file := fileAfter s.saved ((s.tick.step E c r).effects.take n)
  ⟨file, ∅, file⟩

/-- The end of a post: one that failed is forgotten, so that a later tick posts again. -/
def posted (kind : PostKind) (answer : Except String Unit) : SwapSession :=
  match s.posts.get? (s.side.role, kind) with
  | none => s
  | some post =>
    if !post.pending then s
    else
      match answer with
      | .ok _ =>
        { s with
          side := { s.side with lockPosted := s.side.lockPosted || decide (kind = .locked) }
          posts := s.posts.set (s.side.role, kind) { post with pending := false } }
      | .error err =>
        { s with
          side := { s.side with note := some s!"posting {kind.text}: {err}" }
          posts := s.posts.delete (s.side.role, kind) }

def absent : SwapSession :=
  let side := { s.side with note := some "this identity is no longer in the local wallet" }
  ⟨side, s.posts, if side ≠ s.side then side else s.saved⟩

def step (E : Engine) (s : SwapSession) : SessionStep → SwapSession
  | .pass c r elsewhere => s.pass E c r elsewhere
  | .crash c r n => s.crash E c r n
  | .posted kind answer => s.posted kind answer
  | .absent => s.absent

/-- What the tick of a step does: all of it, or what came before the crash. -/
def effects (E : Engine) : SessionStep → List SwapEffect
  | .pass c r _ => (s.tick.step E c r).effects
  | .crash c r n => (s.tick.step E c r).effects.take n
  | .posted _ _ => []
  | .absent => []

end SwapSession

end Gavl
