import Gavl.Ledger.TipTheorems
import Gavl.Market.Account

/-!
# Posts stay in line

Whatever the node's ledger goes through while a cooldown is served, the write that comes out of it is
the account's next one: as long as nobody else signs under the account's key, it is taken at once, and
no two posts share a slot.
-/

namespace Gavl

namespace Account

open Runs Ledger

variable {C : Crypto} {params : ChainParams} {a : Account} {base : ℕ × Option String}

/-! ## What is promised of the steps -/

/-- Nobody else signs under the account's key: what verifies is a write that the account made, or one
from below `first`, where it started. A write in its name for another plot does not come before any
other. Replayed writes had their time proof checked, what is pruned is held, and a checkpoint does not
move the account's head. -/
def Alone (C : Crypto) (params : ChainParams) (first : ℕ) (a : Account) : AccountStep → Prop
  | .arrive skip w => (skip = true → TimeProven C params w) ∧ (w.writer = a.pubHex →
      (a.ledger.chains.has a.pubHex = true ∨ w.plot.root = (a.writer.plot.commitment C).root) ∧
        (verifyWrite C params false w = .ok → w ∈ a.posted ∨ w.seq < first))
  | .prune heads => a.ledger.Holds heads
  | .seed heads => ∀ h, heads.get? a.pubHex = some h → a.ledger.heads.get? a.pubHex = some h
  | _ => True

/-- An account that has not posted, over a ledger in which nothing of it waits. -/
structure Fresh (C : Crypto) (params : ChainParams) (a : Account) : Prop where
  ledger : a.ledger.Reachable C params
  ready : a.ledger.Ready a.pubHex (a.writer.plot.commitment C).root
  serving : a.serving = none
  settled : a.settled = []
  announced : a.announced = []

/-- The writes that the account made follow one another from where it started, and the ledger ends
with the last of them. Each was gossiped alone, verifies, and says what its builder made of its seq. -/
structure InLine (C : Crypto) (params : ChainParams) (base : ℕ × Option String) (a : Account) :
    Prop where
  stretch : Stretch base.1 base.2 a.posted
  tip : a.ledger.tip a.pubHex = (base.1 + a.posted.length, tipId base.2 a.posted)
  written : ∀ w ∈ a.posted, w.writer = a.pubHex ∧ verifyWrite C params false w = .ok
  built : ∀ e ∈ a.settled, ∀ w, e.2 = some w → ∃ board, e.1 board w.seq = some w.payload
  announced : a.announced = a.posted.map (fun w => [w])

/-- What the steps keep. -/
structure Kept (C : Crypto) (params : ChainParams) (base : ℕ × Option String) (a : Account) :
    Prop where
  line : a.InLine C params base
  complete : a.writer.Complete C params
  reachable : a.ledger.Reachable C params
  ready : a.ledger.Ready a.pubHex (a.writer.plot.commitment C).root
  /-- The write that is being made is for the tip. -/
  serving : ∀ build args, a.serving = some (build, args) →
    (args.seq, args.prev) = a.ledger.tip a.pubHex ∧ ∃ board, build board args.seq = some args.payload

/-! ## Ends of posts -/

@[simp] theorem posted_settle_none (build : Builder) : (a.settle build none).posted = a.posted := by
  unfold settle posted
  rw [List.filterMap_append]
  exact List.append_nil _

@[simp] theorem posted_settle_some (build : Builder) (w : Write) :
    (a.settle build (some w)).posted = a.posted ++ [w] := by
  unfold settle posted
  rw [List.filterMap_append]
  rfl

/-- The account reads the tip. -/
theorem next_eq (h : a.ledger.Reachable C params) : a.next = a.ledger.tip a.pubHex :=
  h.nextPost_eq a.pubHex

/-- A post that fails leaves the line as it is. -/
theorem Kept.settle_none (h : a.Kept C params base) (build : Builder) :
    (a.settle build none).Kept C params base where
  line :=
    { stretch := by rw [posted_settle_none]; exact h.line.stretch
      tip := by rw [posted_settle_none]; exact h.line.tip
      written := by rw [posted_settle_none]; exact h.line.written
      built := by
        intro e he w hw
        obtain he | he := List.mem_append.mp he
        · exact h.line.built e he w hw
        · rw [List.mem_singleton.mp he] at hw
          cases hw
      announced := by rw [posted_settle_none]; exact h.line.announced }
  complete := h.complete
  reachable := h.reachable
  ready := h.ready
  serving := fun _ _ hserving => by cases hserving

/-- The ledger may change as long as the account's tip stays. -/
theorem Kept.ledger (h : a.Kept C params base) {L : Ledger} (hL : L.Reachable C params)
    (hready : L.Ready a.pubHex (a.writer.plot.commitment C).root)
    (htip : L.tip a.pubHex = a.ledger.tip a.pubHex) :
    ({ a with ledger := L } : Account).Kept C params base where
  line := ⟨h.line.stretch, htip.trans h.line.tip, h.line.written, h.line.built, h.line.announced⟩
  complete := h.complete
  reachable := hL
  ready := hready
  serving := by
    intro build args hserving
    obtain ⟨hat, hbuilt⟩ := h.serving build args hserving
    exact ⟨hat.trans htip.symm, hbuilt⟩

/-! ## Steps -/

theorem Kept.start (h : a.Kept C params base) (board : Board) (ts : Json) :
    (a.start C board ts).Kept C params base := by
  unfold Account.start
  cases hserving : a.serving with
  | some s => exact h
  | none =>
    cases hqueue : a.queue with
    | nil => exact h
    | cons build queue =>
      have hqueued : ({ a with queue := queue } : Account).Kept C params base :=
        ⟨⟨h.line.stretch, h.line.tip, h.line.written, h.line.built, h.line.announced⟩, h.complete,
          h.reachable, h.ready, h.serving⟩
      simp only
      cases hbuild : build board a.next.1 with
      -- the builder throws: the post ends, and the queue goes on
      | none => exact hqueued.settle_none build
      | some payload =>
        simp only
        refine ⟨⟨h.line.stretch, h.line.tip, h.line.written, h.line.built, h.line.announced⟩,
          h.complete, h.reachable, h.ready, ?_⟩
        intro build' args hargs
        obtain ⟨rfl, rfl⟩ := Prod.mk.inj (Option.some.inj hargs)
        exact ⟨next_eq h.reachable, board, hbuild⟩

/-- The write that a cooldown ends with is taken, alone. -/
theorem Kept.finish (h : a.Kept C params base) : (a.finish C params).Kept C params base := by
  unfold Account.finish
  cases hserving : a.serving with
  | none => exact h
  | some s =>
    obtain ⟨build, args⟩ := s
    simp only
    cases hwrite : a.writer.write C params args with
    | none => exact h.settle_none build
    | some w =>
      obtain ⟨hat, board, hbuilt⟩ := h.serving build args hserving
      have hw := Writer.write_spec h.complete hwrite
      have hme : w.writer = a.pubHex := hw.writer
      have hwat : (w.seq, w.prev) = a.ledger.tip w.writer := by
        rw [hw.seq, hw.prev, hme]
        exact hat
      have hready : a.ledger.Ready w.writer w.plot.root := by
        rw [hme, hw.plot]
        exact h.ready
      -- nothing of the account waits in the buffer, so the ledger takes this write by itself
      obtain ⟨L, happly, hready', htip⟩ := hready.apply_next h.reachable.sound hw.verified hwat
      have hreachable := h.reachable.apply w
      rw [happly] at hreachable
      rw [hme, h.line.tip] at hwat
      obtain ⟨hseq, hprev⟩ := Prod.mk.inj hwat
      simp only [submit, happly]
      refine ⟨⟨?_, ?_, ?_, ?_, ?_⟩, h.complete, hreachable, ?_, fun _ _ hnone => by cases hnone⟩
      · rw [posted_settle_some]
        exact Stretch.concat.mpr ⟨h.line.stretch, hseq, hprev⟩
      · rw [posted_settle_some, List.length_append, List.length_singleton, tipId_append]
        show L.tip a.pubHex = _
        rw [← hme, htip, hseq]
        rfl
      · rw [posted_settle_some]
        intro x hx
        obtain hx | hx := List.mem_append.mp hx
        · exact h.line.written x hx
        · rw [List.mem_singleton.mp hx]
          exact ⟨hme, hw.verified⟩
      · intro e he x hx
        obtain he | he := List.mem_append.mp he
        · exact h.line.built e he x hx
        · rw [List.mem_singleton.mp he] at hx ⊢
          obtain rfl := Option.some.inj hx
          refine ⟨board, ?_⟩
          rw [hw.seq, hw.payload]
          exact hbuilt
      · rw [posted_settle_some, List.map_append]
        show a.announced ++ [[w]] = _
        rw [h.line.announced]
        rfl
      · show L.Ready a.pubHex (a.writer.plot.commitment C).root
        rw [← hme, ← hw.plot]
        exact hready'

/-- What arrives does not move the account's tip. -/
theorem Kept.arrive (h : a.Kept C params base) {skip : Bool} {w : Write}
    (halone : Alone C params base.1 a (.arrive skip w)) :
    ({ a with ledger := (a.ledger.apply C params skip w).1 } : Account).Kept C params base := by
  obtain ⟨hproven, hmine⟩ := halone
  -- a replay leaves out a check that the write would pass
  have hplain : a.ledger.apply C params skip w = a.ledger.apply C params false w := by
    cases skip with
    | false => rfl
    | true => exact h.reachable.sound.apply_replay (hproven rfl)
  rw [hplain]
  -- what verifies in the account's name is below its tip
  have hbehind : w.writer = a.pubHex → verifyWrite C params false w = .ok →
      w.seq < (a.ledger.tip a.pubHex).1 := by
    intro hwriter hverified
    rw [h.line.tip]
    show w.seq < base.1 + a.posted.length
    obtain hposted | hbelow := (hmine hwriter).2 hverified
    · exact (h.line.stretch.mem_range hposted).2
    · omega
  obtain ⟨hready, htip⟩ := h.ready.apply_behind h.reachable.sound
    (fun hwriter => (hmine hwriter).1) hbehind
  exact h.ledger (h.reachable.apply w) hready htip

theorem Kept.step (h : a.Kept C params base) (i : AccountStep)
    (halone : Alone C params base.1 a i) : (a.step C params i).Kept C params base := by
  cases i with
  | post build =>
    exact ⟨⟨h.line.stretch, h.line.tip, h.line.written, h.line.built, h.line.announced⟩, h.complete,
      h.reachable, h.ready, h.serving⟩
  | start board ts => exact h.start board ts
  | finish => exact h.finish
  | arrive skip w => exact h.arrive halone
  | prune heads =>
    obtain ⟨hready, htip⟩ := h.ready.pruneBelow h.reachable.sound halone
    exact h.ledger (h.reachable.pruneBelow halone) hready htip
  | seed heads =>
    obtain ⟨hready, htip⟩ := h.ready.seedCheckpoint h.reachable halone
    exact h.ledger (h.reachable.seedCheckpoint heads) hready htip

/-! ## The order of posts -/

/-- The posts that were made: ended, serving, waiting. -/
def posts (a : Account) : List Builder :=
  a.settled.map Prod.fst ++ (a.serving.map Prod.fst).toList ++ a.queue

/-- A post ends as the one that was served, or the one that was next. -/
theorem posts_settle (a : Account) (build : Builder) (w : Option Write) :
    (a.settle build w).posts = a.settled.map Prod.fst ++ [build] ++ a.queue := by
  unfold settle posts
  rw [List.map_append, Option.map_none, Option.toList_none, List.append_nil]
  rfl

theorem posts_submit (a : Account) (build : Builder) (w : Write) :
    (a.submit C params build w).posts = a.settled.map Prod.fst ++ [build] ++ a.queue := by
  unfold submit
  cases hr : a.ledger.apply C params false w with
  | mk L r => cases r <;> exact posts_settle _ build _

/-- Posts end in the order in which they were made. -/
theorem posts_step (a : Account) (i : AccountStep) :
    (a.step C params i).posts = a.posts ++ i.build?.toList := by
  cases i with
  | post build =>
    show a.settled.map Prod.fst ++ (a.serving.map Prod.fst).toList ++ (a.queue ++ [build]) = _
    rw [← List.append_assoc]
    rfl
  | start board ts =>
    show (a.start C board ts).posts = a.posts ++ []
    rw [List.append_nil]
    unfold Account.start
    cases hserving : a.serving with
    | some s => rfl
    | none =>
      cases hqueue : a.queue with
      | nil => rfl
      | cons build queue =>
        have hposts : a.posts = a.settled.map Prod.fst ++ [build] ++ queue := by
          unfold posts
          rw [hserving, hqueue, Option.map_none, Option.toList_none, List.append_nil,
            List.append_assoc, List.singleton_append]
        simp only
        rw [hposts]
        cases build board a.next.1 with
        | none => exact posts_settle _ build none
        | some payload => rfl
  | finish =>
    show (a.finish C params).posts = a.posts ++ []
    rw [List.append_nil]
    unfold Account.finish
    cases hserving : a.serving with
    | none => rfl
    | some s =>
      obtain ⟨build, args⟩ := s
      have hposts : a.posts = a.settled.map Prod.fst ++ [build] ++ a.queue := by
        unfold posts
        rw [hserving]
        rfl
      simp only
      rw [hposts]
      cases a.writer.write C params args with
      | none => exact posts_settle a build none
      | some w => exact posts_submit a build w
  | arrive skip w => exact (List.append_nil _).symm
  | prune heads => exact (List.append_nil _).symm
  | seed heads => exact (List.append_nil _).symm

theorem posts_run (a : Account) (steps : List AccountStep) :
    (run (step C params) a steps).posts = a.posts ++ steps.filterMap AccountStep.build? := by
  induction steps generalizing a with
  | nil => exact (List.append_nil _).symm
  | cons i steps ih =>
    rw [run_cons, ih, posts_step, List.append_assoc]
    cases hi : i.build? with
    | none => rw [List.filterMap_cons_none hi]; rfl
    | some build => rw [List.filterMap_cons_some hi]; rfl

/-! ## Runs -/

/-- **Posts stay in line.** However the cooldowns interleave with what the node's ledger goes through,
the writes that the account made follow one another from where it started, in the order of the posts,
and each is taken and gossiped alone. -/
theorem posts_in_line (hW : a.writer.Complete C params) (ha : a.Fresh C params)
    {steps : List AccountStep} (hsteps : Along (step C params) (Alone C params a.next.1) a steps) :
    (run (step C params) a steps).InLine C params a.next ∧
      (run (step C params) a steps).posts = a.queue ++ steps.filterMap AccountStep.build? := by
  have hposted : a.posted = [] := by
    unfold posted
    rw [ha.settled]
    rfl
  have hstart : a.Kept C params a.next := by
    refine ⟨⟨?_, ?_, ?_, ?_, ?_⟩, hW, ha.ledger, ha.ready, ?_⟩
    · rw [hposted]
      trivial
    · rw [hposted, ← next_eq ha.ledger]
      rfl
    · rw [hposted]
      exact fun w hw => absurd hw List.not_mem_nil
    · rw [ha.settled]
      exact fun e he => absurd he List.not_mem_nil
    · rw [ha.announced, hposted]
      rfl
    · intro build args hserving
      rw [ha.serving] at hserving
      cases hserving
  have hkept : (run (step C params) a steps).Kept C params a.next :=
    inv_of_along (fun _ i h hi => h.step i hi) hstart hsteps
  refine ⟨hkept.line, ?_⟩
  rw [posts_run]
  unfold posts
  rw [ha.settled, ha.serving]
  rfl

namespace Posting

def crypto : Crypto := AnchorChain.openConfig.crypto

def rules : ChainParams := ⟨1, 1, 1, HashVdf.verify crypto⟩

def writer : Writer where
  publicKey := [0xab]
  sign := fun _ => []
  plot := ⟨[0xab], 1, by decide⟩
  seed_eq := rfl
  vdfEval := hashDelay crypto

def account : Account := ⟨writer, .empty, [], none, [], []⟩

def board : Board := ⟨none, emptyView⟩

/-- Three posts, of which the second throws. A write of someone else comes in while the first is being
made. -/
def steps : List AccountStep :=
  [.post Builder.noop, .post (fun _ _ => none), .post Builder.noop, .start board (.nat 1),
    .arrive false (firstWrite crypto "cd" (.nat 1) .null), .finish, .start board (.nat 2),
    .start board (.nat 3), .finish]

theorem complete_writer : writer.Complete crypto rules :=
  Writer.complete_hashDelay rfl rfl (fun _ => rfl)

theorem fresh_account : account.Fresh crypto rules where
  ledger := .empty
  ready := ⟨rfl, fun _ hc => by cases hc⟩
  serving := rfl
  settled := rfl
  announced := rfl

theorem alone_steps : Along (step crypto rules) (Alone crypto rules account.next.1) account steps := by
  have hother : "cd" ≠ account.pubHex := by decide
  refine ⟨trivial, trivial, trivial, trivial, ⟨fun h => (by cases h), fun h => ?_⟩, trivial, trivial,
    trivial, trivial, trivial⟩
  exact absurd h hother

end Posting

open Posting in
theorem posts_in_line_three :
    (run (step crypto rules) account steps).posted.map (·.seq) = [0, 1] ∧
      (run (step crypto rules) account steps).InLine crypto rules account.next :=
  ⟨by decide +kernel, (posts_in_line complete_writer fresh_account alone_steps).1⟩

end Account

end Gavl
