import Gavl.Consensus.InterleavingTheorems
import Gavl.Lib.StableSort
import Gavl.Sync.FloorTheorems
import Gavl.Sync.Ingest

/-!
# When a moved tip is announced

The loop over a message stops at the first value that throws, and what it did by then is not
announced. So nothing is lost exactly if values throw only while the tip is where it was and no
anchor of the message is still to be added.
-/

namespace Gavl

open AnchorChain

variable {h : NodeHooks} {c c' : AnchorChain} {a x : Anchor} {e : Offered} {es l : List Offered}
  {gap conflict : Bool} {fine : AnchorChain → Prop}

/-! ## One value -/

/-- What offering the values of `l` may do to a chain: it keeps its anchors, gains some of these,
and the tip stays or moves to one. -/
structure Gained (l : List Offered) (c c' : AnchorChain) : Prop where
  mono : ∀ id x, c.get id = some x → c'.get id = some x
  origin : ∀ id x, c'.get id = some x → c.get id = some x ∨ ∃ v, Offered.value x v ∈ l
  tip : c'.tipId = c.tipId ∨
    ∃ x v, Offered.value x v ∈ l ∧ c'.tipId = some x.id ∧ c'.get x.id = some x

namespace Gained

theorem refl (l : List Offered) (c : AnchorChain) : Gained l c c :=
  ⟨fun _ _ hx => hx, fun _ _ hx => Or.inl hx, Or.inl rfl⟩

theorem trans {c'' : AnchorChain} (h : Gained l c c') (h' : Gained l c' c'') : Gained l c c'' where
  mono := fun id x hx => h'.mono id x (h.mono id x hx)
  origin := fun id x hx => by
    rcases h'.origin id x hx with hx | hx
    · exact h.origin id x hx
    · exact Or.inr hx
  tip := by
    rcases h'.tip with htip | hmoved
    · rcases h.tip with hsame | ⟨x, v, hmem, hid, hget⟩
      · exact Or.inl (htip.trans hsame)
      · exact Or.inr ⟨x, v, hmem, htip.trans hid, h'.mono _ _ hget⟩
    · exact Or.inr hmoved

theorem subset {l' : List Offered} (h : Gained l c c') (hsub : l ⊆ l') : Gained l' c c' where
  mono := h.mono
  origin := fun id x hx => (h.origin id x hx).imp_right fun ⟨v, hv⟩ => ⟨v, hsub hv⟩
  tip := h.tip.imp_right fun ⟨x, v, hv, hrest⟩ => ⟨x, v, hsub hv, hrest⟩

theorem holds (h : Gained l c c') (ha : c.Holds a) : c'.Holds a := h.mono a.id a ha

end Gained

namespace NodeHooks

/-- The value throws at the chain. -/
def Throws (h : NodeHooks) (c : AnchorChain) (e : Offered) : Prop :=
  ∃ message, (h.offer c e).2 = .thrown message

/-- The chain after the values, the ones that throw passed over. -/
def settle (h : NodeHooks) (c : AnchorChain) (l : List Offered) : AnchorChain :=
  l.foldl (fun c e => (h.offer c e).1) c

/-- Values throw only where the chain is fine. -/
def Steady (h : NodeHooks) (fine : AnchorChain → Prop) : AnchorChain → List Offered → Prop
  | _, [] => True
  | c, e :: es =>
    (h.Throws c e → fine c) ∧ (¬h.Throws c e → Steady h fine (h.offer c e).1 es)

/-- Sorting throws, or a value does, only where the chain is fine. -/
def Calm (h : NodeHooks) (fine : AnchorChain → Prop) (c : AnchorChain)
    (elements : List Offered) : Prop :=
  (sortThrows elements = true → fine c) ∧
    (sortThrows elements = false → h.Steady fine c (h.sort elements))

end NodeHooks

/-! ## Malformed values -/

namespace Malformed

open Overtaken

/-- A chain at its first anchor, and no floor to adopt. -/
def hooks : NodeHooks where
  cfg := config
  verifyState := fun _ _ _ => true
  adoptFloor := fun _ _ => .refused
  floored := fun _ _ _ hadopt => absurd hadopt (by simp)
  sort := stableSort
  sorts := sortsTo_stableSort

def null : Offered :=
  .stray (.inr 0) .thrown (.thrown "Cannot read properties of null (reading 'id')")

/-- The chain after a message with the child and a malformed value. -/
def after (e : Offered) : Ingested :=
  hooks.ingestAnchors (rootedAt root ∅) ∅ ⟨0, none⟩ [.anchor config child, e]

end Malformed

namespace Daemon

open Runs

variable {V : Type} {cfg : DaemonConfig V} {d : Daemon V} {conn : Conn} {rest : List Task}
  {anchors : List Anchor} {before : Option String}

/-- The adopted floor is the tip. -/
theorem adopt_tip {chain : ChainConfig} {floor : Anchor} {heads : Heads} {ancestry : List Anchor}
    (hadopt : c.adopt chain floor heads ancestry = .ok c') : c'.tip.isSome := by
  unfold adopt at hadopt
  simp only at hadopt
  split_ifs at hadopt
  cases hobj : floorObjection chain floor (linkedRun floor ancestry) with
  | some reason => simp [hobj] at hadopt
  | none =>
    rw [hobj] at hadopt
    simp only [Except.ok.injEq] at hadopt
    subst hadopt
    unfold AnchorChain.tip AnchorChain.get
    rw [Option.bind_some, OrderedMap.get?_set_self]
    rfl

theorem adoptFloor_tip {d' : Daemon V} (hadopt : d.adoptFloor cfg anchors = (d', true)) :
    d'.anchors.tip.isSome := by
  unfold adoptFloor at hadopt
  cases hsnap : d.pendingSnapshot with
  | none => simp [hsnap] at hadopt
  | some snap =>
    simp only [hsnap] at hadopt
    split at hadopt
    · simp at hadopt
    cases hfind : anchors.find? (fun a => decide (a.id = snap.anchorId)) with
    | none => simp [hfind] at hadopt
    | some floor =>
      simp only [hfind] at hadopt
      split at hadopt
      · simp at hadopt
      split at hadopt
      · simp at hadopt
      cases hc : d.anchors.adopt cfg.chain floor snap.heads
          (gatherAncestry (byId anchors) (anchors.length + 1) floor) with
      | error e => simp [hc] at hadopt
      | ok c =>
        simp only [hc, Prod.mk.injEq, and_true] at hadopt
        subst hadopt
        exact adopt_tip hc

/-- What a daemon's node runs on. -/
def hooks (cfg : DaemonConfig V) (d : Daemon V) : NodeHooks where
  cfg := cfg.chain
  verifyState := d.checkAppRoot cfg
  adoptFloor := fun c elements =>
    match { d with anchors := c }.adoptFloor cfg (elements.filterMap Offered.asAnchor) with
    | (d, true) => .adopted d.anchors
    | (_, false) => .refused
  floored := by
    intro c elements c' hadopt
    generalize ho : { d with anchors := c }.adoptFloor cfg (elements.filterMap Offered.asAnchor) = o
      at hadopt
    obtain ⟨d', adopted⟩ := o
    cases adopted with
    | false => exact absurd hadopt (by simp)
    | true =>
      rw [← Adoption.adopted.inj hadopt]
      exact adoptFloor_tip ho
  sort := stableSort
  sorts := sortsTo_stableSort

/-- Run over anchors, the queue does what the loop over values does. -/
theorem run_offerAll (todo : List Anchor) : ∀ (d : Daemon V) (gap conflict : Bool),
    ∃ n ≤ todo.length,
      run (step cfg) { d with anchorQueue := .adding conn anchors todo before gap conflict :: rest }
          (List.replicate n .work)
        = { d with
            anchors := ((d.hooks cfg).offerAll d.anchors (todo.map (Offered.anchor cfg.chain)) gap
              conflict).1
            anchorQueue := match ((d.hooks cfg).offerAll d.anchors
                (todo.map (Offered.anchor cfg.chain)) gap conflict).2 with
              | none => rest
              | some (gap, conflict) => .adding conn anchors [] before gap conflict :: rest } := by
  induction todo with
  | nil =>
    intro d gap conflict
    exact ⟨0, le_refl 0, rfl⟩
  | cons a todo ih =>
    intro d gap conflict
    have hoffer : (d.hooks cfg).offer d.anchors (Offered.anchor cfg.chain a)
        = d.anchors.add cfg.chain (d.checkAppRoot cfg) a := rfl
    have hcheck : ∀ queue : List Task,
        { d with anchorQueue := queue }.checkAppRoot cfg = d.checkAppRoot cfg := fun _ => rfl
    rw [List.map_cons, NodeHooks.offerAll, hoffer]
    cases hadd : d.anchors.add cfg.chain (d.checkAppRoot cfg) a with
    | mk c result =>
      cases result with
      | thrown message =>
        refine ⟨1, by simp, ?_⟩
        rw [List.replicate_one, run_cons, run_nil]
        unfold step react work addAnchor
        simp only [hcheck, hadd]
      | ok =>
        obtain ⟨n, hn, hrun⟩ := ih { d with anchors := c } gap conflict
        refine ⟨n + 1, by simpa using hn, ?_⟩
        rw [List.replicate_succ, run_cons]
        have hwork : step cfg { d with
            anchorQueue := .adding conn anchors (a :: todo) before gap conflict :: rest } .work
            = { d with
                anchors := c
                anchorQueue := .adding conn anchors todo before gap conflict :: rest } := by
          unfold step react work addAnchor
          simp only [hcheck, hadd]
        rw [hwork]
        exact hrun
      | fail reason =>
        obtain ⟨n, hn, hrun⟩ := ih { d with anchors := c }
          (gap || decide (reason = "unknown prev anchor"))
          (conflict || decide (reason = "rejected: conflicts with finalized history"))
        refine ⟨n + 1, by simpa using hn, ?_⟩
        rw [List.replicate_succ, run_cons]
        have hwork : step cfg { d with
            anchorQueue := .adding conn anchors (a :: todo) before gap conflict :: rest } .work
            = { d with
                anchors := c
                anchorQueue := .adding conn anchors todo before
                  (gap || decide (reason = "unknown prev anchor"))
                  (conflict || decide (reason = "rejected: conflicts with finalized history"))
                    :: rest } := by
          unfold step react work addAnchor
          simp only [hcheck, hadd]
        rw [hwork]
        exact hrun

end Daemon

end Gavl
