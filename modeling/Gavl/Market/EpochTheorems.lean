import Gavl.Market.CheckpointTheorems

/-!
# The epoch of a write

The loop that assigns epochs reads deltas and keeps what it has covered; what an anchor certifies is
read off the full heads rebuilt from the deltas. The two agree on the first anchor of a chain that
covers a write, whether or not heads only advance.
-/

namespace Gavl

open AnchorChain ParentWalk Runs

variable {c : AnchorChain} {a b p : Anchor} {w : Write} {writes : List Write}

/-- What is not covered before is covered exactly by the delta. -/
theorem covers_applyHeadsDelta_of_not {prev delta : Heads} (h : covers prev w = false) :
    covers (applyHeadsDelta prev delta) w = covers delta w := by
  unfold covers at h ⊢
  rw [get?_applyHeadsDelta]
  cases hd : delta.get? w.writer with
  | none => exact h
  | some head => rfl

/-- Oldest first, a chain ends in its anchor. -/
theorem chainTo_cons (hL : c.Linked) (ha : c.Holds a) (hp : c.parent a = some p) :
    c.chainTo a = c.chainTo p ++ [a] := by
  unfold chainTo
  rw [hL.ancestry_cons ha hp, List.reverse_cons]

/-- The first delta of a chain that covers a write is that of the first anchor whose full heads
do. -/
theorem find?_delta_eq (hc : c.Grown) (ha : c.Holds a) (w : Write) :
    (c.chainTo a).find? (fun x => covers x.headsDelta w)
      = (c.chainTo a).find? (fun x => covers (c.headsAt x.id) w) := by
  induction hn : a.height using Nat.strong_induction_on generalizing a with
  | _ n ih =>
    cases hp : c.parent a with
    | none =>
      have hchain : c.chainTo a = [a] := by
        unfold chainTo
        rw [ancestry_root hp]
        rfl
      have hroot : covers (c.headsAt a.id) w = covers a.headsDelta w :=
        Bool.eq_iff_iff.mpr (covers_headsAt_root hc ha hp)
      rw [hchain, List.find?_singleton, List.find?_singleton, hroot]
    | some p =>
      have hheight := hc.linked.height_eq a p ha hp
      have hheldp := hc.linked.holds_parent hp
      have hbelow := ih p.height (by omega) hheldp rfl
      rw [chainTo_cons hc.linked ha hp, List.find?_append, List.find?_append, hbelow]
      cases hfirst : (c.chainTo p).find? (fun x => covers (c.headsAt x.id) w) with
      | some x => rfl
      | none =>
        -- nothing below covers the write, so the anchor covers it exactly by its delta
        have hprev : covers (c.headsAt p.id) w = false := by
          have hmem : p ∈ c.chainTo p := (mem_chainTo hc.linked hheldp).mpr (Anc.refl p)
          simpa using List.find?_eq_none.mp hfirst p hmem
        have hsame : covers (c.headsAt a.id) w = covers a.headsDelta w := by
          rw [hc.headsAt_child ha hp, covers_applyHeadsDelta_of_not hprev]
        rw [List.find?_singleton, List.find?_singleton, hsame]

theorem mem_included : w ∈ (orderingFor writes c (some a)).included ↔
    w ∈ writes ∧ covers (c.headsAt a.id) w = true := by
  rw [included_eq, List.mem_filter]

/-- The epoch of an included write is the height of the first anchor whose full heads cover it. -/
theorem get?_bornAt (hc : c.Grown) (ha : c.Holds a) (hids : (writes.map (·.id)).Nodup)
    (hw : w ∈ (orderingFor writes c (some a)).included) :
    (orderingFor writes c (some a)).bornAt.get? w.id
      = ((c.chainTo a).find? (fun x => covers (c.headsAt x.id) w)).map (fun x => (x.height : ℤ)) := by
  have hsub : ((orderingFor writes c (some a)).included.map (·.id)).Nodup :=
    hids.sublist (List.filter_sublist.map _)
  rw [← find?_delta_eq hc ha]
  exact get?_epochOf hsub _ hw

/-- The first anchor on the chain to `a` that certifies the write: it covers the write, and none
before it does. -/
structure FirstCovers (c : AnchorChain) (a : Anchor) (w : Write) (b : Anchor) : Prop where
  covers : covers (c.headsAt b.id) w = true
  first : ∃ pre post, c.chainTo a = pre ++ b :: post ∧
    ∀ x ∈ pre, Gavl.covers (c.headsAt x.id) w = false

/-- Every included write was certified by some first anchor. -/
theorem exists_firstCovers (hc : c.Grown) (ha : c.Holds a)
    (hcovers : covers (c.headsAt a.id) w = true) :
    ∃ b, FirstCovers c a w b ∧
      (c.chainTo a).find? (fun x => covers (c.headsAt x.id) w) = some b := by
  have hsome : ((c.chainTo a).find? (fun x => covers (c.headsAt x.id) w)).isSome := by
    rw [List.find?_isSome]
    exact ⟨a, (mem_chainTo hc.linked ha).mpr (Anc.refl a), hcovers⟩
  obtain ⟨b, hb⟩ := Option.isSome_iff_exists.mp hsome
  obtain ⟨hcov, pre, post, hchain, hpre⟩ := List.find?_eq_some_iff_append.mp hb
  exact ⟨b, ⟨hcov, pre, post, hchain, fun x hx => by simpa using hpre x hx⟩, hb⟩

/-! ## Heads that only advance -/

/-- No certified head has a lower seq than the parent's. -/
def SeqsAdvance (c : AnchorChain) : Prop :=
  ∀ a p, c.Holds a → c.parent a = some p → ∀ v h, (c.headsAt p.id).get? v = some h →
    ∃ h', (c.headsAt a.id).get? v = some h' ∧ h.seq ≤ h'.seq

/-- What an ancestor covers is covered. -/
theorem covers_of_anc (hL : c.Linked) (hadv : SeqsAdvance c) (ha : c.Holds a)
    (hab : Anc c.parent a b) (hb : covers (c.headsAt b.id) w = true) :
    covers (c.headsAt a.id) w = true := by
  induction hab with
  | refl a => exact hb
  | @step a p b hp _ ih =>
    obtain ⟨h, hget, hle⟩ := covers_iff.mp (ih (hL.holds_parent hp) hb)
    obtain ⟨h', hget', hle'⟩ := hadv a p ha hp _ h hget
    exact covers_iff.mpr ⟨h', hget', hle.trans hle'⟩

/-- An ancestor that includes a write gives it the same epoch. -/
theorem bornAt_eq_of_anc (hc : c.Grown) (ha : c.Holds a) (hids : (writes.map (·.id)).Nodup)
    (hab : Anc c.parent a b) (hw : w ∈ (orderingFor writes c (some a)).included)
    (hwb : w ∈ (orderingFor writes c (some b)).included) :
    (orderingFor writes c (some a)).bornAt.get? w.id
      = (orderingFor writes c (some b)).bornAt.get? w.id := by
  have hb := hc.linked.holds_anc ha hab
  obtain ⟨x, -, hx⟩ := exists_firstCovers hc hb (mem_included.mp hwb).2
  obtain ⟨rest, hsplit, -⟩ := chainTo_split hc.linked hab ha
  rw [get?_bornAt hc ha hids hw, get?_bornAt hc hb hids hwb, hsplit, List.find?_append, hx]
  rfl

/-- **A write's epoch is the first height that certifies it.** On any chain that grew from its root,
the ordering relative to an anchor includes what the anchor's heads cover, and gives each included
write the height of the first anchor on the way whose full heads cover it. Where heads only advance,
nothing that an ancestor covers is left out, and ancestors give the same epochs. -/
theorem epochs_first_certify (cfg : ChainConfig) (c₀ : AnchorChain) (hroot : Rooted cfg c₀)
    (calls : List (Anchor × StateCheck)) (c : AnchorChain) (hc : run (addStep cfg) c₀ calls = c)
    (a : Anchor) (ha : c.Holds a) (writes : List Write) (hids : (writes.map (·.id)).Nodup) :
    (∀ w, w ∈ (orderingFor writes c (some a)).included ↔
        w ∈ writes ∧ ∃ h, (c.headsAt a.id).get? w.writer = some h ∧ w.seq ≤ h.seq) ∧
      (∀ w ∈ (orderingFor writes c (some a)).included, ∃ b, FirstCovers c a w b ∧
        (orderingFor writes c (some a)).bornAt.get? w.id = some (b.height : ℤ)) ∧
      (SeqsAdvance c → ∀ b, Anc c.parent a b →
        ∀ w ∈ (orderingFor writes c (some b)).included,
          w ∈ (orderingFor writes c (some a)).included ∧
            (orderingFor writes c (some a)).bornAt.get? w.id
              = (orderingFor writes c (some b)).bornAt.get? w.id) := by
  have hgrown : c.Grown :=
    hc ▸ inv_run _ (fun s i hs => hs.add cfg i.2 i.1) hroot.grown calls
  refine ⟨fun w => ?_, fun w hw => ?_, fun hadv b hab w hw => ?_⟩
  · rw [mem_included, covers_iff]
  · obtain ⟨b, hfirst, hb⟩ := exists_firstCovers hgrown ha (mem_included.mp hw).2
    refine ⟨b, hfirst, ?_⟩
    rw [get?_bornAt hgrown ha hids hw, hb]
    rfl
  · obtain ⟨hmem, hcovers⟩ := mem_included.mp hw
    have hwa : w ∈ (orderingFor writes c (some a)).included :=
      mem_included.mpr ⟨hmem, covers_of_anc hgrown.linked hadv ha hab hcovers⟩
    exact ⟨hwa, bornAt_eq_of_anc hgrown ha hids hab hwa hw⟩

open Resumed Checkpointed in
/-- The theorem for the anchor above the one that certifies an offer: the offer keeps the height of
the first that covers it. -/
theorem epochs_first_certify_take : ∃ a, chain.get second.id = some a ∧
    ∀ w ∈ (orderingFor [take, post] chain (some a)).included, ∃ b, FirstCovers chain a w b ∧
      (orderingFor [take, post] chain (some a)).bornAt.get? w.id = some (b.height : ℤ) := by
  obtain ⟨-, hlink, -, -, -, hids, -, -⟩ := evaluated
  obtain ⟨q, hq, -⟩ := Option.map_eq_some_iff.mp hlink
  obtain ⟨a, ha, -⟩ := Option.bind_eq_some_iff.mp hq
  have hroot : Rooted config (rootedAt root ∅) :=
    Rooted.genesis rfl (installGenesis_new rfl rfl rfl)
  have hgrown : chain.Grown := inv_run _ (fun s i hs => hs.add _ i.2 i.1) hroot.grown _
  exact ⟨a, ha, (epochs_first_certify config (rootedAt root ∅) hroot _ chain rfl a
    (hgrown.linked.holds_of_get ha) [take, post] hids).2.1⟩

end Gavl
