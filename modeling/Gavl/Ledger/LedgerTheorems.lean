import Gavl.Ledger.Ledger
import Gavl.Lib.StableSort

/-!
# Heads and checkpoints of a ledger

The commitment over heads depends on nothing but what is looked up in them. Seeding a checkpoint
replaces the chain of every writer it names by an empty one above its head; the chains of the
others stay.
-/

namespace Gavl

/-- The commitment does not depend on the order of the heads. -/
theorem rootOfHeads_congr (C : Crypto) {h h' : Heads} (heq : ∀ v, h.get? v = h'.get? v) :
    rootOfHeads C h = rootOfHeads C h' := by
  have hsorted : h.sortedEntries = h'.sortedEntries := by
    refine StableSort.insertionSort_eq_of_perm ⟨fun a _ b _ => ?_, fun a _ b _ c _ => ?_⟩
      (fun a ha b hb hab hba => ?_) (OrderedMap.entries_perm heq)
    · exact le_total a.1 b.1
    · exact le_trans
    · have hk : a.1 = b.1 := le_antisymm hab hba
      have ha' := (OrderedMap.get?_eq_some_iff h a.1 a.2).mpr ha
      have hb' := (OrderedMap.get?_eq_some_iff h b.1 b.2).mpr hb
      rw [hk, hb', Option.some.injEq] at ha'
      exact Prod.ext hk ha'.symm
  unfold rootOfHeads Heads.entriesJson
  rw [hsorted]

namespace Ledger

/-- The heads are those of the chains. -/
theorem get?_heads (L : Ledger) (v : String) : L.heads.get? v = L.headOf v := by
  unfold heads
  rw [OrderedMap.get?_foldl_set L.chains (fun _ c => c.head.map (fun h => (⟨h.1, h.2⟩ : Head)))]
  · unfold headOf
    cases L.chains.get? v <;> rfl
  · intro out e
    cases e.2.head <;> rfl

theorem mem_allWrites (L : Ledger) (w : Write) :
    w ∈ L.allWrites ↔ ∃ v c, L.chains.get? v = some c ∧ w ∈ c.writes := by
  unfold allWrites
  rw [List.mem_flatMap]
  constructor
  · rintro ⟨c, hc, hw⟩
    obtain ⟨v, hv⟩ := (OrderedMap.mem_values _ _).mp hc
    exact ⟨v, c, hv, hw⟩
  · rintro ⟨v, c, hv, hw⟩
    exact ⟨c, (OrderedMap.mem_values _ _).mpr ⟨v, hv⟩, hw⟩

variable {L : Ledger} {params : ChainParams} {writer : String} {w : Write}

/-- A write of the writer's chain or of its buffer. -/
def HoldsWrite (L : Ledger) (writer : String) (w : Write) : Prop :=
  (∃ c, L.chains.get? writer = some c ∧ w ∈ c.writes) ∨
    ∃ seq e, (L.pendingOf writer).get? seq = some e ∧ e.w = w

theorem chains_seedCheckpoint (L : Ledger) (params : ChainParams) (heads : Heads) :
    (L.seedCheckpoint params heads).chains =
      L.chains.overlay
        (heads.mapEntries (fun writer h => WriterChain.resumeAt params writer (h.seq + 1) h.id)) := by
  unfold seedCheckpoint OrderedMap.overlay OrderedMap.mapEntries
  rw [List.foldl_map]
  exact (List.foldl_hom Ledger.chains (fun _ _ => rfl)).symm

theorem pending_seedCheckpoint (L : Ledger) (params : ChainParams) (heads : Heads) :
    (L.seedCheckpoint params heads).pending = L.pending.overlay (heads.mapEntries (fun _ _ => ∅)) := by
  unfold seedCheckpoint OrderedMap.overlay OrderedMap.mapEntries
  rw [List.foldl_map]
  exact (List.foldl_hom Ledger.pending (fun _ _ => rfl)).symm

variable {heads : Heads} {h : Head}

/-- A writer the checkpoint names ends at the head it names. -/
theorem headOf_seedCheckpoint (hh : heads.get? writer = some h) :
    (L.seedCheckpoint params heads).headOf writer = some h := by
  unfold headOf
  rw [chains_seedCheckpoint, OrderedMap.get?_overlay, OrderedMap.get?_mapEntries, hh]
  simp [WriterChain.resumeAt, WriterChain.head]

theorem headOf_seedCheckpoint_of_none (hh : heads.get? writer = none) :
    (L.seedCheckpoint params heads).headOf writer = L.headOf writer := by
  unfold headOf
  rw [chains_seedCheckpoint, OrderedMap.get?_overlay, OrderedMap.get?_mapEntries, hh]
  simp

/-- A writer the checkpoint names keeps no write. -/
theorem not_holdsWrite_seedCheckpoint (hh : heads.get? writer = some h) :
    ¬ (L.seedCheckpoint params heads).HoldsWrite writer w := by
  rintro (⟨c, hc, hw⟩ | ⟨seq, e, he, -⟩)
  · rw [chains_seedCheckpoint, OrderedMap.get?_overlay, OrderedMap.get?_mapEntries, hh] at hc
    simp only [Option.map_some, Option.orElse_some, Option.some.injEq] at hc
    rw [← hc] at hw
    exact absurd hw (by simp [WriterChain.resumeAt])
  · unfold pendingOf at he
    rw [pending_seedCheckpoint, OrderedMap.get?_overlay, OrderedMap.get?_mapEntries, hh] at he
    simp at he

theorem holdsWrite_seedCheckpoint_of_none (hh : heads.get? writer = none) :
    (L.seedCheckpoint params heads).HoldsWrite writer w ↔ L.HoldsWrite writer w := by
  unfold HoldsWrite pendingOf
  rw [chains_seedCheckpoint, pending_seedCheckpoint, OrderedMap.get?_overlay,
    OrderedMap.get?_overlay, OrderedMap.get?_mapEntries, OrderedMap.get?_mapEntries, hh]
  simp

end Ledger

end Gavl
