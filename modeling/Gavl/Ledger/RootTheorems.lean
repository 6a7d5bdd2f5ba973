import Gavl.Consensus.IdTheorems
import Gavl.Ledger.PruneTheorems

/-!
# What a state root says about the history

The root commits to the heads only. With a collision-free hash an id fixes the id below it, so two
chains with one head agree on every seq that both still hold.
-/

namespace Gavl

open Json

variable {C : Crypto} {params : ChainParams} {w w' : Write}

/-! ## Ids of writes -/

theorem writeIdOf_eq_id (h : verifyWrite C params false w = .ok) :
    writeIdOf C w.toWriteCore w.space w.time = w.id := by
  unfold verifyWrite at h
  by_cases hdiff : w.difficulty ≠ toString params.difficulty
  · rw [if_pos hdiff] at h
    exact absurd h (by simp)
  rw [if_neg hdiff] at h
  simp only at h
  split at h
  · exact absurd h (by simp)
  split at h
  · exact absurd h (by simp)
  split_ifs at h with hiters htime hid hsig
  exact not_not.mp hid

namespace WriterChain

variable {c c' : WriterChain}

theorem writeAt_eq_some {seq : ℕ} (hw : c.writeAt seq = some w) :
    c.baseSeq ≤ seq ∧ seq < c.nextSeq ∧ c.writes[seq - c.baseSeq]? = some w := by
  unfold writeAt at hw
  split_ifs at hw with hbase
  have hlt := (List.getElem?_eq_some_iff.mp hw).1
  refine ⟨by omega, ?_, hw⟩
  unfold nextSeq
  omega

/-- A write links to the one held below it. -/
theorem Sound.prev_eq (hc : c.Sound C params) {seq : ℕ} {x : Write} (hx : c.writeAt seq = some x)
    (hw : c.writeAt (seq + 1) = some w) : w.prev = some x.id := by
  obtain ⟨hbase, -, hget⟩ := writeAt_eq_some hx
  obtain ⟨-, -, hget'⟩ := writeAt_eq_some hw
  have hs := hc.stretch.drop (seq - c.baseSeq + 1)
  rw [show seq + 1 - c.baseSeq = seq - c.baseSeq + 1 by omega] at hget'
  obtain ⟨hlt, hget'⟩ := List.getElem?_eq_some_iff.mp hget'
  rw [List.drop_eq_getElem_cons hlt, hget', tipId_take hget] at hs
  exact hs.2.1

end WriterChain

/-! ## Ledgers -/

namespace Ledger

variable {L M : Ledger}

theorem Sound.headOf_eq (hL : L.Sound C params) {v : String} {c : WriterChain}
    (hc : L.chains.get? v = some c) :
    L.headOf v = c.headId.map (fun id => ⟨id, c.nextSeq - 1⟩) := by
  unfold headOf
  rw [hc, Option.bind_some, (hL.chain v c hc).head_eq, Option.map_map]
  rfl

end Ledger

end Gavl
