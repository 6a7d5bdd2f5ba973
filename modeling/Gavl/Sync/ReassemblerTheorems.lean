import Gavl.Lib.MapTotals
import Gavl.Sync.ChunkTheorems

/-!
# What the reassembler counts

The counters of the reassembler are those of what it holds, after any calls. Forgetting, evicting,
shedding and sweeping all come down to dropping partials that are there, one after the other, so
that what one drop keeps is kept by all of them; the only other change is that of the chunk stored.
-/

namespace Gavl

open Runs

namespace Partial

variable {p : Partial} {index : ℕ} {part : List Char} {now : ℤ}

/-- The lengths of the chunks that are there, together. -/
def heldBytes (p : Partial) : ℕ := (p.parts.map (fun part => (part.map utf16Length).getD 0)).sum

/-- A partial counts what it holds. -/
structure Counted (p : Partial) : Prop where
  length_eq : p.parts.length = p.total
  have_eq : p.have = p.parts.countP Option.isSome
  bytes_eq : p.bytes = p.heldBytes

theorem Counted.have_le (h : p.Counted) : p.have ≤ p.total := by
  rw [h.have_eq, ← h.length_eq]
  exact List.countP_le_length

theorem Counted.bytes_nonneg (h : p.Counted) : 0 ≤ p.bytes := by
  rw [h.bytes_eq]
  omega

theorem Counted.new (total : ℕ) (now : ℤ) : Counted ⟨total, List.replicate total none, 0, 0, now⟩ where
  length_eq := List.length_replicate
  have_eq := by simp [List.countP_replicate]
  bytes_eq := by simp [heldBytes]

theorem fill_total : (p.fill index part now).total = p.total := by
  unfold fill
  split_ifs <;> rfl

theorem fill_bytes : (p.fill index part now).bytes
    = p.bytes + (if p.lacks index then utf16Length part else 0 : ℕ) := by
  unfold fill
  split_ifs
  · rfl
  · simp

/-- A chunk that was missing is counted once, any other not at all. -/
theorem Counted.fill (h : p.Counted) : (p.fill index part now).Counted := by
  unfold Partial.fill
  split_ifs with hlacks
  · have hget : p.parts[index]? = some none := of_decide_eq_true hlacks
    obtain ⟨hlt, hnone⟩ := List.getElem?_eq_some_iff.mp hget
    obtain ⟨before, after, hparts, -, hset⟩ : ∃ l l' : List (Option (List Char)),
        p.parts = l ++ p.parts[index] :: l' ∧ l.length = index ∧
          p.parts.set index (some part) = l ++ some part :: l' := List.exists_of_set hlt
    rw [hnone] at hparts
    refine ⟨?_, ?_, ?_⟩
    · show (p.parts.set index (some part)).length = p.total
      rw [List.length_set, h.length_eq]
    · show p.have + 1 = (p.parts.set index (some part)).countP Option.isSome
      rw [h.have_eq, hset, hparts]
      simp only [List.countP_append, List.countP_cons, Option.isSome_none, Option.isSome_some]
      simp only [Bool.false_eq_true, if_false, if_true]
      omega
    · have hheld : heldBytes { p with parts := p.parts.set index (some part) }
          = p.heldBytes + utf16Length part := by
        unfold heldBytes
        simp only
        rw [hset, hparts]
        simp only [List.map_append, List.map_cons, List.sum_append, List.sum_cons, Option.map_none,
          Option.map_some, Option.getD_none, Option.getD_some]
        omega
      show p.bytes + utf16Length part = (heldBytes { p with parts := p.parts.set index (some part) } : ℤ)
      rw [hheld, h.bytes_eq]
      omega
  · exact ⟨h.length_eq, h.have_eq, h.bytes_eq⟩

end Partial

namespace Reassembler

variable {r r' r'' : Reassembler} {sender id sender' id' : String} {p q : Partial}

/-! ## Sums over the partials -/

section Sums

variable {M : Type} [AddCommMonoid M] (f : Partial → M)

/-- The weights of all partials together. -/
def sumOver (r : Reassembler) (f : Partial → M) : M :=
  r.bySender.total (fun _ msgs => msgs.total (fun _ p => f p))

theorem sum_pending : (r.pending.map (fun e => f e.2)).sum = r.sumOver f := by
  unfold pending sumOver OrderedMap.total
  rw [List.map_flatMap, List.flatMap_def, List.sum_flatten, List.map_map]
  refine congrArg List.sum (List.map_congr_left fun e _ => ?_)
  rw [Function.comp_apply, List.map_map]
  rfl

theorem length_pending : r.pending.length = r.sumOver (fun _ => 1) := by
  rw [← sum_pending]
  simp

/-- The partials of one sender, and those of the others. -/
theorem sumOver_split (sender : String) : r.sumOver f
    = (r.bySender.delete sender).total (fun _ msgs => msgs.total (fun _ p => f p))
      + (r.ensure sender).total (fun _ p => f p) := by
  unfold sumOver ensure
  cases hget : r.bySender.get? sender with
  | none => rw [OrderedMap.delete_of_none hget, Option.getD_none, OrderedMap.total_empty, add_zero]
  | some msgs => exact OrderedMap.total_of_get? _ hget

theorem ensure_drop : (r.drop sender id p).ensure sender'
    = if sender = sender' then (r.ensure sender).delete id else r.ensure sender' := by
  unfold drop
  simp only
  generalize hm : (r.ensure sender).delete id = msgs
  unfold ensure
  split_ifs with h0 hs hs
  · rw [hs, OrderedMap.get?_delete, if_pos rfl, Option.getD_none,
      OrderedMap.eq_empty_of_entries (List.eq_nil_of_length_eq_zero h0)]
  · rw [OrderedMap.get?_delete, if_neg hs]
  · rw [hs, OrderedMap.get?_set_self, Option.getD_some]
  · rw [OrderedMap.get?_set_of_ne _ _ hs]

theorem ensure_put (grown : ℕ) : (r.put sender id p grown).ensure sender'
    = if sender = sender' then (r.ensure sender).set id p else r.ensure sender' := by
  unfold put
  generalize hm : (r.ensure sender).set id p = msgs
  unfold ensure
  simp only
  split_ifs with hs
  · rw [hs, OrderedMap.get?_set_self, Option.getD_some]
  · rw [OrderedMap.get?_set_of_ne _ _ hs]

/-- The other senders keep their partials. -/
theorem others_drop : (r.drop sender id p).bySender.delete sender = r.bySender.delete sender := by
  unfold drop
  simp only
  split_ifs
  · exact OrderedMap.delete_of_none (by rw [OrderedMap.get?_delete, if_pos rfl])
  · exact OrderedMap.delete_set _

theorem sumOver_drop (h : r.partial? sender id = some p) (q : Partial) :
    r.sumOver f = (r.drop sender id q).sumOver f + f p := by
  have hget : (r.ensure sender).get? id = some p := by rw [get?_ensure, h]
  rw [sumOver_split f sender, sumOver_split (r := r.drop sender id q) f sender, others_drop,
    ensure_drop, if_pos rfl, OrderedMap.total_of_get? (fun _ p => f p) hget, add_assoc]

theorem sumOver_put (grown : ℕ) (q : Partial) :
    (r.put sender id p grown).sumOver f = (r.drop sender id q).sumOver f + f p := by
  have hothers : (r.put sender id p grown).bySender.delete sender = r.bySender.delete sender :=
    OrderedMap.delete_set _
  rw [sumOver_split f sender, sumOver_split (r := r.drop sender id q) f sender, hothers, others_drop,
    ensure_put, if_pos rfl, ensure_drop, if_pos rfl, OrderedMap.total_set, add_assoc]

/-- Storing where nothing was. -/
theorem sumOver_put_of_new (h : r.partial? sender id = none) (grown : ℕ) :
    (r.put sender id p grown).sumOver f = r.sumOver f + f p := by
  have hothers : (r.put sender id p grown).bySender.delete sender = r.bySender.delete sender :=
    OrderedMap.delete_set _
  have hget : (r.ensure sender).get? id = none := by rw [get?_ensure, h]
  rw [sumOver_split f sender, sumOver_split (r := r) f sender, hothers, ensure_put, if_pos rfl,
    OrderedMap.total_set, OrderedMap.delete_of_none hget, add_assoc]

end Sums

/-! ## Dropping -/

/-- What is left after some of the partials that were there are dropped. -/
inductive Dropped : Reassembler → Reassembler → Prop where
  | refl (r : Reassembler) : Dropped r r
  | step {r r' : Reassembler} {sender id : String} {p : Partial}
      (held : r.partial? sender id = some p) (rest : Dropped (r.drop sender id p) r') : Dropped r r'

theorem Dropped.trans (h : Dropped r r') (h' : Dropped r' r'') : Dropped r r'' := by
  induction h with
  | refl r => exact h'
  | step held _ ih => exact Dropped.step held (ih h')

theorem Dropped.opts (h : Dropped r r') : r'.toReassemblerOptions = r.toReassemblerOptions := by
  induction h with
  | refl r => rfl
  | step _ _ ih => exact ih

theorem Dropped.done_eq (h : Dropped r r') : r'.done = r.done := by
  induction h with
  | refl r => rfl
  | step _ _ ih => exact ih

/-- What is still there was there. -/
theorem Dropped.partial? (h : Dropped r r') (hq : r'.partial? sender' id' = some q) :
    r.partial? sender' id' = some q := by
  induction h with
  | refl r => exact hq
  | step _ _ ih =>
    have hone := ih hq
    rw [partial?_drop] at hone
    split_ifs at hone
    exact hone

theorem dropped_forget : Dropped r (r.forget sender id) := by
  unfold forget
  cases hp : r.partial? sender id with
  | none => exact Dropped.refl r
  | some p => exact Dropped.step hp (Dropped.refl _)

/-- The oldest of some entries is one of them. -/
theorem oldest_mem {α : Type} {entries : List (α × Partial)} {k : α}
    (h : oldest entries = some k) : ∃ p, (k, p) ∈ entries := by
  unfold oldest at h
  obtain ⟨e, he, rfl⟩ := Option.map_eq_some_iff.mp h
  refine ⟨e.2, ?_⟩
  -- what the loop holds on to is one of the entries
  refine List.foldlRecOn entries _ (motive := fun best => ∀ e, best = some e → e ∈ entries) ?_ ?_ e he
  · exact fun e hnone => absurd hnone (by simp)
  · intro best hbest x hx e hnext
    cases best with
    | none => exact Option.some.inj hnext ▸ hx
    | some b =>
      simp only at hnext
      split_ifs at hnext
      · exact Option.some.inj hnext ▸ hx
      · exact hbest e hnext

/-- Of no entries there is none, and of others there is one. -/
theorem oldest_eq_none {α : Type} {entries : List (α × Partial)} :
    oldest entries = none ↔ entries = [] := by
  unfold oldest
  rw [Option.map_eq_none_iff]
  cases entries with
  | nil => simp
  | cons e l =>
    rw [List.foldl_cons]
    refine iff_of_false (Option.ne_none_iff_isSome.mpr ?_) (List.cons_ne_nil e l)
    -- the loop never lets go of what it holds
    refine List.foldlRecOn l _ (motive := fun best => Option.isSome best = true) rfl ?_
    intro best hbest x _
    obtain ⟨b, rfl⟩ := Option.isSome_iff_exists.mp hbest
    simp only
    split_ifs <;> rfl

theorem dropped_evictOldestOf : Dropped r (r.evictOldestOf sender) := by
  unfold evictOldestOf
  cases oldest (r.ensure sender).entries with
  | none => exact Dropped.refl r
  | some id => exact dropped_forget

theorem dropped_evictOldest : Dropped r r.evictOldest.1 := by
  unfold evictOldest
  cases oldest r.pending with
  | none => exact Dropped.refl r
  | some e => exact dropped_forget

theorem dropped_shed : ∀ (n : ℕ) (r : Reassembler), Dropped r (shed n r) := by
  intro n
  induction n with
  | zero => exact Dropped.refl
  | succ n ih =>
    intro r
    rw [shed]
    split_ifs
    · exact dropped_evictOldest.trans (ih _)
    · exact Dropped.refl r

theorem dropped_reshaped (total : ℕ) : Dropped r (r.reshaped sender id total) := by
  unfold reshaped
  cases r.partial? sender id with
  | none => exact Dropped.refl r
  | some p =>
    simp only
    split_ifs
    · exact dropped_forget
    · exact Dropped.refl r

/-! ## Sweeping -/

theorem Dropped.tidy (h : Dropped r r') (ht : r.Tidy) : r'.Tidy := by
  induction h with
  | refl r => exact ht
  | step _ _ ih => exact ih ht.drop

/-- The quiet ones of one sender are dropped; the others are not touched. -/
theorem dropped_quietOf (now : ℤ) : ∀ (l : List (String × Partial)) (r : Reassembler),
    (l.map Prod.fst).Nodup → (∀ q ∈ l, r.partial? sender q.1 = some q.2) →
      Dropped r (l.foldl (fun r q =>
        if r.ttlMs < now - q.2.at then r.drop sender q.1 q.2 else r) r) ∧
      ∀ s i, sender ≠ s → (l.foldl (fun r q =>
        if r.ttlMs < now - q.2.at then r.drop sender q.1 q.2 else r) r).partial? s i
          = r.partial? s i := by
  intro l
  induction l with
  | nil => exact fun r _ _ => ⟨Dropped.refl r, fun _ _ _ => rfl⟩
  | cons q l ih =>
    intro r hnodup hheld
    rw [List.map_cons, List.nodup_cons] at hnodup
    obtain ⟨hq, hl⟩ := List.forall_mem_cons.mp hheld
    rw [List.foldl_cons]
    split_ifs
    · have hrest : ∀ x ∈ l, (r.drop sender q.1 q.2).partial? sender x.1 = some x.2 := by
        intro x hx
        have hne : q.1 ≠ x.1 := fun heq => hnodup.1 (heq ▸ List.mem_map_of_mem hx)
        rw [partial?_drop, if_neg fun h => hne h.2]
        exact hl x hx
      obtain ⟨hdropped, hothers⟩ := ih _ hnodup.2 hrest
      refine ⟨Dropped.step hq hdropped, fun s i hs => ?_⟩
      rw [hothers s i hs, partial?_drop, if_neg fun h => hs h.1]
    · exact ih r hnodup.2 hl

/-- Whoever is left without a partial was forgotten with the last one. -/
theorem Tidy.delete_of_empty (h : r.Tidy) (h0 : (r.ensure sender).size = 0) :
    { r with bySender := r.bySender.delete sender } = r := by
  have hnone : r.bySender.get? sender = none := by
    cases hget : r.bySender.get? sender with
    | none => rfl
    | some msgs =>
      unfold ensure at h0
      rw [hget] at h0
      exact absurd h0 (h sender msgs hget)
  rw [OrderedMap.delete_of_none hnone]

theorem dropped_quiet (now : ℤ) : ∀ (l : List (String × OrderedMap String Partial)) (r : Reassembler),
    r.Tidy → (l.map Prod.fst).Nodup →
      (∀ e ∈ l, ∀ q ∈ e.2.entries, r.partial? e.1 q.1 = some q.2) →
        Dropped r (l.foldl (fun r e =>
          let r := e.2.entries.foldl
            (fun r q => if r.ttlMs < now - q.2.at then r.drop e.1 q.1 q.2 else r) r
          if (r.ensure e.1).size = 0 then { r with bySender := r.bySender.delete e.1 } else r) r) := by
  intro l
  induction l with
  | nil => exact fun r _ _ _ => Dropped.refl r
  | cons e l ih =>
    intro r htidy hnodup hheld
    rw [List.map_cons, List.nodup_cons] at hnodup
    obtain ⟨he, hl⟩ := List.forall_mem_cons.mp hheld
    obtain ⟨hdropped, hothers⟩ := dropped_quietOf now e.2.entries r e.2.nodup he
    rw [List.foldl_cons]
    simp only
    generalize e.2.entries.foldl
      (fun r q => if r.ttlMs < now - q.2.at then r.drop e.1 q.1 q.2 else r) r = r₁ at hdropped hothers ⊢
    have htidy₁ : r₁.Tidy := hdropped.tidy htidy
    have hl₁ : ∀ x ∈ l, ∀ q ∈ x.2.entries, r₁.partial? x.1 q.1 = some q.2 := by
      intro x hx q hq
      have hne : e.1 ≠ x.1 := fun heq => hnodup.1 (heq ▸ List.mem_map_of_mem hx)
      rw [hothers x.1 q.1 hne]
      exact hl x hx q hq
    split_ifs with h0
    · rw [htidy₁.delete_of_empty h0]
      exact hdropped.trans (ih r₁ htidy₁ hnodup.2 hl₁)
    · exact hdropped.trans (ih r₁ htidy₁ hnodup.2 hl₁)

/-- Sweeping drops some partials, and forgets some completed messages. -/
theorem Tidy.sweep (h : r.Tidy) (now : ℤ) :
    ∃ quiet done, Dropped r quiet ∧ r.sweep now = { quiet with done := done } := by
  refine ⟨_, _, dropped_quiet now r.bySender.entries r h r.bySender.nodup fun e he q hq => ?_, rfl⟩
  unfold Reassembler.partial?
  rw [(OrderedMap.get?_eq_some_iff _ _ _).mpr he]
  exact (OrderedMap.get?_eq_some_iff _ _ _).mpr hq

/-- Deleting the first keys of a map. -/
theorem size_delete_first {κ ν : Type} [DecidableEq κ] : ∀ (n : ℕ) (m : OrderedMap κ ν),
    ((m.keys.take n).foldl (fun m k => m.delete k) m).size = m.size - n := by
  intro n
  induction n with
  | zero => exact fun m => rfl
  | succ n ih =>
    intro m
    cases he : m.entries with
    | nil =>
      unfold OrderedMap.keys OrderedMap.size
      rw [he]
      simp [he]
    | cons e l =>
      have hdelete : (m.delete e.1).entries = l :=
        OrderedMap.delete_entries_of_split (by rw [he]; rfl : m.entries = [] ++ e :: l)
      have hkeys : m.keys.take (n + 1) = e.1 :: (m.delete e.1).keys.take n := by
        unfold OrderedMap.keys
        rw [hdelete, he]
        rfl
      have hsize : m.size = (m.delete e.1).size + 1 := by
        unfold OrderedMap.size
        rw [hdelete, he]
        rfl
      rw [hkeys, List.foldl_cons, ih, hsize]
      omega

/-- After a sweep, few completed messages are remembered. -/
theorem size_done_sweep (r : Reassembler) (now : ℤ) : (r.sweep now).done.size ≤ 4096 := by
  unfold Reassembler.sweep
  simp only
  rw [size_delete_first]
  omega

/-! ## Shedding -/

theorem evictOldest_snd : r.evictOldest.2 = true ↔ r.pending ≠ [] := by
  unfold evictOldest
  cases ho : oldest r.pending with
  | none =>
    have hnil : r.pending = [] := oldest_eq_none.mp ho
    simp [hnil]
  | some e =>
    have hne : r.pending ≠ [] := fun hnil => by
      rw [oldest_eq_none.mpr hnil] at ho
      exact absurd ho (by simp)
    simp [hne]

/-- A turn of the loop takes one partial away. -/
theorem length_evictOldest (h : r.pending ≠ []) :
    r.pending.length = r.evictOldest.1.pending.length + 1 := by
  cases ho : oldest r.pending with
  | none => exact absurd (oldest_eq_none.mp ho) h
  | some e =>
    obtain ⟨p, hp⟩ := oldest_mem ho
    have hheld : r.partial? e.1 e.2 = some p := mem_pending.mp hp
    have hevict : r.evictOldest.1 = r.drop e.1 e.2 p := by
      unfold evictOldest
      rw [ho]
      show r.forget e.1 e.2 = _
      unfold forget
      rw [hheld]
    rw [hevict, length_pending, length_pending]
    exact sumOver_drop (fun _ => 1) hheld p

/-- **The loop ends.** As many turns as there are partials reach a state with no further turn, and
more fuel changes nothing. -/
theorem shed_ends : ∀ (n : ℕ) (r : Reassembler), r.pending.length ≤ n →
    ¬((shed n r).maxBytes < (shed n r).bytes ∧ (shed n r).evictOldest.2 = true) ∧
      ∀ m, n ≤ m → shed m r = shed n r := by
  intro n
  induction n with
  | zero =>
    intro r hlen
    have hnil : r.pending = [] := List.eq_nil_of_length_eq_zero (by omega)
    have hstop : ¬(r.maxBytes < r.bytes ∧ r.evictOldest.2 = true) := fun h =>
      evictOldest_snd.mp h.2 hnil
    refine ⟨hstop, fun m _ => ?_⟩
    cases m with
    | zero => rfl
    | succ m =>
      show shed (m + 1) r = r
      rw [shed, if_neg hstop]
  | succ n ih =>
    intro r hlen
    by_cases hturn : r.maxBytes < r.bytes ∧ r.evictOldest.2 = true
    · have hone := length_evictOldest (evictOldest_snd.mp hturn.2)
      obtain ⟨hend, hmore⟩ := ih r.evictOldest.1 (by omega)
      rw [shed, if_pos hturn]
      refine ⟨hend, fun m hm => ?_⟩
      cases m with
      | zero => omega
      | succ m => rw [shed, if_pos hturn, hmore m (by omega)]
    · rw [shed, if_neg hturn]
      refine ⟨hturn, fun m _ => ?_⟩
      cases m with
      | zero => rfl
      | succ m => rw [shed, if_neg hturn]

/-! ## The books -/

/-- What holds at every point of a call: the counters are those of what is held. -/
structure Books (r : Reassembler) : Prop where
  tidy : r.Tidy
  capped : ∀ sender, (r.ensure sender).size ≤ max 1 r.maxPartialPerSender
  counted : ∀ sender id p, r.partial? sender id = some p → p.Counted
  exact : r.bytes = r.sumOver (·.bytes)

theorem Books.new (opts : ReassemblerOptions) : Books (Reassembler.new opts) where
  tidy := fun sender msgs h => by
    rw [show (Reassembler.new opts).bySender = ∅ from rfl, OrderedMap.get?_empty] at h
    exact absurd h (by simp)
  capped := fun _ => Nat.zero_le _
  counted := fun sender id p h => absurd h (by simp [Reassembler.partial?, Reassembler.new])
  exact := rfl

theorem Books.drop (h : r.Books) (hheld : r.partial? sender id = some p) :
    (r.drop sender id p).Books where
  tidy := h.tidy.drop
  capped := fun s => by
    rw [ensure_drop]
    split_ifs with hs
    · exact OrderedMap.size_delete_le.trans (h.capped sender)
    · exact h.capped s
  counted := fun s i q hq => by
    rw [partial?_drop] at hq
    split_ifs at hq
    exact h.counted s i q hq
  exact := by
    show r.bytes - p.bytes = (r.drop sender id p).sumOver (·.bytes)
    rw [h.exact, sumOver_drop (·.bytes) hheld p]
    omega

theorem Books.dropped (h : r.Books) (hd : Dropped r r') : r'.Books := by
  induction hd with
  | refl r => exact h
  | step hheld _ ih => exact ih (h.drop hheld)

/-- Dropping frees bytes. -/
theorem Books.bytes_le (h : r.Books) (hd : Dropped r r') : r'.bytes ≤ r.bytes := by
  induction hd with
  | refl r => exact le_refl _
  | @step r r' sender id p hheld _ ih =>
    have hrest := ih (h.drop hheld)
    have hp := (h.counted sender id p hheld).bytes_nonneg
    have hone : (r.drop sender id p).bytes = r.bytes - p.bytes := rfl
    omega

/-- The completed messages are not part of the books. -/
theorem Books.remember (h : r.Books) (done : OrderedMap String ℤ) : { r with done := done }.Books :=
  ⟨h.tidy, h.capped, h.counted, h.exact⟩

/-- Room for one more: the partial is there, or its sender may have another. -/
def Room (r : Reassembler) (sender id : String) (p : Partial) : Prop :=
  r.partial? sender id = some p ∨ (r.partial? sender id = none ∧ p.bytes = 0 ∧
    (r.ensure sender).size + 1 ≤ max 1 r.maxPartialPerSender)

theorem Books.put (h : r.Books) (hroom : r.Room sender id p) (hq : q.Counted) {grown : ℕ}
    (hgrown : q.bytes = p.bytes + grown) : (r.put sender id q grown).Books where
  tidy := h.tidy.put grown
  capped := fun s => by
    rw [ensure_put]
    split_ifs
    · rcases hroom with hheld | ⟨hnone, -, hsize⟩
      · rw [← get?_ensure] at hheld
        rw [OrderedMap.size_set, ← OrderedMap.size_of_get? hheld]
        exact h.capped sender
      · rw [← get?_ensure] at hnone
        rw [OrderedMap.size_set, OrderedMap.delete_of_none hnone]
        exact hsize
    · exact h.capped s
  counted := fun s i x hx => by
    rw [partial?_put] at hx
    split_ifs at hx
    · exact Option.some.inj hx ▸ hq
    · exact h.counted s i x hx
  exact := by
    show r.bytes + grown = (r.put sender id q grown).sumOver (·.bytes)
    rcases hroom with hheld | ⟨hnone, hzero, -⟩
    · rw [sumOver_put (·.bytes) grown p, h.exact, sumOver_drop (·.bytes) hheld p, hgrown]
      omega
    · rw [sumOver_put_of_new (·.bytes) hnone grown, h.exact, hgrown, hzero]
      omega

/-- Nothing held, no byte counted. -/
theorem Books.bytes_of_empty (h : r.Books) (hnil : r.pending = []) : r.bytes = 0 := by
  rw [h.exact, ← sum_pending, hnil]
  rfl

/-- The loop ends under the cap. -/
theorem Books.bytes_shed (h : r.Books) :
    (shed r.pending.length r).bytes ≤ max 0 r.maxBytes := by
  have hopts := (dropped_shed r.pending.length r).opts
  have hbooks := h.dropped (dropped_shed r.pending.length r)
  have hend := (shed_ends _ r (le_refl _)).1
  generalize shed r.pending.length r = r' at hopts hbooks hend ⊢
  have hmax : r'.maxBytes = r.maxBytes := congrArg ReassemblerOptions.maxBytes hopts
  by_cases hover : r'.maxBytes < r'.bytes
  · have hnil : r'.pending = [] := by
      by_contra hne
      exact hend ⟨hover, evictOldest_snd.mpr hne⟩
    have hzero := hbooks.bytes_of_empty hnil
    omega
  · omega

/-! ## Opening a partial -/

/-- The cap of a sender leaves room for one more. -/
theorem Books.evictOldestOf (h : r.Books)
    (hfull : r.maxPartialPerSender ≤ (r.ensure sender).size) :
    ((r.evictOldestOf sender).ensure sender).size + 1 ≤ max 1 r.maxPartialPerSender := by
  have hcap := h.capped sender
  unfold Reassembler.evictOldestOf
  cases ho : oldest (r.ensure sender).entries with
  | none =>
    have hnil : (r.ensure sender).size = 0 := by
      unfold OrderedMap.size
      rw [oldest_eq_none.mp ho]
      rfl
    show (r.ensure sender).size + 1 ≤ _
    omega
  | some id =>
    obtain ⟨p, hp⟩ := oldest_mem ho
    have hget : (r.ensure sender).get? id = some p := (OrderedMap.get?_eq_some_iff _ _ _).mpr hp
    have hheld : r.partial? sender id = some p := by rw [← get?_ensure, hget]
    have hone := OrderedMap.size_of_get? hget
    show ((r.forget sender id).ensure sender).size + 1 ≤ _
    unfold forget
    rw [hheld]
    show ((r.drop sender id p).ensure sender).size + 1 ≤ _
    rw [ensure_drop, if_pos rfl]
    omega

/-- The partial a chunk is put into, after some others made way for it. -/
structure Opened (r r' : Reassembler) (sender id : String) (total : ℕ) (p : Partial) : Prop where
  dropped : Dropped r r'
  room : r'.Room sender id p
  counted : p.Counted
  total_eq : p.total = total

theorem Books.opened (h : r.Books) (sender id : String) (total : ℕ) (now : ℤ) :
    Opened r ((r.reshaped sender id total).opened sender id total now).1 sender id total
      ((r.reshaped sender id total).opened sender id total now).2 := by
  have hdropped : Dropped r (r.reshaped sender id total) := dropped_reshaped total
  have hshape : ∀ p, (r.reshaped sender id total).partial? sender id = some p → p.total = total := by
    intro p hp
    unfold Reassembler.reshaped at hp
    cases hq : r.partial? sender id with
    | none =>
      rw [hq] at hp
      exact absurd (hq.symm.trans hp) (by simp)
    | some q =>
      rw [hq] at hp
      simp only at hp
      split_ifs at hp with hne
      · rw [partial?_forget_self] at hp
        exact absurd hp (by simp)
      · rw [hq, Option.some.injEq] at hp
        rw [← hp]
        exact not_not.mp hne
  have hbooks := h.dropped hdropped
  generalize r.reshaped sender id total = r₁ at hdropped hshape hbooks ⊢
  unfold Reassembler.opened
  cases hp : r₁.partial? sender id with
  | some p => exact ⟨hdropped, Or.inl hp, hbooks.counted sender id p hp, hshape p hp⟩
  | none =>
    simp only
    split_ifs with hfull
    · have hevict : Dropped r₁ (r₁.evictOldestOf sender) := dropped_evictOldestOf
      have hmax : (r₁.evictOldestOf sender).maxPartialPerSender = r₁.maxPartialPerSender :=
        congrArg ReassemblerOptions.maxPartialPerSender hevict.opts
      have hgone : (r₁.evictOldestOf sender).partial? sender id = none := by
        cases hq : (r₁.evictOldestOf sender).partial? sender id with
        | none => rfl
        | some q => rw [← hp, hevict.partial? hq]
      refine ⟨hdropped.trans hevict, Or.inr ⟨hgone, rfl, ?_⟩, Partial.Counted.new total now, rfl⟩
      rw [hmax]
      exact hbooks.evictOldestOf hfull
    · refine ⟨hdropped, Or.inr ⟨hp, rfl, ?_⟩, Partial.Counted.new total now, rfl⟩
      omega

/-! ## One call -/

/-- What holds between calls: the books, with no message whole and still held. -/
structure Settled (r : Reassembler) : Prop extends Books r where
  waiting : ∀ sender id p, r.partial? sender id = some p → p.have < p.total
  bounded : r.bytes ≤ max 0 r.maxBytes

theorem Settled.new (opts : ReassemblerOptions) : Settled (Reassembler.new opts) where
  toBooks := Books.new opts
  waiting := fun sender id p h => absurd h (by simp [Reassembler.partial?, Reassembler.new])
  bounded := le_max_left _ _

theorem Settled.dropped (h : r.Settled) (hd : Dropped r r') : r'.Settled where
  toBooks := h.toBooks.dropped hd
  waiting := fun s i p hp => h.waiting s i p (hd.partial? hp)
  bounded := by
    rw [congrArg ReassemblerOptions.maxBytes hd.opts]
    exact (h.toBooks.bytes_le hd).trans h.bounded

theorem Settled.remember (h : r.Settled) (done : OrderedMap String ℤ) :
    { r with done := done }.Settled :=
  ⟨h.toBooks.remember done, h.waiting, h.bounded⟩

theorem Settled.sweep (h : r.Settled) (now : ℤ) : (r.sweep now).Settled := by
  obtain ⟨quiet, done, hdropped, heq⟩ := h.tidy.sweep now
  rw [heq]
  exact (h.dropped hdropped).remember done

/-- Only the message the chunk belongs to may be whole, and then it is given out. -/
theorem Books.complete (h : r.Books) (hbounded : r.bytes ≤ max 0 r.maxBytes) (hp : p.Counted)
    (hself : ∀ x, r.partial? sender id = some x → x = p)
    (hothers : ∀ s i x, r.partial? s i = some x → ¬(sender = s ∧ id = i) → x.have < x.total)
    (now : ℤ) : (r.complete sender id p now).1.Settled := by
  unfold Reassembler.complete
  split_ifs with hgone hwhole
  · refine ⟨h, fun s i x hx => hothers s i x hx ?_, hbounded⟩
    rintro ⟨rfl, rfl⟩
    rw [hx] at hgone
    exact absurd hgone (by simp)
  · refine ⟨h, fun s i x hx => ?_, hbounded⟩
    by_cases hsame : sender = s ∧ id = i
    · obtain ⟨rfl, rfl⟩ := hsame
      rw [hself x hx]
      exact lt_of_le_of_ne hp.have_le hwhole
    · exact hothers s i x hx hsame
  · have hforget : Dropped r (r.forget sender id) := dropped_forget
    refine Settled.remember ⟨h.dropped hforget, fun s i x hx => ?_, ?_⟩ _
    · rw [partial?_forget] at hx
      split_ifs at hx with hsame
      exact hothers s i x hx hsame
    · rw [congrArg ReassemblerOptions.maxBytes hforget.opts]
      exact (h.bytes_le hforget).trans hbounded

/-- A well-formed chunk of a message not completed yet. -/
theorem Settled.receive (h : r.Settled) (index total : ℕ) (part : List Char) (now : ℤ) :
    (r.receive sender id index total part now).1.Settled := by
  have hopened := h.toBooks.opened sender id total now
  unfold Reassembler.receive
  generalize (r.reshaped sender id total).opened sender id total now = o at hopened ⊢
  obtain ⟨r₁, p⟩ := o
  simp only at hopened ⊢
  have hput : (r₁.put sender id (p.fill index part now)
      (if p.lacks index then utf16Length part else 0)).Books :=
    (h.toBooks.dropped hopened.dropped).put hopened.room hopened.counted.fill Partial.fill_bytes
  have hkept : ∀ s i x, (r₁.put sender id (p.fill index part now)
      (if p.lacks index then utf16Length part else 0)).partial? s i = some x →
        (sender = s ∧ id = i ∧ x = p.fill index part now) ∨
          (¬(sender = s ∧ id = i) ∧ x.have < x.total) := by
    intro s i x hx
    rw [partial?_put] at hx
    split_ifs at hx with hsame
    · exact Or.inl ⟨hsame.1, hsame.2, (Option.some.inj hx).symm⟩
    · exact Or.inr ⟨hsame, h.waiting s i x (hopened.dropped.partial? hx)⟩
  generalize r₁.put sender id (p.fill index part now)
    (if p.lacks index then utf16Length part else 0) = r₂ at hput hkept ⊢
  have hshed : Dropped r₂ (shed r₂.pending.length r₂) := dropped_shed _ r₂
  refine (hput.dropped hshed).complete ?_ hopened.counted.fill (fun x hx => ?_) (fun s i x hx hne => ?_) now
  · rw [congrArg ReassemblerOptions.maxBytes hshed.opts]
    exact hput.bytes_shed
  · rcases hkept sender id x (hshed.partial? hx) with ⟨-, -, heq⟩ | ⟨hne, -⟩
    · exact heq
    · exact absurd ⟨rfl, rfl⟩ hne
  · rcases hkept s i x (hshed.partial? hx) with ⟨hs, hi, -⟩ | ⟨-, hlt⟩
    · exact absurd ⟨hs, hi⟩ hne
    · exact hlt

/-- What a chunk can do: it is refused, or the reassembler is swept, and the chunk received unless
its message is completed. -/
theorem accept_cases (r : Reassembler) (sender id : String) (index total : Option ℤ)
    (part : List Char) (now : ℤ) :
    (r.accept sender id index total part now).1 = r ∨
      ((r.sweep now).done.has s!"{sender}|{id}" = true ∧
        (r.accept sender id index total part now).1 = r.sweep now) ∨
      ∃ i n : ℕ, index = some (i : ℤ) ∧ total = some (n : ℤ) ∧ i < n ∧
        (r.sweep now).done.has s!"{sender}|{id}" = false ∧
        (r.accept sender id index total part now).1
          = ((r.sweep now).receive sender id i n part now).1 := by
  unfold accept
  split
  · rename_i index total
    split_ifs with htotal hindex hpart
    · exact Or.inl rfl
    · exact Or.inl rfl
    · exact Or.inl rfl
    · right
      cases hdone : (r.sweep now).done.has s!"{sender}|{id}" with
      | true =>
        left
        simp only [hdone]
        exact ⟨trivial, rfl⟩
      | false =>
        right
        refine ⟨index.toNat, total.toNat, ?_, ?_, by omega, rfl, ?_⟩
        · rw [Int.toNat_of_nonneg (by omega)]
        · rw [Int.toNat_of_nonneg (by omega)]
        · simp only [hdone]
          rfl
  · exact Or.inl rfl

/-- A call of the reassembler; the part is `none` where it is no string. -/
inductive Call where
  | accept (sender id : String) (index total : Option ℤ) (part : Option (List Char)) (now : ℤ)
  | sweep (now : ℤ)

/-- The reassembler after a call. A part that is no string is refused before anything is done. -/
def call (r : Reassembler) : Call → Reassembler
  | .accept sender id index total (some part) now => (r.accept sender id index total part now).1
  | .accept _ _ _ _ none _ => r
  | .sweep now => r.sweep now

/-- **Step.** A call keeps the books. -/
theorem Settled.call (h : r.Settled) (c : Call) : (r.call c).Settled := by
  cases c with
  | sweep now => exact h.sweep now
  | accept sender id index total part now =>
    cases part with
    | none => exact h
    | some part =>
      show (r.accept sender id index total part now).1.Settled
      rcases accept_cases r sender id index total part now with heq | ⟨-, heq⟩ | ⟨i, n, -, -, -, -, heq⟩
      · rw [heq]
        exact h
      · rw [heq]
        exact h.sweep now
      · rw [heq]
        exact (h.sweep now).receive i n part now

/-! ## Every run -/

theorem Tidy.sweep_opts (h : r.Tidy) (now : ℤ) :
    (r.sweep now).toReassemblerOptions = r.toReassemblerOptions := by
  obtain ⟨quiet, done, hdropped, heq⟩ := h.sweep now
  rw [heq]
  exact hdropped.opts

theorem complete_opts (p : Partial) (now : ℤ) :
    (r.complete sender id p now).1.toReassemblerOptions = r.toReassemblerOptions := by
  have hforget : Dropped r (r.forget sender id) := dropped_forget
  unfold complete
  split_ifs
  · rfl
  · rfl
  · exact hforget.opts

theorem Books.receive_opts (h : r.Books) (index total : ℕ) (part : List Char) (now : ℤ) :
    (r.receive sender id index total part now).1.toReassemblerOptions = r.toReassemblerOptions := by
  have hopened := h.opened sender id total now
  unfold receive
  generalize (r.reshaped sender id total).opened sender id total now = o at hopened ⊢
  simp only
  rw [complete_opts, (dropped_shed _ _).opts]
  exact hopened.dropped.opts

/-- Calls leave the options alone. -/
theorem Settled.call_opts (h : r.Settled) (c : Call) :
    (r.call c).toReassemblerOptions = r.toReassemblerOptions := by
  cases c with
  | sweep now => exact h.tidy.sweep_opts now
  | accept sender id index total part now =>
    cases part with
    | none => rfl
    | some part =>
      show (r.accept sender id index total part now).1.toReassemblerOptions = _
      have hsweep := h.tidy.sweep_opts now
      rcases accept_cases r sender id index total part now with heq | ⟨-, heq⟩ | ⟨i, n, -, -, -, -, heq⟩
      · rw [heq]
      · rw [heq, hsweep]
      · rw [heq, (h.sweep now).receive_opts, hsweep]

/-- What a caller can see of a reassembler that keeps its books. -/
structure Exact (r : Reassembler) : Prop where
  /-- The byte counter is the sum of the lengths of all buffered parts. -/
  bytes_eq : r.bytes = (r.pending.map (fun e => (e.2.heldBytes : ℤ))).sum
  bytes_le : r.bytes ≤ r.maxBytes
  size_le : ∀ sender msgs, r.bySender.get? sender = some msgs →
    msgs.size ≠ 0 ∧ msgs.size ≤ r.maxPartialPerSender
  counted : ∀ e ∈ r.pending, e.2.Counted
  waiting : ∀ e ∈ r.pending, e.2.have < e.2.total

theorem Settled.outside (h : r.Settled) (hsender : 1 ≤ r.maxPartialPerSender) (hbytes : 0 ≤ r.maxBytes) :
    r.Exact where
  bytes_eq := by
    rw [h.exact, ← sum_pending]
    refine congrArg List.sum (List.map_congr_left fun e he => ?_)
    exact (h.counted e.1.1 e.1.2 e.2 (mem_pending.mp he)).bytes_eq
  bytes_le := by
    have hle := h.bounded
    omega
  size_le := fun sender msgs hmsgs => by
    have hcap := h.capped sender
    unfold ensure at hcap
    rw [hmsgs, Option.getD_some] at hcap
    exact ⟨h.tidy sender msgs hmsgs, by omega⟩
  counted := fun e he => h.counted e.1.1 e.1.2 e.2 (mem_pending.mp he)
  waiting := fun e he => h.waiting e.1.1 e.1.2 e.2 (mem_pending.mp he)

/-- **The bookkeeping is exact and bounded.** After any calls the counters are those of what is
held, within the caps; and the loops of a call end, whatever they start from. -/
theorem bookkeeping_exact (opts : ReassemblerOptions) (hsender : 1 ≤ opts.maxPartialPerSender)
    (hbytes : 0 ≤ opts.maxBytes) (calls : List Call) :
    (run call (Reassembler.new opts) calls).toReassemblerOptions = opts ∧
      (run call (Reassembler.new opts) calls).Exact ∧
      (∀ r : Reassembler,
        ¬((shed r.pending.length r).maxBytes < (shed r.pending.length r).bytes ∧
            (shed r.pending.length r).evictOldest.2 = true) ∧
          ∀ n, r.pending.length ≤ n → shed n r = shed r.pending.length r) ∧
      ∀ (r : Reassembler) (now : ℤ), (r.sweep now).done.size ≤ 4096 := by
  have hinv : (run call (Reassembler.new opts) calls).Settled ∧
      (run call (Reassembler.new opts) calls).toReassemblerOptions = opts :=
    inv_run (fun r : Reassembler => r.Settled ∧ r.toReassemblerOptions = opts)
      (fun r c h => ⟨h.1.call c, (h.1.call_opts c).trans h.2⟩) ⟨Settled.new opts, rfl⟩ calls
  obtain ⟨hsettled, hopts⟩ := hinv
  refine ⟨hopts, hsettled.outside ?_ ?_, fun r => shed_ends _ r (le_refl _), size_done_sweep⟩
  · rw [congrArg ReassemblerOptions.maxPartialPerSender hopts]
    exact hsender
  · rw [congrArg ReassemblerOptions.maxBytes hopts]
    exact hbytes

/-- The theorem at an echo, a message that changes its part count, and a sweep. -/
theorem bookkeeping_exact_reshaped : (run call (Reassembler.new {})
    [.accept "s" "m" (some 0) (some 3) (some ['a', 'b']) 1,
      .accept "s" "m" (some 0) (some 3) (some ['a', 'b']) 2,
      .accept "s" "m" (some 1) (some 2) (some ['c']) 3, .sweep 70000]).Exact :=
  (bookkeeping_exact {} (by decide) (by decide) _).2.1

end Reassembler

end Gavl
