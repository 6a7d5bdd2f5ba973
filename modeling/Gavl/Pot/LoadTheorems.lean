import Gavl.Lib.MapTotals
import Gavl.Pot.Workers

/-!
# The load of a worker

What a worker is thought to have in hand is what was sent to it and is still pending, and the worker a
job goes to has no more in hand than any other.
-/

namespace Gavl

/-! ## Loads -/

namespace VdfPool

variable {p q : VdfPool}

/-- The pending jobs that were sent to a worker. -/
def inHand (pending : OrderedMap ℕ ℕ) (i : ℕ) : ℕ :=
  pending.total (fun _ widx => if widx = i then 1 else 0)

/-- What is known of the workers is what is pending. -/
structure Counted (p : VdfPool) : Prop where
  count : ∀ i, p.load i = inHand p.pending i
  /-- A worker that is not there has nothing in hand. -/
  gone : ∀ i, p.workers i = none → p.load i = 0
  /-- A thread holds the event loop open while it has something in hand. -/
  busy : ∀ i t, p.workers i = some t → (t.ref = true ↔ 0 < p.load i)

theorem counted_new (n : ℕ) : Counted (VdfPool.new n) :=
  ⟨fun _ => rfl, fun _ _ => rfl, fun _ _ h => by cases h⟩

/-- A pool with threads added to it. -/
structure Spawned (p q : VdfPool) : Prop where
  poolSize : q.poolSize = p.poolSize
  load : q.load = p.load
  pending : q.pending = p.pending
  seq : q.seq = p.seq
  workers : ∀ i, q.workers i = p.workers i ∨ p.workers i = none ∧ q.workers i = some ⟨false, []⟩

theorem Spawned.refl (p : VdfPool) : Spawned p p := ⟨rfl, rfl, rfl, rfl, fun _ => Or.inl rfl⟩

theorem Spawned.thread (h : Spawned p q) {i : ℕ} {t : VdfThread} (ht : p.workers i = some t) :
    q.workers i = some t := by
  obtain hsame | ⟨hnone, -⟩ := h.workers i
  · rw [hsame, ht]
  · rw [hnone] at ht
    cases ht

theorem Spawned.inbox (h : Spawned p q) {i : ℕ} {t : VdfThread} (ht : q.workers i = some t)
    {msg : VdfRequest} (hmsg : msg ∈ t.inbox) : p.workers i = some t := by
  obtain hsame | ⟨-, hnew⟩ := h.workers i
  · rw [← hsame, ht]
  · obtain rfl := Option.some.inj (hnew.symm.trans ht)
    cases hmsg

theorem Spawned.counted (h : Spawned p q) (hp : Counted p) : Counted q where
  count i := by rw [h.load, h.pending, hp.count]
  gone i hnone := by
    rw [h.load]
    obtain hsame | ⟨-, hnew⟩ := h.workers i
    · exact hp.gone i (hsame ▸ hnone)
    · rw [hnew] at hnone
      cases hnone
  busy i t ht := by
    rw [h.load]
    obtain hsame | ⟨hnone, hnew⟩ := h.workers i
    · exact hp.busy i t (hsame ▸ ht)
    · obtain rfl := Option.some.inj (hnew.symm.trans ht)
      simp [hp.gone i hnone]

/-- One turn of the loop. -/
theorem Spawned.look (h : Spawned p q) (hp : Counted p) (best i : ℕ) :
    Spawned p (look (q, best) i).1 := by
  unfold VdfPool.look
  cases hi : q.workers i with
  | some t => simpa [hi] using h
  | none =>
    have hnone : p.workers i = none := by
      obtain hsame | ⟨-, hnew⟩ := h.workers i
      · rw [← hsame, hi]
      · rw [hi] at hnew
        cases hnew
    simp only [Option.isNone_none, if_true]
    refine ⟨h.poolSize, ?_, h.pending, h.seq, fun j => ?_⟩
    · funext j
      show Function.update q.load i 0 j = p.load j
      by_cases hj : j = i
      · rw [hj, Function.update_self, hp.gone i hnone]
      · rw [Function.update_of_ne hj, h.load]
    · show Function.update q.workers i (some ⟨false, []⟩) j = p.workers j ∨ _
      by_cases hj : j = i
      · subst hj
        exact Or.inr ⟨hnone, Function.update_self _ _ _⟩
      · rw [Function.update_of_ne hj]
        exact (h.workers j).imp_right fun hnew => ⟨hnew.1, by
          show Function.update q.workers i _ j = _
          rw [Function.update_of_ne hj, hnew.2]⟩

/-- What the loop has found once it has looked at some workers. -/
structure Found (p : VdfPool) (looked : List ℕ) (s : VdfPool × ℕ) : Prop where
  spawned : Spawned p s.1
  there : ∀ i ∈ looked, (s.1.workers i).isSome = true
  least : ∀ i ∈ looked, p.load s.2 ≤ p.load i

theorem Found.look {looked : List ℕ} {s : VdfPool × ℕ} (h : Found p looked s) (hp : Counted p)
    (i : ℕ) : Found p (looked ++ [i]) (look s i) := by
  obtain ⟨q, best⟩ := s
  have hspawned := h.spawned.look hp best i
  have hbest : (VdfPool.look (q, best) i).2 = if p.load i < p.load best then i else best := by
    show (if (VdfPool.look (q, best) i).1.load i < (VdfPool.look (q, best) i).1.load best then _
      else _) = _
    rw [hspawned.load]
  refine ⟨hspawned, fun j hj => ?_, fun j hj => ?_⟩
  · obtain hj | rfl := List.mem_append.mp hj |>.imp_right List.mem_singleton.mp
    · have hold := h.there j hj
      unfold VdfPool.look
      split_ifs with hnone
      · show (Function.update q.workers i _ j).isSome = true
        by_cases hji : j = i
        · rw [hji, Function.update_self]
          rfl
        · rw [Function.update_of_ne hji]
          exact hold
      · exact hold
    · unfold VdfPool.look
      split_ifs with hnone
      · show (Function.update q.workers j _ j).isSome = true
        rw [Function.update_self]
        rfl
      · exact Option.isSome_iff_ne_none.mpr fun heq => hnone (by rw [heq]; rfl)
  · rw [hbest]
    obtain hj | rfl := List.mem_append.mp hj |>.imp_right List.mem_singleton.mp
    · have hold := h.least j hj
      have hold : p.load best ≤ p.load j := hold
      split_ifs with hless <;> omega
    · split_ifs with hless <;> omega

theorem foldl_look {looked l : List ℕ} {s : VdfPool × ℕ} (h : Found p looked s) (hp : Counted p) :
    Found p (looked ++ l) (l.foldl look s) := by
  induction l generalizing looked s with
  | nil => simpa using h
  | cons i l ih =>
    rw [List.foldl_cons, ← List.singleton_append, ← List.append_assoc]
    exact ih (h.look hp i)

/-- The best worker is the first, or one that was looked at. -/
theorem foldl_look_mem {l : List ℕ} {s : VdfPool × ℕ} :
    (l.foldl look s).2 = s.2 ∨ (l.foldl look s).2 ∈ l := by
  induction l generalizing s with
  | nil => exact Or.inl rfl
  | cons i l ih =>
    rw [List.foldl_cons]
    obtain hsame | hmem := ih (s := look s i)
    · rw [hsame]
      have hlook : (look s i).2 = i ∨ (look s i).2 = s.2 := ite_eq_or_eq _ _ _
      exact hlook.symm.imp_right fun hi => by
        rw [hi]
        exact List.mem_cons_self
    · exact Or.inr (List.mem_cons_of_mem i hmem)

/-- The worker a job goes to is there, and has no more in hand than any other. -/
theorem leastLoaded_spec (hp : Counted p) (hpos : 0 < p.poolSize) :
    Spawned p p.leastLoaded.1 ∧ (p.leastLoaded.1.workers p.leastLoaded.2).isSome = true ∧
      p.leastLoaded.2 < p.poolSize ∧ ∀ i < p.poolSize, p.load p.leastLoaded.2 ≤ p.load i := by
  have hstart : Found p [] (p, 0) := ⟨Spawned.refl p, by simp, by simp⟩
  have hfound : Found p (List.range p.poolSize) p.leastLoaded := foldl_look hstart hp
  have hmem : p.leastLoaded.2 ∈ List.range p.poolSize := by
    obtain hfirst | hmem := foldl_look_mem (l := List.range p.poolSize) (s := (p, 0))
    · show (List.foldl look (p, 0) (List.range p.poolSize)).2 ∈ _
      rw [hfirst]
      exact List.mem_range.mpr hpos
    · exact hmem
  exact ⟨hfound.spawned, hfound.there _ hmem, List.mem_range.mp hmem,
    fun i hi => hfound.least i (List.mem_range.mpr hi)⟩

theorem Counted.sendTo (hp : Counted p) {best : ℕ} {msg : VdfRequest}
    (hthere : (p.workers best).isSome = true) (hnew : p.pending.get? msg.id = none) :
    Counted (p.sendTo best msg) := by
  obtain ⟨t, ht⟩ := Option.isSome_iff_exists.mp hthere
  have hcount : ∀ i, inHand (p.sendTo best msg).pending i
      = inHand p.pending i + if best = i then 1 else 0 := fun i => by
    show (p.pending.set msg.id best).total _ = _
    rw [OrderedMap.total_set, OrderedMap.delete_of_none hnew]
    rfl
  have hworkers : (p.sendTo best msg).workers = Function.update p.workers best
      (some ⟨t.ref || decide (p.load best = 0), t.inbox ++ [msg]⟩) := by
    show Function.update p.workers best ((p.workers best).map _) = _
    rw [ht]
    rfl
  have hload : (p.sendTo best msg).load = Function.update p.load best (p.load best + 1) := rfl
  refine ⟨fun i => ?_, fun i hnone => ?_, fun i u hu => ?_⟩
  · rw [hcount, hload, ← hp.count]
    by_cases hi : i = best
    · rw [hi, Function.update_self, if_pos rfl]
    · rw [Function.update_of_ne hi, if_neg (Ne.symm hi)]
      rfl
  · rw [hworkers] at hnone
    by_cases hi : i = best
    · rw [hi, Function.update_self] at hnone
      cases hnone
    · rw [Function.update_of_ne hi] at hnone
      rw [hload, Function.update_of_ne hi]
      exact hp.gone i hnone
  · rw [hworkers] at hu
    rw [hload]
    by_cases hi : i = best
    · rw [hi, Function.update_self] at hu
      obtain rfl := Option.some.inj hu
      rw [hi, Function.update_self]
      have hbusy := hp.busy best t ht
      by_cases hzero : p.load best = 0
      · simp [hzero]
      · have href : t.ref = true := hbusy.mpr (Nat.pos_of_ne_zero hzero)
        simp [href]
    · rw [Function.update_of_ne hi] at hu
      rw [Function.update_of_ne hi]
      exact hp.busy i u hu

/-- A job comes to its end at the worker that has it. -/
theorem Counted.onMessage (hp : Counted p) (m : VdfReply) : Counted (p.onMessage m).1 := by
  unfold VdfPool.onMessage
  cases hm : p.pending.get? m.id with
  | none => exact hp
  | some widx =>
    have hcount : ∀ i, p.load i
        = inHand (p.pending.delete m.id) i + if widx = i then 1 else 0 := fun i => by
      rw [hp.count i]
      exact OrderedMap.total_of_get? _ hm
    have hpos : p.load widx = inHand (p.pending.delete m.id) widx + 1 := by
      rw [hcount, if_pos rfl]
    refine ⟨fun i => ?_, fun i hnone => ?_, fun i t ht => ?_⟩
    · show Function.update p.load widx (p.load widx - 1) i = inHand (p.pending.delete m.id) i
      by_cases hi : i = widx
      · rw [hi, Function.update_self, hpos, Nat.add_sub_cancel]
      · rw [Function.update_of_ne hi, hcount, if_neg (Ne.symm hi), Nat.add_zero]
    · have hgone : p.workers i = none := by
        by_contra hthere
        obtain ⟨t, ht⟩ := Option.ne_none_iff_exists'.mp hthere
        change (if _ then Function.update p.workers widx _ else p.workers) i = none at hnone
        split_ifs at hnone
        · by_cases hi : i = widx
          · subst hi
            rw [Function.update_self, ht] at hnone
            cases hnone
          · rw [Function.update_of_ne hi, ht] at hnone
            cases hnone
        · rw [ht] at hnone
          cases hnone
      have hzero := hp.gone i hgone
      have hi : i ≠ widx := fun heq => by
        rw [heq, hpos] at hzero
        omega
      show Function.update p.load widx _ i = 0
      rw [Function.update_of_ne hi, hzero]
    · show t.ref = true ↔ 0 < Function.update p.load widx (p.load widx - 1) i
      change (if _ then Function.update p.workers widx _ else p.workers) i = some t at ht
      by_cases hi : i = widx
      · subst hi
        rw [Function.update_self]
        split_ifs at ht with hidle
        · rw [Function.update_self] at ht
          obtain ⟨u, -, rfl⟩ := Option.map_eq_some_iff.mp ht
          simp [hidle]
        · have hbusy := hp.busy i t ht
          rw [hbusy]
          omega
      · rw [Function.update_of_ne hi]
        split_ifs at ht with hidle
        · rw [Function.update_of_ne hi] at ht
          exact hp.busy i t ht
        · exact hp.busy i t ht

theorem Counted.onError (hp : Counted p) (i : ℕ) (err : String) : Counted (p.onError i err).1 := by
  refine ⟨fun j => ?_, fun j hnone => ?_, fun j t ht => ?_⟩
  · show Function.update p.load i 0 j = inHand (p.pending.filter _) j
    unfold inHand
    rw [OrderedMap.total_filter]
    by_cases hj : j = i
    · rw [hj, Function.update_self]
      refine (OrderedMap.total_congr (g := fun _ _ => 0) fun e _ => ?_).trans (by
        simp [OrderedMap.total]) |>.symm
      by_cases he : e.2 = i <;> simp [he]
    · rw [Function.update_of_ne hj, hp.count]
      refine OrderedMap.total_congr fun e _ => ?_
      by_cases he : e.2 = j
      · simp [he, hj]
      · simp [he]
  · show Function.update p.load i 0 j = 0
    change Function.update p.workers i none j = none at hnone
    by_cases hj : j = i
    · rw [hj, Function.update_self]
    · rw [Function.update_of_ne hj] at hnone ⊢
      exact hp.gone j hnone
  · change Function.update p.workers i none j = some t at ht
    show t.ref = true ↔ 0 < Function.update p.load i 0 j
    by_cases hj : j = i
    · rw [hj, Function.update_self] at ht
      cases ht
    · rw [Function.update_of_ne hj] at ht ⊢
      exact hp.busy j t ht

theorem counted_close : Counted p.close.1 := ⟨fun _ => rfl, fun _ _ => rfl, fun _ _ h => by cases h⟩

/-- A message leaves the inboxes as they are. -/
theorem onMessage_inbox (m : VdfReply) (i : ℕ) :
    (∀ t, p.workers i = some t → ∃ t', (p.onMessage m).1.workers i = some t' ∧ t'.inbox = t.inbox) ∧
      ∀ t, (p.onMessage m).1.workers i = some t → ∃ t', p.workers i = some t' ∧ t'.inbox = t.inbox := by
  have hsame : ((p.onMessage m).1.workers i).map VdfThread.inbox
      = (p.workers i).map VdfThread.inbox := by
    unfold onMessage
    cases p.pending.get? m.id with
    | none => rfl
    | some widx =>
      show ((if _ then Function.update p.workers widx _ else p.workers) i).map _ = _
      split_ifs
      · by_cases hi : i = widx
        · rw [hi, Function.update_self, Option.map_map]
          rfl
        · rw [Function.update_of_ne hi]
      · rfl
  constructor
  · intro t ht
    rw [ht] at hsame
    exact Option.map_eq_some_iff.mp hsame
  · intro t ht
    rw [ht] at hsame
    exact Option.map_eq_some_iff.mp hsame.symm

end VdfPool

end Gavl
