import Gavl.Pot.LoadTheorems

/-!
# The pool answers as the inline delay function

Whatever order the threads answer in and whichever of them die, a call is answered once at most, and
with the inline answer unless its job failed. While nothing fails, every call can be answered.
-/

namespace Gavl

open Runs

/-! ## Calls -/

namespace VdfCall

variable {C : Crypto} {c : VdfCall} {id : ℕ}

@[simp] theorem request_id (c : VdfCall) (id : ℕ) : (c.request id).id = id := by
  cases c <;> rfl

theorem dispatch_eq (c : VdfCall) (p : VdfPool) :
    c.dispatch p = p.leastLoaded.1.sendTo p.leastLoaded.2 (c.request (p.seq + 1)) := by
  cases c <;> rfl

/-- What dispatching a call changes. -/
structure Dispatched (p q : VdfPool) (msg : VdfRequest) (best : ℕ) : Prop where
  poolSize : q.poolSize = p.poolSize
  counted : q.Counted
  seq : q.seq = p.seq + 1
  pending : q.pending = p.pending.set (p.seq + 1) best
  posted : ∃ t, q.workers best = some t ∧ msg ∈ t.inbox
  least : best < p.poolSize ∧ ∀ i < p.poolSize, p.load best ≤ p.load i
  kept : ∀ i t, p.workers i = some t → ∃ t', q.workers i = some t' ∧ t.inbox ⊆ t'.inbox
  inbox : ∀ i t, q.workers i = some t → ∀ msg' ∈ t.inbox,
    msg' = msg ∨ ∃ t', p.workers i = some t' ∧ msg' ∈ t'.inbox

theorem dispatched (c : VdfCall) {p : VdfPool} (hp : p.Counted) (hpos : 0 < p.poolSize)
    (hnew : p.pending.get? (p.seq + 1) = none) :
    ∃ best, Dispatched p (c.dispatch p) (c.request (p.seq + 1)) best := by
  obtain ⟨hspawned, hthere, hleast⟩ := VdfPool.leastLoaded_spec hp hpos
  rw [dispatch_eq]
  generalize p.leastLoaded.1 = q at hspawned hthere ⊢
  generalize p.leastLoaded.2 = best at hthere hleast ⊢
  obtain ⟨t, ht⟩ := Option.isSome_iff_exists.mp hthere
  have hworkers : (q.sendTo best (c.request (p.seq + 1))).workers = Function.update q.workers best
      (some ⟨t.ref || decide (q.load best = 0), t.inbox ++ [c.request (p.seq + 1)]⟩) := by
    show Function.update q.workers best ((q.workers best).map _) = _
    rw [ht]
    rfl
  refine ⟨best, hspawned.poolSize, (hspawned.counted hp).sendTo hthere ?_, ?_, ?_, ?_, hleast,
    fun i u hu => ?_, fun i u hu msg' hmsg' => ?_⟩
  · rw [request_id, hspawned.pending]
    exact hnew
  · exact request_id c _
  · show q.pending.set (c.request (p.seq + 1)).id best = _
    rw [request_id, hspawned.pending]
  · rw [hworkers, Function.update_self]
    exact ⟨_, rfl, List.mem_append_right _ (List.mem_singleton.mpr rfl)⟩
  · have hu' := hspawned.thread hu
    rw [hworkers]
    by_cases hi : i = best
    · subst hi
      obtain rfl := Option.some.inj (ht.symm.trans hu')
      rw [Function.update_self]
      exact ⟨_, rfl, List.subset_append_left _ _⟩
    · rw [Function.update_of_ne hi]
      exact ⟨u, hu', List.Subset.refl _⟩
  · rw [hworkers] at hu
    by_cases hi : i = best
    · subst hi
      rw [Function.update_self] at hu
      obtain rfl := Option.some.inj hu
      obtain hmem | hmem := List.mem_append.mp hmsg'
      · exact Or.inr ⟨t, hspawned.inbox ht hmem, hmem⟩
      · exact Or.inl (List.mem_singleton.mp hmem)
    · rw [Function.update_of_ne hi] at hu
      exact Or.inr ⟨u, hspawned.inbox hu hmsg', hmsg'⟩

@[simp] theorem vdfWorker_id (msg : VdfRequest) (thrown : Option Thrown) :
    (vdfWorker C msg thrown).id = msg.id := by
  unfold vdfWorker
  split
  · rfl
  · cases msg.op <;> rfl

/-- A worker that does not throw answers as the inline delay function does. -/
theorem answer_vdfWorker (hiters : 1 ≤ c.iters) :
    c.answer (.resolved (vdfWorker C (c.request id) none)) = c.inline C := by
  cases c with
  | eval challenge iters =>
    have hsome : ¬iters < 1 := Nat.not_lt.mpr hiters
    simp [answer, inline, vdfWorker, request, HashVdf.eval, hsome, fromHex_toHex]
  | verifyAsync challenge proof =>
    have hsome : ¬proof.iters < 1 := Nat.not_lt.mpr hiters
    simp [answer, inline, vdfWorker, request, HashVdf.verify, hsome, fromHex_toHex]

end VdfCall

/-! ## The system -/

namespace VdfSystem

variable {C : Crypto} {s : VdfSystem}

/-- A request of a call that was asked under its id. -/
def Asked (s : VdfSystem) (msg : VdfRequest) : Prop :=
  ∃ c, s.asked.get? msg.id = some c ∧ msg = c.request msg.id

/-- An answer to a call that was asked under its id. -/
def Answers (C : Crypto) (s : VdfSystem) (m : VdfReply) : Prop :=
  ∃ c thrown, s.asked.get? m.id = some c ∧ m = vdfWorker C (c.request m.id) thrown

/-- How a call that was asked under an id may have ended. -/
def Ended (C : Crypto) (s : VdfSystem) (e : ℕ × Settled) : Prop :=
  ∃ c, s.asked.get? e.1 = some c ∧ ∀ m, e.2 = .resolved m → m = vdfWorker C (c.request e.1) none

/-- A job that is pending is in a worker's inbox, or its answer is on the way. -/
def InFlight (s : VdfSystem) (id widx : ℕ) : Prop :=
  ∃ t, s.pool.workers widx = some t ∧ ((∃ msg ∈ t.inbox, msg.id = id) ∨ ∃ m ∈ s.wire, m.id = id)

/-- What every step keeps. -/
structure Kept (C : Crypto) (s : VdfSystem) : Prop where
  pos : 0 < s.pool.poolSize
  counted : s.pool.Counted
  /-- Every id that was given out is pending, or settled once. -/
  ids : (s.pool.pending.keys ++ s.settled.map Prod.fst).Perm (List.range' 1 s.pool.seq)
  /-- The calls were given them. -/
  known : s.asked.keys.Perm (List.range' 1 s.pool.seq)
  flight : ∀ id widx, s.pool.pending.get? id = some widx → s.InFlight id widx
  asked : ∀ id c, s.asked.get? id = some c → id ≤ s.pool.seq ∧ 1 ≤ c.iters
  inbox : ∀ i t, s.pool.workers i = some t → ∀ msg ∈ t.inbox, s.Asked msg
  wire : ∀ m ∈ s.wire, s.Answers C m
  settled : ∀ e ∈ s.settled, s.Ended C e

theorem kept_new {n : ℕ} (hn : 0 < n) : Kept C (new n) where
  pos := hn
  counted := VdfPool.counted_new n
  ids := List.Perm.refl []
  known := List.Perm.refl []
  flight id widx h := by cases h
  asked id c h := by cases h
  inbox i t h := by cases h
  wire m h := by cases h
  settled e h := by cases h

namespace Kept

variable (h : Kept C s)
include h

/-- The next id is new. -/
theorem pending_next : s.pool.pending.get? (s.pool.seq + 1) = none := by
  by_contra hne
  obtain ⟨widx, hget⟩ := Option.ne_none_iff_exists'.mp hne
  have hmem : s.pool.seq + 1 ∈ s.pool.pending.keys :=
    (OrderedMap.mem_keys _ _).mpr ⟨widx, hget⟩
  have hrange := h.ids.subset (List.mem_append_left _ hmem)
  rw [List.mem_range'_1] at hrange
  omega

theorem asked_next : s.asked.get? (s.pool.seq + 1) = none := by
  by_contra hne
  obtain ⟨c, hget⟩ := Option.ne_none_iff_exists'.mp hne
  have hle := (h.asked _ c hget).1
  omega

end Kept

/-- What is asked stays asked. -/
theorem get?_set_asked (hnew : s.asked.get? (s.pool.seq + 1) = none) {id : ℕ} {c c' : VdfCall}
    (hget : s.asked.get? id = some c') :
    (s.asked.set (s.pool.seq + 1) c).get? id = some c' := by
  rw [OrderedMap.get?_set_of_ne, hget]
  rintro rfl
  rw [hnew] at hget
  cases hget

theorem Kept.call (h : Kept C s) (c : VdfCall) : Kept C (s.call c) := by
  unfold VdfSystem.call
  split_ifs with hiters
  · exact h
  have hasked := h.asked_next
  obtain ⟨best, hd⟩ := VdfCall.dispatched c h.counted h.pos h.pending_next
  have hkeep : ∀ id c', s.asked.get? id = some c' →
      (s.asked.set (s.pool.seq + 1) c).get? id = some c' := fun id c' hget =>
    get?_set_asked hasked hget
  refine ⟨?_, hd.counted, ?_, ?_, fun id widx hget => ?_, fun id c' hget => ?_,
    fun i t ht msg hmsg => ?_, fun m hm => ?_, fun e he => ?_⟩
  · show 0 < (c.dispatch s.pool).poolSize
    rw [hd.poolSize]
    exact h.pos
  · show ((c.dispatch s.pool).pending.keys ++ s.settled.map Prod.fst).Perm
      (List.range' 1 (c.dispatch s.pool).seq)
    rw [hd.pending, hd.seq, List.range'_concat, Nat.one_mul, Nat.add_comm 1]
    refine ((OrderedMap.keys_set_perm h.pending_next best).append_right _).trans ?_
    rw [List.append_assoc]
    refine (List.perm_append_comm.append_left _).trans ?_
    rw [← List.append_assoc]
    exact h.ids.append_right _
  · show (s.asked.set (s.pool.seq + 1) c).keys.Perm (List.range' 1 (c.dispatch s.pool).seq)
    rw [hd.seq, List.range'_concat, Nat.one_mul, Nat.add_comm 1]
    exact (OrderedMap.keys_set_perm hasked c).trans (h.known.append_right _)
  · change (c.dispatch s.pool).pending.get? id = some widx at hget
    rw [hd.pending, OrderedMap.get?_set] at hget
    split_ifs at hget with hid
    · -- the new job: its request was just posted
      obtain rfl := Option.some.inj hget
      obtain ⟨t, ht, hmem⟩ := hd.posted
      exact ⟨t, ht, Or.inl ⟨_, hmem, by rw [VdfCall.request_id, hid]⟩⟩
    · obtain ⟨t, ht, hfound⟩ := h.flight id widx hget
      obtain ⟨t', ht', hsub⟩ := hd.kept widx t ht
      refine ⟨t', ht', hfound.imp_left ?_⟩
      rintro ⟨msg, hmem, hmsg⟩
      exact ⟨msg, hsub hmem, hmsg⟩
  · show id ≤ (c.dispatch s.pool).seq ∧ _
    rw [hd.seq]
    change (s.asked.set (s.pool.seq + 1) c).get? id = some c' at hget
    rw [OrderedMap.get?_set] at hget
    split_ifs at hget with hid
    · obtain rfl := Option.some.inj hget
      omega
    · have hold := h.asked id c' hget
      omega
  · obtain rfl | ⟨t', ht', hold⟩ := hd.inbox i t ht msg hmsg
    · exact ⟨c, by rw [VdfCall.request_id]; exact OrderedMap.get?_set_self _ _ _, by
        rw [VdfCall.request_id]⟩
    · obtain ⟨c', hget, hmsg⟩ := h.inbox i t' ht' msg hold
      exact ⟨c', hkeep _ _ hget, hmsg⟩
  · obtain ⟨c', thrown, hget, heq⟩ := h.wire m hm
    exact ⟨c', thrown, hkeep _ _ hget, heq⟩
  · obtain ⟨c', hget, heq⟩ := h.settled e he
    exact ⟨c', hkeep _ _ hget, heq⟩

theorem Kept.work (h : Kept C s) (i : ℕ) (thrown : Option Thrown) : Kept C (s.work C i thrown) := by
  unfold VdfSystem.work
  split
  · rename_i ref msg inbox hi
    have hworkers : ∀ j t, Function.update s.pool.workers i (some ⟨ref, inbox⟩) j = some t →
        ∃ t', s.pool.workers j = some t' ∧ t'.ref = t.ref ∧ t.inbox ⊆ t'.inbox := by
      intro j t ht
      by_cases hj : j = i
      · subst hj
        rw [Function.update_self] at ht
        obtain rfl := Option.some.inj ht
        exact ⟨_, hi, rfl, List.subset_cons_self msg inbox⟩
      · rw [Function.update_of_ne hj] at ht
        exact ⟨t, ht, rfl, List.Subset.refl _⟩
    have hcounted : VdfPool.Counted { s.pool with
        workers := Function.update s.pool.workers i (some ⟨ref, inbox⟩) } := by
      refine ⟨h.counted.count, fun j hnone => ?_, fun j t ht => ?_⟩
      · have hne : j ≠ i := by
          rintro rfl
          change Function.update s.pool.workers j _ j = none at hnone
          rw [Function.update_self] at hnone
          cases hnone
        change Function.update s.pool.workers i _ j = none at hnone
        rw [Function.update_of_ne hne] at hnone
        exact h.counted.gone j hnone
      · obtain ⟨t', ht', href, -⟩ := hworkers j t ht
        rw [← href]
        exact h.counted.busy j t' ht'
    refine ⟨h.pos, hcounted, h.ids, h.known, fun id widx hget => ?_, h.asked,
      fun j t ht msg' hmsg' => ?_, fun m hm => ?_, h.settled⟩
    · obtain ⟨t, ht, hfound⟩ := h.flight id widx hget
      by_cases hw : widx = i
      · -- its request leaves the inbox as its answer goes on the wire
        subst hw
        obtain rfl := Option.some.inj (hi.symm.trans ht)
        refine ⟨⟨ref, inbox⟩, Function.update_self _ _ _, ?_⟩
        obtain ⟨msg', hmem, hid⟩ | ⟨m, hmem, hid⟩ := hfound
        · obtain rfl | hmem := List.mem_cons.mp hmem
          · exact Or.inr ⟨_, List.mem_append_right _ (List.mem_singleton.mpr rfl), by
              rw [VdfCall.vdfWorker_id, hid]⟩
          · exact Or.inl ⟨msg', hmem, hid⟩
        · exact Or.inr ⟨m, List.mem_append_left _ hmem, hid⟩
      · refine ⟨t, (Function.update_of_ne hw _ _).trans ht, ?_⟩
        refine hfound.imp_right ?_
        rintro ⟨m, hmem, hid⟩
        exact ⟨m, List.mem_append_left _ hmem, hid⟩
    · obtain ⟨t', ht', -, hsub⟩ := hworkers j t ht
      exact h.inbox j t' ht' msg' (hsub hmsg')
    · obtain hm | hm := List.mem_append.mp hm
      · exact h.wire m hm
      · obtain rfl := List.mem_singleton.mp hm
        obtain ⟨c, hget, heq⟩ := h.inbox i _ hi msg List.mem_cons_self
        refine ⟨c, thrown, ?_, ?_⟩
        · rw [VdfCall.vdfWorker_id]
          exact hget
        · rw [VdfCall.vdfWorker_id, ← heq]
  · exact h

/-- A pending job was asked. -/
theorem Kept.pending_asked (h : Kept C s) {id widx : ℕ} (hget : s.pool.pending.get? id = some widx) :
    ∃ c, s.asked.get? id = some c := by
  obtain ⟨t, ht, ⟨msg, hmem, rfl⟩ | ⟨m, hmem, rfl⟩⟩ := h.flight id widx hget
  · obtain ⟨c, hc, -⟩ := h.inbox widx t ht msg hmem
    exact ⟨c, hc⟩
  · obtain ⟨c, -, hc, -⟩ := h.wire m hmem
    exact ⟨c, hc⟩

theorem Kept.deliver (h : Kept C s) (m : VdfReply) : Kept C (s.deliver m) := by
  unfold VdfSystem.deliver
  split_ifs with hm
  swap
  · exact h
  have hinboxes := VdfPool.onMessage_inbox (p := s.pool) m
  have hwire : ∀ m' ∈ s.wire.erase m, m' ∈ s.wire := fun m' hm' => List.mem_of_mem_erase hm'
  -- the answer that leaves the wire is of another job
  have hflight : ∀ id widx, s.pool.pending.get? id = some widx → id ≠ m.id →
      ∃ t, (s.pool.onMessage m).1.workers widx = some t ∧
        ((∃ msg ∈ t.inbox, msg.id = id) ∨ ∃ m' ∈ s.wire.erase m, m'.id = id) := by
    intro id widx hget hne
    obtain ⟨t, ht, hfound⟩ := h.flight id widx hget
    obtain ⟨t', ht', hsame⟩ := (hinboxes widx).1 t ht
    refine ⟨t', ht', hfound.imp ?_ ?_⟩
    · rintro ⟨msg, hmem, hid⟩
      exact ⟨msg, hsame ▸ hmem, hid⟩
    · rintro ⟨m', hmem, rfl⟩
      exact ⟨m', (List.mem_erase_of_ne fun heq => hne (by rw [heq])).mpr hmem, rfl⟩
  have hinbox : ∀ i t, (s.pool.onMessage m).1.workers i = some t → ∀ msg ∈ t.inbox, s.Asked msg := by
    intro i t ht msg hmsg
    obtain ⟨t', ht', hsame⟩ := (hinboxes i).2 t ht
    exact h.inbox i t' ht' msg (hsame ▸ hmsg)
  cases hget : s.pool.pending.get? m.id with
  | none =>
    have hnone : s.pool.onMessage m = (s.pool, []) := by
      unfold VdfPool.onMessage
      rw [hget]
    rw [hnone] at hflight hinbox ⊢
    refine ⟨h.pos, h.counted, ?_, h.known, fun id widx hid => hflight id widx hid ?_, h.asked,
      hinbox, fun m' hm' => h.wire m' (hwire m' hm'), ?_⟩
    · rw [List.append_nil]
      exact h.ids
    · rintro rfl
      rw [hget] at hid
      cases hid
    · rw [List.append_nil]
      exact h.settled
  | some widx =>
    have hcounted := h.counted.onMessage m
    have hsome : (s.pool.onMessage m).1.poolSize = s.pool.poolSize ∧
        (s.pool.onMessage m).1.seq = s.pool.seq ∧
        (s.pool.onMessage m).1.pending = s.pool.pending.delete m.id ∧
        ∃ e, (s.pool.onMessage m).2 = [(m.id, e)] ∧
          ∀ m', e = .resolved m' → m' = m ∧ ∀ err, m.error = some err → err = "" := by
      unfold VdfPool.onMessage
      rw [hget]
      refine ⟨rfl, rfl, rfl, _, rfl, fun m' hm' => ?_⟩
      cases herr : m.error with
      | none =>
        rw [herr] at hm'
        exact ⟨(Settled.resolved.inj hm').symm, fun err h => by cases h⟩
      | some err =>
        rw [herr] at hm'
        simp only at hm'
        split_ifs at hm' with hempty
        refine ⟨(Settled.resolved.inj hm').symm, fun err' h => ?_⟩
        obtain rfl := Option.some.inj h
        exact not_not.mp hempty
    obtain ⟨hsize, hseq, hpending, e, hend, hresolved⟩ := hsome
    refine ⟨?_, hcounted, ?_, ?_, fun id widx' hid => ?_, ?_, hinbox,
      fun m' hm' => h.wire m' (hwire m' hm'), fun e' he' => ?_⟩
    · show 0 < (s.pool.onMessage m).1.poolSize
      rw [hsize]
      exact h.pos
    · show ((s.pool.onMessage m).1.pending.keys ++ (s.settled ++ (s.pool.onMessage m).2).map
        Prod.fst).Perm (List.range' 1 (s.pool.onMessage m).1.seq)
      rw [hpending, hseq, hend, List.map_append]
      refine (List.perm_append_comm.append_left _).trans ?_
      rw [← List.append_assoc]
      exact ((OrderedMap.keys_perm_of_get? hget).symm.append_right _).trans h.ids
    · show s.asked.keys.Perm (List.range' 1 (s.pool.onMessage m).1.seq)
      rw [hseq]
      exact h.known
    · change (s.pool.onMessage m).1.pending.get? id = some widx' at hid
      rw [hpending, OrderedMap.get?_delete] at hid
      split_ifs at hid with hne
      exact hflight id widx' hid (Ne.symm hne)
    · show ∀ id c, s.asked.get? id = some c → id ≤ (s.pool.onMessage m).1.seq ∧ _
      rw [hseq]
      exact h.asked
    · change e' ∈ s.settled ++ (s.pool.onMessage m).2 at he'
      rw [hend, List.mem_append, List.mem_singleton] at he'
      obtain he' | rfl := he'
      · exact h.settled e' he'
      · obtain ⟨c, thrown, hc, heq⟩ := h.wire m hm
        refine ⟨c, hc, fun m' hm' => ?_⟩
        obtain ⟨rfl, herr⟩ := hresolved m' hm'
        cases thrown with
        | none => exact heq
        | some err =>
          have hfalse := herr err.text (by rw [heq]; rfl)
          exact absurd hfalse err.nonempty

theorem Kept.fail (h : Kept C s) (i : ℕ) (err : String) : Kept C (s.step C (.fail i err)) := by
  have hpending : ∀ id widx, (s.pool.onError i err).1.pending.get? id = some widx →
      s.pool.pending.get? id = some widx ∧ widx ≠ i := by
    intro id widx hget
    change (s.pool.pending.filter _).get? id = some widx at hget
    rw [OrderedMap.get?_filter, Option.filter_eq_some_iff] at hget
    exact ⟨hget.1, of_decide_eq_true hget.2⟩
  refine ⟨h.pos, h.counted.onError i err, ?_, h.known, fun id widx hget => ?_, h.asked,
    fun j t ht msg hmsg => ?_, h.wire, fun e he => ?_⟩
  · show ((s.pool.pending.filter fun _ widx => decide (widx ≠ i)).keys ++ (s.settled ++
      (s.pool.onError i err).2).map Prod.fst).Perm (List.range' 1 s.pool.seq)
    have hrejected : (s.pool.onError i err).2.map Prod.fst
        = (s.pool.pending.entries.filter fun e => decide (e.2 = i)).map Prod.fst := by
      show (List.map _ (List.map _ _)) = _
      rw [List.map_map]
      rfl
    have hsplit : ((s.pool.pending.filter fun _ widx => decide (widx ≠ i)).keys ++
        (s.pool.onError i err).2.map Prod.fst).Perm s.pool.pending.keys := by
      rw [hrejected]
      show ((s.pool.pending.entries.filter _).map Prod.fst ++ _).Perm (s.pool.pending.entries.map _)
      rw [← List.map_append]
      refine List.Perm.map _ ?_
      have hnot := List.filter_append_perm (fun e : ℕ × ℕ => decide (e.2 ≠ i)) s.pool.pending.entries
      simpa using hnot
    rw [List.map_append]
    refine (List.perm_append_comm.append_left _).trans ?_
    rw [← List.append_assoc]
    exact (hsplit.append_right _).trans h.ids
  · obtain ⟨hold, hne⟩ := hpending id widx hget
    obtain ⟨t, ht, hfound⟩ := h.flight id widx hold
    exact ⟨t, (Function.update_of_ne hne _ _).trans ht, hfound⟩
  · change Function.update s.pool.workers i none j = some t at ht
    by_cases hj : j = i
    · rw [hj, Function.update_self] at ht
      cases ht
    · rw [Function.update_of_ne hj] at ht
      exact h.inbox j t ht msg hmsg
  · obtain he | he := List.mem_append.mp he
    · exact h.settled e he
    · obtain ⟨e', he', rfl⟩ := List.mem_map.mp he
      obtain ⟨c, hc⟩ := h.pending_asked
        ((OrderedMap.get?_eq_some_iff _ _ _).mpr (List.mem_of_mem_filter he'))
      exact ⟨c, hc, fun m hm => by cases hm⟩

theorem Kept.close (h : Kept C s) : Kept C (s.step C .close) := by
  refine ⟨h.pos, VdfPool.counted_close, ?_, h.known, fun id widx hget => (by cases hget), h.asked,
    fun i t ht => (by cases ht), h.wire, fun e he => ?_⟩
  · show ([] ++ (s.settled ++ s.pool.close.2).map Prod.fst).Perm (List.range' 1 s.pool.seq)
    have hrejected : s.pool.close.2.map Prod.fst = s.pool.pending.keys := by
      show List.map _ (List.map _ _) = _
      rw [List.map_map]
      rfl
    rw [List.nil_append, List.map_append, hrejected]
    exact List.perm_append_comm.trans h.ids
  · obtain he | he := List.mem_append.mp he
    · exact h.settled e he
    · obtain ⟨e', he', rfl⟩ := List.mem_map.mp he
      obtain ⟨c, hc⟩ := h.pending_asked ((OrderedMap.get?_eq_some_iff _ _ _).mpr he')
      exact ⟨c, hc, fun m hm => by cases hm⟩

theorem Kept.step (h : Kept C s) (i : VdfStep) : Kept C (s.step C i) := by
  cases i with
  | call c => exact h.call c
  | work i thrown => exact h.work i thrown
  | deliver m => exact h.deliver m
  | fail i err => exact h.fail i err
  | close => exact h.close

theorem Kept.poolSize_step (h : Kept C s) (i : VdfStep) :
    (s.step C i).pool.poolSize = s.pool.poolSize := by
  cases i with
  | call c =>
    show (s.call c).pool.poolSize = _
    unfold VdfSystem.call
    split_ifs
    · rfl
    · obtain ⟨best, hd⟩ := VdfCall.dispatched c h.counted h.pos h.pending_next
      exact hd.poolSize
  | work i thrown =>
    show (s.work C i thrown).pool.poolSize = _
    unfold VdfSystem.work
    split <;> rfl
  | deliver m =>
    show (s.deliver m).pool.poolSize = _
    unfold VdfSystem.deliver VdfPool.onMessage
    split_ifs
    · cases s.pool.pending.get? m.id <;> rfl
    · rfl
  | fail i err => rfl
  | close => rfl

theorem kept_run {n : ℕ} (hn : 0 < n) (steps : List VdfStep) :
    Kept C (run (step C) (new n) steps) ∧ (run (step C) (new n) steps).pool.poolSize = n :=
  inv_run (fun s => Kept C s ∧ s.pool.poolSize = n)
    (fun _ i h => ⟨h.1.step i, (h.1.poolSize_step i).trans h.2⟩) ⟨kept_new hn, rfl⟩ steps

/-! ## Answers -/

/-- A call is answered by the pool what the inline delay function answers, if it is not that its job
failed. A proof that the inline check refuses is never accepted. -/
theorem workers_agree {n : ℕ} (hn : 0 < n) (steps : List VdfStep) :
    ∀ e ∈ (run (step C) (new n) steps).settled, ∃ c,
      (run (step C) (new n) steps).asked.get? e.1 = some c ∧
        ((∃ m, e.2 = .resolved m) → c.answer e.2 = c.inline C) ∧
        (c.answer e.2 = .verdict true → c.inline C = .verdict true) := by
  intro e he
  have h : Kept C (run (step C) (new n) steps) := (kept_run hn steps).1
  obtain ⟨c, hc, hended⟩ := h.settled e he
  have hiters : 1 ≤ c.iters := (h.asked e.1 c hc).2
  have hagree : (∃ m, e.2 = .resolved m) → c.answer e.2 = c.inline C := by
    rintro ⟨m, hm⟩
    rw [hm, hended m hm]
    exact VdfCall.answer_vdfWorker hiters
  refine ⟨c, hc, hagree, fun haccepted => ?_⟩
  cases hend : e.2 with
  | resolved m =>
    rw [← hagree ⟨m, hend⟩]
    exact haccepted
  | rejected err =>
    rw [hend] at haccepted
    cases c <;> cases haccepted

/-- A hash that is easy to follow. -/
def sampleCrypto : Crypto := ⟨fun b => 0 :: b, fun _ _ _ => true⟩

def sampleEval : VdfCall := .eval [1] 2

def sampleVerify : VdfCall := .verifyAsync [1] ⟨3, "00000001", ""⟩

/-- Two workers get a call each. The second answers first, and dies before its answer arrives. -/
def sampleSteps : List VdfStep :=
  [.call sampleEval, .call sampleVerify, .work 1 none, .work 0 none,
    .deliver (vdfWorker sampleCrypto (sampleEval.request 1) none), .fail 1 "exited"]

theorem workers_agree_sample :
    (run (step sampleCrypto) (new 2) sampleSteps).settled =
        [(1, .resolved ⟨1, some "000001", none, none⟩), (2, .rejected "exited")] ∧
      ∀ e ∈ (run (step sampleCrypto) (new 2) sampleSteps).settled, ∃ c,
        (run (step sampleCrypto) (new 2) sampleSteps).asked.get? e.1 = some c ∧
          ((∃ m, e.2 = .resolved m) → c.answer e.2 = c.inline sampleCrypto) ∧
          (c.answer e.2 = .verdict true → c.inline sampleCrypto = .verdict true) :=
  ⟨by decide, workers_agree (by decide) sampleSteps⟩

/-- Every dispatched call is pending or settled, never both and never settled twice; and while it is
pending a live worker has it, or has answered it. -/
theorem jobs_settled_once {n : ℕ} (hn : 0 < n) (steps : List VdfStep) :
    ((run (step C) (new n) steps).pool.pending.keys ++
        (run (step C) (new n) steps).settled.map Prod.fst).Perm
      (run (step C) (new n) steps).asked.keys ∧
    ∀ id widx, (run (step C) (new n) steps).pool.pending.get? id = some widx →
      (run (step C) (new n) steps).InFlight id widx := by
  have h : Kept C (run (step C) (new n) steps) := (kept_run hn steps).1
  exact ⟨h.ids.trans h.known.symm, h.flight⟩

theorem jobs_settled_once_sample :
    ((run (step sampleCrypto) (new 2) sampleSteps).pool.pending.keys ++
        (run (step sampleCrypto) (new 2) sampleSteps).settled.map Prod.fst).Perm
      (run (step sampleCrypto) (new 2) sampleSteps).asked.keys :=
  (jobs_settled_once (by decide) sampleSteps).1

/-! ## Runs at which nothing goes wrong -/

/-- A thread handles a message and does not throw, or an answer arrives. -/
def Handles : VdfStep → Prop
  | .work _ thrown => thrown = none
  | .deliver _ => True
  | _ => False

/-- No thread throws or dies, and the pool is not closed. -/
def Calm (i : VdfStep) : Prop := Handles i ∨ ∃ c, i = .call c

/-- Nothing has failed. -/
structure Clean (s : VdfSystem) : Prop where
  wire : ∀ m ∈ s.wire, m.error = none
  settled : ∀ e ∈ s.settled, ∃ m, e.2 = .resolved m

theorem Clean.step (h : Clean s) {i : VdfStep} (hi : Calm i) : Clean (s.step C i) := by
  cases i with
  | call c =>
    show Clean (s.call c)
    unfold VdfSystem.call
    split_ifs
    · exact h
    · exact ⟨h.wire, h.settled⟩
  | work i thrown =>
    have hnone : thrown = none := by
      obtain hnone | ⟨c, hc⟩ := hi
      · exact hnone
      · cases hc
    subst hnone
    show Clean (s.work C i none)
    unfold VdfSystem.work
    split
    · rename_i ref msg inbox _
      refine ⟨fun m hm => ?_, h.settled⟩
      obtain hm | hm := List.mem_append.mp hm
      · exact h.wire m hm
      · obtain rfl := List.mem_singleton.mp hm
        unfold vdfWorker
        cases msg.op <;> rfl
    · exact h
  | deliver m =>
    show Clean (s.deliver m)
    unfold VdfSystem.deliver
    split_ifs with hm
    swap
    · exact h
    refine ⟨fun m' hm' => h.wire m' (List.mem_of_mem_erase hm'), fun e he => ?_⟩
    obtain he | he := List.mem_append.mp he
    · exact h.settled e he
    · unfold VdfPool.onMessage at he
      cases hget : s.pool.pending.get? m.id with
      | none =>
        rw [hget] at he
        cases he
      | some widx =>
        rw [hget] at he
        obtain rfl := List.mem_singleton.mp he
        rw [h.wire m hm]
        exact ⟨m, rfl⟩
  | fail i err => obtain hfalse | ⟨c, hc⟩ := hi <;> contradiction
  | close => obtain hfalse | ⟨c, hc⟩ := hi <;> contradiction

theorem Clean.run (h : Clean s) {l : List VdfStep} (hl : ∀ i ∈ l, Calm i) :
    Clean (run (VdfSystem.step C) s l) := by
  induction l generalizing s with
  | nil => exact h
  | cons i l ih =>
    exact ih (h.step (hl i List.mem_cons_self)) fun j hj => hl j (List.mem_cons_of_mem i hj)

/-- The threads can bring it about. -/
def Reaches (C : Crypto) (s : VdfSystem) (P : VdfSystem → Prop) : Prop :=
  ∃ more, (∀ i ∈ more, Handles i) ∧ P (run (VdfSystem.step C) s more)

theorem Reaches.cons {P : VdfSystem → Prop} {i : VdfStep} (hi : Handles i)
    (h : Reaches C (s.step C i) P) : Reaches C s P := by
  obtain ⟨more, hmore, hp⟩ := h
  exact ⟨i :: more, by simpa [hi] using hmore, hp⟩

theorem Reaches.trans {P Q : VdfSystem → Prop} (h : Reaches C s P)
    (hpq : ∀ s', P s' → Reaches C s' Q) : Reaches C s Q := by
  obtain ⟨more, hmore, hp⟩ := h
  obtain ⟨more', hmore', hq⟩ := hpq _ hp
  refine ⟨more ++ more', fun i hi => ?_, by rwa [run_append]⟩
  exact (List.mem_append.mp hi).elim (hmore i) (hmore' i)

/-- A message in an inbox gets answered. -/
theorem reaches_wire {id i : ℕ} {ref : Bool} {inbox : List VdfRequest}
    (hi : s.pool.workers i = some ⟨ref, inbox⟩) (hmem : ∃ msg ∈ inbox, msg.id = id) :
    Reaches C s fun s' => s'.pool.pending = s.pool.pending ∧ s'.asked = s.asked ∧
      ∃ m ∈ s'.wire, m.id = id := by
  induction inbox generalizing s with
  | nil =>
    obtain ⟨msg, hmsg, -⟩ := hmem
    cases hmsg
  | cons msg inbox ih =>
    have hwork : s.step C (.work i none) = { s with
        pool := { s.pool with workers := Function.update s.pool.workers i (some ⟨ref, inbox⟩) }
        wire := s.wire ++ [vdfWorker C msg none] } := by
      show s.work C i none = _
      unfold VdfSystem.work
      rw [hi]
    by_cases hid : msg.id = id
    · refine ⟨[.work i none], by simp [Handles], ?_⟩
      rw [run_cons, run_nil, hwork]
      exact ⟨rfl, rfl, _, List.mem_append_right _ (List.mem_singleton.mpr rfl),
        (VdfCall.vdfWorker_id msg none).trans hid⟩
    · refine Reaches.cons (i := .work i none) rfl ?_
      have hrest : ∃ msg' ∈ inbox, msg'.id = id := by
        obtain ⟨msg', hmsg', hid'⟩ := hmem
        obtain rfl | hmsg' := List.mem_cons.mp hmsg'
        · exact absurd hid' hid
        · exact ⟨msg', hmsg', hid'⟩
      rw [hwork]
      exact ih (Function.update_self _ _ _) hrest

/-- An answer that is on the way arrives. -/
theorem reaches_delivered {id widx : ℕ} (hget : s.pool.pending.get? id = some widx)
    (hwire : ∃ m ∈ s.wire, m.id = id) :
    Reaches C s fun s' => s'.pool.pending = s.pool.pending.delete id ∧ s'.asked = s.asked := by
  obtain ⟨m, hm, rfl⟩ := hwire
  refine ⟨[.deliver m], by simp [Handles], ?_⟩
  show (s.deliver m).pool.pending = _ ∧ (s.deliver m).asked = _
  unfold VdfSystem.deliver
  rw [if_pos hm]
  refine ⟨?_, rfl⟩
  show (s.pool.onMessage m).1.pending = _
  unfold VdfPool.onMessage
  rw [hget]

theorem Kept.reaches_settled (h : Kept C s) {id widx : ℕ}
    (hget : s.pool.pending.get? id = some widx) :
    Reaches C s fun s' => s'.pool.pending = s.pool.pending.delete id ∧ s'.asked = s.asked := by
  obtain ⟨⟨ref, inbox⟩, ht, hmsg | hwire⟩ := h.flight id widx hget
  · refine (reaches_wire ht hmsg).trans ?_
    rintro s' ⟨hpending, hasked, hwire⟩
    rw [← hpending, ← hasked]
    rw [← hpending] at hget
    exact reaches_delivered hget hwire
  · exact reaches_delivered hget hwire

theorem Kept.run (h : Kept C s) (l : List VdfStep) : Kept C (run (VdfSystem.step C) s l) :=
  inv_run (Kept C) (fun _ i h => h.step i) h l

/-- The threads can settle every job. -/
theorem Kept.reaches_idle (h : Kept C s) :
    Reaches C s fun s' => s'.pool.pending = ∅ ∧ s'.asked = s.asked := by
  induction hsize : s.pool.pending.size using Nat.strong_induction_on generalizing s with
  | _ size ih =>
    cases hentries : s.pool.pending.entries with
    | nil => exact ⟨[], by simp, OrderedMap.eq_empty_of_entries hentries, rfl⟩
    | cons e rest =>
      have hget : s.pool.pending.get? e.1 = some e.2 :=
        (OrderedMap.get?_eq_some_iff _ _ _).mpr (hentries ▸ List.mem_cons_self)
      obtain ⟨more, hmore, hpending, hasked⟩ := h.reaches_settled hget
      have hless : (Runs.run (VdfSystem.step C) s more).pool.pending.size < size := by
        rw [hpending, ← hsize]
        exact OrderedMap.size_delete_lt hget
      obtain ⟨more', hmore', hidle, hasked'⟩ := ih _ hless (h.run more) rfl
      refine ⟨more ++ more', fun i hi => (List.mem_append.mp hi).elim (hmore i) (hmore' i), ?_⟩
      rw [run_append]
      exact ⟨hidle, hasked'.trans hasked⟩

/-- While nothing goes wrong the threads can be run on until every call has been answered what the
inline delay function answers. -/
theorem calm_run_answers {n : ℕ} (hn : 0 < n) {steps : List VdfStep}
    (hcalm : ∀ i ∈ steps, Calm i) : ∃ more, (∀ i ∈ more, Handles i) ∧
      ∀ id c, (run (step C) (new n) steps).asked.get? id = some c →
        ∃ m, (id, .resolved m) ∈ (run (step C) (new n) (steps ++ more)).settled ∧
          c.answer (.resolved m) = c.inline C := by
  obtain ⟨h, -⟩ := kept_run (C := C) hn steps
  obtain ⟨more, hmore, hidle, hasked⟩ := h.reaches_idle
  refine ⟨more, hmore, fun id c hc => ?_⟩
  rw [run_append]
  have hkept := h.run more
  have hclean : Clean (run (step C) (run (step C) (new n) steps) more) :=
    (Clean.run ⟨fun m hm => (by cases hm), fun e he => (by cases he)⟩ hcalm).run fun i hi =>
      Or.inl (hmore i hi)
  generalize run (step C) (run (step C) (new n) steps) more = s at *
  have hsettled : id ∈ s.settled.map Prod.fst := by
    have hmem : id ∈ s.asked.keys := (OrderedMap.mem_keys _ _).mpr ⟨c, by rw [hasked, hc]⟩
    have hids := (hkept.ids.trans hkept.known.symm).symm.subset hmem
    rw [hidle] at hids
    exact hids
  obtain ⟨⟨id', end'⟩, hmem, rfl⟩ := List.mem_map.mp hsettled
  obtain ⟨m, rfl⟩ := hclean.settled _ hmem
  obtain ⟨c', hc', hended⟩ := hkept.settled _ hmem
  rw [hasked, hc] at hc'
  obtain rfl := Option.some.inj hc'
  refine ⟨m, hmem, ?_⟩
  rw [hended m rfl]
  exact VdfCall.answer_vdfWorker (h.asked _ c hc).2

theorem calm_run_answers_sample : ∃ more, (∀ i ∈ more, Handles i) ∧
    ∀ id c, (run (step sampleCrypto) (new 2) [.call sampleEval, .call sampleVerify]).asked.get? id
        = some c →
      ∃ m, (id, .resolved m) ∈ (run (step sampleCrypto) (new 2)
          ([.call sampleEval, .call sampleVerify] ++ more)).settled ∧
        c.answer (.resolved m) = c.inline sampleCrypto :=
  calm_run_answers (by decide) (by simp [Calm])

/-- The pool's counters are the jobs in hand. A thread holds the event loop open exactly while it has
one, and the next call goes to a live worker with the fewest. -/
theorem load_counts {n : ℕ} (hn : 0 < n) (steps : List VdfStep) :
    (∀ i, (run (step C) (new n) steps).pool.load i
        = VdfPool.inHand (run (step C) (new n) steps).pool.pending i) ∧
    (∀ i t, (run (step C) (new n) steps).pool.workers i = some t →
      (t.ref = true ↔ 0 < VdfPool.inHand (run (step C) (new n) steps).pool.pending i)) ∧
    ∀ c : VdfCall, 1 ≤ c.iters → ∃ best < n, ∃ t,
      ((run (step C) (new n) steps).call c).pool.workers best = some t ∧
      c.request ((run (step C) (new n) steps).pool.seq + 1) ∈ t.inbox ∧
      ∀ i < n, VdfPool.inHand (run (step C) (new n) steps).pool.pending best
        ≤ VdfPool.inHand (run (step C) (new n) steps).pool.pending i := by
  obtain ⟨h, hsize⟩ := kept_run (C := C) hn steps
  have hcount := h.counted.count
  refine ⟨hcount, fun i t ht => ?_, fun c hiters => ?_⟩
  · rw [← hcount]
    exact h.counted.busy i t ht
  · obtain ⟨best, hd⟩ := VdfCall.dispatched c h.counted h.pos h.pending_next
    obtain ⟨t, ht, hmem⟩ := hd.posted
    have hcall : ((run (step C) (new n) steps).call c).pool
        = c.dispatch (run (step C) (new n) steps).pool := by
      unfold VdfSystem.call
      rw [if_neg (Nat.not_lt.mpr hiters)]
    have hleast := hd.least
    rw [hsize] at hleast
    refine ⟨best, hleast.1, t, ?_, hmem, fun i hi => ?_⟩
    · rw [hcall]
      exact ht
    · rw [← hcount, ← hcount]
      exact hleast.2 i hi

theorem load_counts_sample :
    (run (step sampleCrypto) (new 2) [.call sampleEval]).pool.load 0 = 1 ∧
      ∀ i, (run (step sampleCrypto) (new 2) [.call sampleEval]).pool.load i
        = VdfPool.inHand (run (step sampleCrypto) (new 2) [.call sampleEval]).pool.pending i :=
  ⟨by decide, (load_counts (by decide) [.call sampleEval]).1⟩

end VdfSystem

end Gavl
