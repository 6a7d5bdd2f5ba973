import Gavl.Chains.Failover

/-!
# What a request that fails has asked

While the preferred endpoint stays put, a request asks every endpoint once before it gives up. An
answer of another request that moves it can turn the request back to an endpoint that it has asked.
-/

namespace Gavl

open Runs

namespace EsploraClient

/-- A fetch of a request answers it and makes its endpoint the preferred one, or sends it on. -/
theorem onFetched_cases (c : EsploraClient) (r : EsploraRequest) (f : Fetched) :
    (∃ status body, f = .responded status body ∧ status < 500 ∧
        c.onFetched r f = ({ c with preferred := r.«at» }, .inr (.response status body))) ∨
      (¬f.Healthy ∧ ∃ err, c.onFetched r f = (c, c.failOver r err)) := by
  cases f with
  | responded status body =>
    by_cases hlt : status < 500
    · exact Or.inl ⟨status, body, rfl, hlt, if_neg (by omega)⟩
    · exact Or.inr ⟨hlt, _, if_pos (by omega)⟩
  | thrown message => exact Or.inr ⟨id, message, rfl⟩

/-- The endpoints of a client stay the same. -/
theorem onFetched_bases (c : EsploraClient) (r : EsploraRequest) (f : Fetched) :
    (c.onFetched r f).1.bases = c.bases := by
  obtain ⟨status, body, -, -, heq⟩ | ⟨-, err, heq⟩ := c.onFetched_cases r f <;> rw [heq]

theorem failOver_cases (c : EsploraClient) (r : EsploraRequest) (err : String) :
    (r.i + 1 < c.bases.length ∧
        c.failOver r err = .inl ⟨r.path, r.body, r.i + 1, c.pick (r.i + 1)⟩) ∨
      (c.bases.length ≤ r.i + 1 ∧ ∃ message, c.failOver r err = .inr (.error message)) := by
  unfold failOver
  by_cases hi : r.i + 1 < c.bases.length
  · exact Or.inl ⟨hi, if_pos hi⟩
  · exact Or.inr ⟨by omega, _, if_neg hi⟩

theorem req_cases (c : EsploraClient) (path : String) (body : Option String) :
    (c.bases.length = 0 ∧ ∃ message, c.req path body = .inr (.error message)) ∨
      (0 < c.bases.length ∧ c.req path body = .inl ⟨path, body, 0, c.pick 0⟩) := by
  unfold req
  by_cases hn : c.bases.length = 0
  · exact Or.inl ⟨hn, _, if_pos hn⟩
  · exact Or.inr ⟨by omega, if_neg hn⟩

/-! ## The rotation -/

/-- One after the other, no endpoint comes twice. -/
theorem pick_injOn (c : EsploraClient) {i j : ℕ} (hi : i < c.bases.length) (hj : j < c.bases.length)
    (h : c.pick i = c.pick j) : i = j := by
  have hmod : c.preferred + i ≡ c.preferred + j [MOD c.bases.length] := h
  have hcancel : i ≡ j [MOD c.bases.length] := Nat.ModEq.add_left_cancel' c.preferred hmod
  exact Nat.ModEq.eq_of_lt_of_lt hcancel hi hj

theorem nodup_picks (c : EsploraClient) {k : ℕ} (hk : k ≤ c.bases.length) :
    ((List.range k).map c.pick).Nodup := by
  refine List.Nodup.map_on ?_ List.nodup_range
  intro i hi j hj h
  rw [List.mem_range] at hi hj
  exact c.pick_injOn (by omega) (by omega) h

/-- Once around, every endpoint comes. -/
theorem mem_picks (c : EsploraClient) {e : ℕ} (he : e < c.bases.length) :
    e ∈ (List.range c.bases.length).map c.pick := by
  have hsub : (List.range c.bases.length).map c.pick ⊆ List.range c.bases.length := by
    intro x hx
    obtain ⟨i, -, rfl⟩ := List.mem_map.mp hx
    exact List.mem_range.mpr (Nat.mod_lt _ (by omega))
  have hperm : ((List.range c.bases.length).map c.pick).Perm (List.range c.bases.length) := by
    refine ((c.nodup_picks le_rfl).subperm hsub).perm_of_length_le ?_
    rw [List.length_map]
  exact hperm.mem_iff.mpr (List.mem_range.mpr he)

end EsploraClient

/-! ## One step -/

namespace EsploraRun

variable {s : EsploraRun} {id id' : ℕ} {r : EsploraRequest} {f : Fetched} {reply : Reply}
  {o : EsploraRequest ⊕ Reply}

theorem step_call (s : EsploraRun) (path : String) (body : Option String) : s.step (.call path body)
    = ({ s with made := s.made + 1 } : EsploraRun).next s.made (s.client.req path body) := rfl

theorem step_none (h : s.pending.get? id = none) : s.step (.fetched id f) = s := by
  simp only [step, h]

theorem step_some (h : s.pending.get? id = some r) : s.step (.fetched id f)
    = { s with
        client := (s.client.onFetched r f).1
        asked := s.asked ++ [(id, r.«at», f)] }.next id (s.client.onFetched r f).2 := by
  simp only [step, h]

@[simp] theorem next_client : (s.next id o).client = s.client := by cases o <;> rfl

@[simp] theorem next_made : (s.next id o).made = s.made := by cases o <;> rfl

@[simp] theorem next_asked : (s.next id o).asked = s.asked := by cases o <;> rfl

@[simp] theorem next_askedOf : (s.next id o).askedOf id' = s.askedOf id' := by cases o <;> rfl

theorem next_inr_get? : (s.next id (.inr reply)).pending.get? id = none := by
  show (s.pending.delete id).get? id = none
  rw [OrderedMap.get?_delete, if_pos rfl]

theorem next_get? (h : id' ≠ id) : (s.next id o).pending.get? id' = s.pending.get? id' := by
  cases o with
  | inl r => exact OrderedMap.get?_set_of_ne _ r (Ne.symm h)
  | inr reply =>
    show (s.pending.delete id).get? id' = _
    rw [OrderedMap.get?_delete, if_neg (Ne.symm h)]

theorem mem_next : (id', reply) ∈ (s.next id o).replies ↔
    (id', reply) ∈ s.replies ∨ id' = id ∧ o = .inr reply := by
  cases o with
  | inl r =>
    show (id', reply) ∈ s.replies ↔ _
    simp
  | inr reply' =>
    show (id', reply) ∈ s.replies ++ [(id, reply')] ↔ _
    simp only [List.mem_append, List.mem_singleton, Prod.mk.injEq, Sum.inr.injEq, eq_comm]

/-- A reply stays. -/
theorem replies_step (e : EsploraEvent) (h : (id, reply) ∈ s.replies) : (id, reply) ∈ (s.step e).replies := by
  cases e with
  | call path body => exact mem_next.mpr (Or.inl h)
  | fetched id' f =>
    cases hr : s.pending.get? id' with
    | none =>
      rw [step_none hr]
      exact h
    | some r =>
      rw [step_some hr]
      exact mem_next.mpr (Or.inl h)

theorem replies_run (events : List EsploraEvent) (h : (id, reply) ∈ s.replies) :
    (id, reply) ∈ (run step s events).replies :=
  inv_run (fun t : EsploraRun => (id, reply) ∈ t.replies) (fun _ e h => replies_step e h) h events

theorem askedOf_append (s : EsploraRun) (x : ℕ × ℕ × Fetched) (id : ℕ) :
    { s with asked := s.asked ++ [x] }.askedOf id
      = s.askedOf id ++ if x.1 = id then [x.2] else [] := by
  unfold askedOf
  rw [List.filter_append, List.map_append]
  by_cases h : x.1 = id <;> simp [h]

theorem mem_askedOf {a : ℕ × Fetched} : a ∈ s.askedOf id ↔ (id, a) ∈ s.asked := by
  unfold askedOf
  constructor
  · intro h
    obtain ⟨x, hx, rfl⟩ := List.mem_map.mp h
    obtain ⟨hmem, hid⟩ := List.mem_filter.mp hx
    rw [← of_decide_eq_true hid]
    exact hmem
  · intro h
    exact List.mem_map.mpr ⟨(id, a), List.mem_filter.mpr ⟨h, decide_eq_true rfl⟩, rfl⟩

/-- The endpoints stay the same. -/
theorem bases_step (s : EsploraRun) (e : EsploraEvent) : (s.step e).client.bases = s.client.bases := by
  cases e with
  | call path body =>
    rw [step_call, next_client]
  | fetched id f =>
    cases hr : s.pending.get? id with
    | none => rw [step_none hr]
    | some r =>
      rw [step_some hr, next_client]
      exact s.client.onFetched_bases r f

theorem bases_run (s : EsploraRun) (events : List EsploraEvent) :
    (run step s events).client.bases = s.client.bases :=
  inv_run (fun t => t.client.bases = s.client.bases) (fun t e h => (bases_step t e).trans h) rfl events

/-- Requests are numbered as they are made. -/
structure Numbered (s : EsploraRun) : Prop where
  pending : ∀ id r, s.pending.get? id = some r → id < s.made
  asked : ∀ x ∈ s.asked, x.1 < s.made
  replies : ∀ x ∈ s.replies, x.1 < s.made

namespace Numbered

theorem start (c : EsploraClient) : (start c).Numbered := by
  refine ⟨fun id r h => ?_, fun x hx => absurd hx List.not_mem_nil, fun x hx => absurd hx List.not_mem_nil⟩
  rw [EsploraRun.start, OrderedMap.get?_empty] at h
  cases h

theorem next (h : s.Numbered) (hid : id < s.made) (o : EsploraRequest ⊕ Reply) : (s.next id o).Numbered := by
  refine ⟨fun id' r hr => ?_, ?_, fun x hx => ?_⟩
  · rw [next_made]
    by_cases heq : id' = id
    · omega
    · rw [next_get? heq] at hr
      exact h.pending id' r hr
  · rw [next_asked, next_made]
    exact h.asked
  · rw [next_made]
    obtain hx | ⟨hx, -⟩ := mem_next.mp hx
    · exact h.replies x hx
    · omega

theorem step (h : s.Numbered) (e : EsploraEvent) : (s.step e).Numbered := by
  cases e with
  | call path body =>
    have hgrown : ({ s with made := s.made + 1 } : EsploraRun).Numbered :=
      ⟨fun id r hr => Nat.lt_succ_of_lt (h.pending id r hr),
        fun x hx => Nat.lt_succ_of_lt (h.asked x hx), fun x hx => Nat.lt_succ_of_lt (h.replies x hx)⟩
    exact hgrown.next (Nat.lt_succ_self _) _
  | fetched id f =>
    cases hr : s.pending.get? id with
    | none =>
      rw [step_none hr]
      exact h
    | some r =>
      have hid := h.pending id r hr
      have hgrown : ({ s with
          client := (s.client.onFetched r f).1
          asked := s.asked ++ [(id, r.«at», f)] } : EsploraRun).Numbered := by
        refine ⟨h.pending, fun x hx => ?_, h.replies⟩
        obtain hx | hx := List.mem_append.mp hx
        · exact h.asked x hx
        · rw [List.mem_singleton.mp hx]
          exact hid
      rw [step_some hr]
      exact hgrown.next hid _

theorem askedOf_made (h : s.Numbered) : s.askedOf s.made = [] := by
  unfold askedOf
  rw [List.map_eq_nil_iff, List.filter_eq_nil_iff]
  intro x hx heq
  have := h.asked x hx
  simp only [decide_eq_true_eq] at heq
  omega

end Numbered

/-! ## A request's course -/

/-- How a request that the client `c` began comes to its end. -/
structure Ended (c : EsploraClient) (asks : List (ℕ × Fetched)) (reply : Reply) : Prop where
  /-- The endpoints are asked one after the other, from the preferred one on. -/
  order : asks.map Prod.fst = (List.range asks.length).map c.pick
  once : (asks.map Prod.fst).Nodup
  /-- It goes on only from a sick endpoint. -/
  failed : ∀ a ∈ asks.dropLast, ¬a.2.Healthy
  answered : ∀ status body, reply = .response status body →
    status < 500 ∧ ∃ e, asks.getLast? = some (e, .responded status body)
  gaveUp : ∀ message, reply = .error message → ∀ e < c.bases.length, ∃ f, (e, f) ∈ asks ∧ ¬f.Healthy

/-- A request of the client `c` is at its `i`-th fetch. -/
structure Asking (c : EsploraClient) (r : EsploraRequest) (asks : List (ℕ × Fetched)) : Prop where
  within : r.i < c.bases.length
  picked : r.«at» = c.pick r.i
  length : asks.length = r.i
  order : asks.map Prod.fst = (List.range asks.length).map c.pick
  failed : ∀ a ∈ asks, ¬a.2.Healthy

namespace Asking

variable {c : EsploraClient} {asks : List (ℕ × Fetched)}

theorem order_concat (h : Asking c r asks) (f : Fetched) : (asks ++ [(r.«at», f)]).map Prod.fst
    = (List.range (asks ++ [(r.«at», f)]).length).map c.pick := by
  rw [List.map_append, List.length_append, List.length_singleton, List.range_succ, List.map_append, h.order,
    List.map_singleton, List.map_singleton, h.picked, h.length]

theorem once_concat (h : Asking c r asks) (f : Fetched) :
    ((asks ++ [(r.«at», f)]).map Prod.fst).Nodup := by
  rw [h.order_concat]
  apply c.nodup_picks
  rw [List.length_append, List.length_singleton, h.length]
  exact h.within

/-- The endpoint answers. -/
theorem answer (h : Asking c r asks) {status : ℕ} {body : String} (hlt : status < 500) :
    Ended c (asks ++ [(r.«at», .responded status body)]) (.response status body) := by
  refine ⟨h.order_concat _, h.once_concat _, ?_, fun status' body' heq => ?_, fun message heq => (by cases heq)⟩
  · rw [List.dropLast_concat]
    exact h.failed
  · obtain ⟨rfl, rfl⟩ := Reply.response.inj heq
    exact ⟨hlt, r.«at», List.getLast?_concat⟩

/-- The last endpoint fails too. -/
theorem giveUp (h : Asking c r asks) (hf : ¬f.Healthy) (hlast : c.bases.length ≤ r.i + 1) (message : String) :
    Ended c (asks ++ [(r.«at», f)]) (.error message) := by
  have hfailed : ∀ a ∈ asks ++ [(r.«at», f)], ¬a.2.Healthy := by
    intro a ha
    obtain ha | ha := List.mem_append.mp ha
    · exact h.failed a ha
    · rw [List.mem_singleton.mp ha]
      exact hf
  refine ⟨h.order_concat _, h.once_concat _, fun a ha => hfailed a (List.dropLast_subset _ ha),
    fun status body heq => (by cases heq), fun message' _ e he => ?_⟩
  have hlength : (asks ++ [(r.«at», f)]).length = c.bases.length := by
    have := h.within
    rw [List.length_append, List.length_singleton, h.length]
    omega
  have hmem : e ∈ (asks ++ [(r.«at», f)]).map Prod.fst := by
    rw [h.order_concat, hlength]
    exact c.mem_picks he
  obtain ⟨a, ha, rfl⟩ := List.mem_map.mp hmem
  exact ⟨a.2, ha, hfailed a ha⟩

/-- Another endpoint is next. -/
theorem goOn (h : Asking c r asks) (hf : ¬f.Healthy) (hnext : r.i + 1 < c.bases.length) :
    Asking c ⟨r.path, r.body, r.i + 1, c.pick (r.i + 1)⟩ (asks ++ [(r.«at», f)]) := by
  refine ⟨hnext, rfl, ?_, h.order_concat f, fun a ha => ?_⟩
  · rw [List.length_append, List.length_singleton, h.length]
  · obtain ha | ha := List.mem_append.mp ha
    · exact h.failed a ha
    · rw [List.mem_singleton.mp ha]
      exact hf

end Asking

/-- Where the request `id` of the client `c` is: under way, with `c` as it was, or at its end. -/
def Follows (c : EsploraClient) (id : ℕ) (s : EsploraRun) : Prop :=
  id < s.made ∧
    ((∃ r, s.pending.get? id = some r ∧ s.client = c ∧ Asking c r (s.askedOf id) ∧
        ∀ reply, (id, reply) ∉ s.replies) ∨
      s.pending.get? id = none ∧ ∀ reply, (id, reply) ∈ s.replies → Ended c (s.askedOf id) reply)

/-- While the request `id` is under way, no other one is answered by an endpoint but the preferred. -/
def Unmoved (id : ℕ) (s : EsploraRun) : EsploraEvent → Prop
  | .call _ _ => True
  | .fetched id' f => ∀ r ∈ s.pending.get? id', s.pending.has id = true → id' ≠ id → f.Healthy →
      r.«at» = s.client.preferred

instance (id : ℕ) (s : EsploraRun) : DecidablePred (Unmoved id s)
  | .call _ _ => isTrue trivial
  | .fetched id' f => inferInstanceAs (Decidable (∀ r ∈ s.pending.get? id', s.pending.has id = true →
      id' ≠ id → f.Healthy → r.«at» = s.client.preferred))

namespace Follows

variable {c : EsploraClient}

theorem call (hs : s.Numbered) (path : String) (body : Option String) :
    Follows s.client s.made (s.step (.call path body)) := by
  have hasked : ({ s with made := s.made + 1 } : EsploraRun).askedOf s.made = [] := hs.askedOf_made
  have hnew : ∀ reply, (s.made, reply) ∉ s.replies := fun reply hmem => Nat.lt_irrefl _ (hs.replies _ hmem)
  rw [step_call]
  refine ⟨?_, ?_⟩
  · rw [next_made]
    exact Nat.lt_succ_self _
  · rw [next_askedOf, hasked]
    obtain ⟨hn, message, hreq⟩ | ⟨hpos, hreq⟩ := s.client.req_cases path body
    · -- there is no endpoint to ask
      rw [hreq]
      right
      refine ⟨next_inr_get?, fun reply hmem => ?_⟩
      obtain hmem | ⟨-, heq⟩ := mem_next.mp hmem
      · exact absurd hmem (hnew reply)
      · obtain rfl := Sum.inr.inj heq
        exact ⟨rfl, List.nodup_nil, fun a ha => absurd ha List.not_mem_nil,
          fun status body heq => (by cases heq), fun message' _ e he => (by omega)⟩
    · rw [hreq]
      left
      refine ⟨_, OrderedMap.get?_set_self _ _ _, next_client, ⟨hpos, rfl, rfl, rfl, ?_⟩, fun reply hmem => ?_⟩
      · exact fun a ha => absurd ha List.not_mem_nil
      · obtain hmem | ⟨-, heq⟩ := mem_next.mp hmem
        · exact hnew reply hmem
        · cases heq

/-- What another request does leaves it where it is, unless it moves the preferred endpoint. -/
theorem other (h : Follows c id s) {t : EsploraRun} (hmade : s.made ≤ t.made)
    (hget : t.pending.get? id = s.pending.get? id) (hasked : t.askedOf id = s.askedOf id)
    (hreplies : ∀ reply, (id, reply) ∈ t.replies → (id, reply) ∈ s.replies)
    (hclient : s.pending.has id = true → t.client = s.client) : Follows c id t := by
  refine ⟨lt_of_lt_of_le h.1 hmade, ?_⟩
  rw [hget, hasked]
  obtain ⟨r, hr, hc, hasking, hnone⟩ | ⟨hr, hended⟩ := h.2
  · left
    have hthere : s.pending.has id = true := (OrderedMap.has_iff _ _).mpr ⟨r, hr⟩
    exact ⟨r, hr, (hclient hthere).trans hc, hasking, fun reply hmem => hnone reply (hreplies reply hmem)⟩
  · right
    exact ⟨hr, fun reply hmem => hended reply (hreplies reply hmem)⟩

/-- A fetch of its own. -/
theorem fetched (h : Follows c id s) (hr : s.pending.get? id = some r) (f : Fetched) :
    Follows c id (s.step (.fetched id f)) := by
  obtain ⟨hmade, ⟨own, hown, rfl, hasking, hnone⟩ | ⟨hown, -⟩⟩ := h
  swap
  · rw [hr] at hown
    cases hown
  obtain rfl := Option.some.inj (hown.symm.trans hr)
  have hasked : ({ s with
      client := (s.client.onFetched own f).1
      asked := s.asked ++ [(id, own.«at», f)] } : EsploraRun).askedOf id = s.askedOf id ++ [(own.«at», f)] := by
    refine (askedOf_append s (id, own.«at», f) id).trans ?_
    rw [if_pos rfl]
  rw [step_some hr]
  refine ⟨?_, ?_⟩
  · rw [next_made]
    exact hmade
  · rw [next_askedOf, hasked]
    obtain ⟨status, body, rfl, hlt, heq⟩ | ⟨hf, err, heq⟩ := s.client.onFetched_cases own f
    · rw [heq]
      right
      refine ⟨next_inr_get?, fun reply hmem => ?_⟩
      obtain hmem | ⟨-, heq⟩ := mem_next.mp hmem
      · exact absurd hmem (hnone reply)
      · obtain rfl := Sum.inr.inj heq
        exact hasking.answer hlt
    · rw [heq]
      obtain ⟨hnext, hover⟩ | ⟨hlast, message, hover⟩ := s.client.failOver_cases own err
      · rw [hover]
        left
        refine ⟨_, OrderedMap.get?_set_self _ _ _, next_client, hasking.goOn hf hnext, fun reply hmem => ?_⟩
        obtain hmem | ⟨-, heq⟩ := mem_next.mp hmem
        · exact hnone reply hmem
        · cases heq
      · rw [hover]
        right
        refine ⟨next_inr_get?, fun reply hmem => ?_⟩
        obtain hmem | ⟨-, heq⟩ := mem_next.mp hmem
        · exact absurd hmem (hnone reply)
        · obtain rfl := Sum.inr.inj heq
          exact hasking.giveUp hf hlast message

theorem step (h : Follows c id s) {e : EsploraEvent} (hcalm : Unmoved id s e) : Follows c id (s.step e) := by
  have hmade := h.1
  cases e with
  | call path body =>
    have hne : id ≠ s.made := by omega
    rw [step_call]
    refine h.other ?_ (next_get? hne) next_askedOf (fun reply hmem => ?_) fun _ => next_client
    · rw [next_made]
      exact Nat.le_succ _
    · obtain hmem | ⟨heq, -⟩ := mem_next.mp hmem
      · exact hmem
      · exact absurd heq hne
  | fetched id' f =>
    cases hr : s.pending.get? id' with
    | none =>
      rw [step_none hr]
      exact h
    | some r =>
      by_cases hne : id = id'
      · subst hne
        exact h.fetched hr f
      · rw [step_some hr]
        refine h.other ?_ (next_get? hne) ?_ (fun reply hmem => ?_) fun hthere => ?_
        · rw [next_made]
        · rw [next_askedOf]
          refine (askedOf_append s (id', r.«at», f) id).trans ?_
          rw [if_neg (Ne.symm hne), List.append_nil]
        · obtain hmem | ⟨heq, -⟩ := mem_next.mp hmem
          · exact hmem
          · exact absurd heq hne
        · rw [next_client]
          show (s.client.onFetched r f).1 = s.client
          obtain ⟨status, body, rfl, hlt, heq⟩ | ⟨-, err, heq⟩ := s.client.onFetched_cases r f
          · -- it answers from the endpoint that is preferred already
            rw [heq, hcalm r hr hthere (Ne.symm hne) hlt]
          · rw [heq]

end Follows

/-- A state of a client's run. -/
def Reached (s : EsploraRun) : Prop := ∃ opts events, s = run step (start (.new opts)) events

theorem Reached.numbered (hs : s.Reached) : s.Numbered := by
  obtain ⟨opts, events, rfl⟩ := hs
  exact inv_run Numbered (fun _ e h => h.step e) (.start _) events

/-- **A request that fails has asked every endpoint.** However the fetches of the other requests end in
between, while none of their answers moves the preferred endpoint a request goes round the endpoints from
there on, asks none twice and leaves only a sick one; it ends with the first answer, and fails only when
each endpoint has failed it. -/
theorem fails_asked_all (hs : s.Reached) (path : String) (body : Option String) {events : List EsploraEvent}
    (hcalm : Along step (Unmoved s.made) (s.step (.call path body)) events)
    (hreply : (s.made, reply) ∈ (run step (s.step (.call path body)) events).replies) :
    Ended s.client ((run step (s.step (.call path body)) events).askedOf s.made) reply := by
  have hfollows : Follows s.client s.made (run step (s.step (.call path body)) events) :=
    inv_of_along (fun _ _ h hcalm => h.step hcalm) (.call hs.numbered path body) hcalm
  obtain ⟨-, ⟨r, -, -, -, hnone⟩ | ⟨-, hended⟩⟩ := hfollows
  · exact absurd hreply (hnone reply)
  · exact hended reply hreply

/-- A client of two endpoints. -/
def twoBases : EsploraOptions := ⟨none, none, none, some ["a", "b"]⟩

/-- Both endpoints are down, and another request is at them meanwhile. -/
def bothDown : List EsploraEvent :=
  [.call "/blocks/tip/height" none, .fetched 0 (.thrown "down"), .fetched 1 (.responded 503 ""),
    .fetched 0 (.thrown "down")]

/-- The theorem at a request that both endpoints fail. -/
theorem fails_asked_all_down : ∃ message, Ended (.new twoBases)
    ((run step ((start (.new twoBases)).step (.call "/tx" none)) bothDown).askedOf 0) (.error message) := by
  have hcalm : Along step (Unmoved 0) ((start (.new twoBases)).step (.call "/tx" none)) bothDown := by
    decide
  exact ⟨_, fails_asked_all ⟨twoBases, [], rfl⟩ "/tx" none hcalm (List.mem_singleton.mpr rfl)⟩

-- an answer that the other request gets turns this one back to the endpoint that failed it, past the one
-- that is up
example : (run step (start (.new twoBases)) [.call "/tx" none, .call "/blocks/tip/height" none,
    .fetched 1 (.thrown "down"), .fetched 1 (.responded 200 "7"), .fetched 0 (.thrown "down"),
    .fetched 0 (.thrown "down")]).askedOf 0 = [(0, .thrown "down"), (0, .thrown "down")] := by decide

/-! ## An outage -/

/-- Of all endpoints, `e` alone answers. -/
def Alone (e : ℕ) (s : EsploraRun) : EsploraEvent → Prop
  | .call _ _ => True
  | .fetched id f => ∀ r ∈ s.pending.get? id, f.Healthy ↔ r.«at» = e

instance (e : ℕ) (s : EsploraRun) : DecidablePred (Alone e s)
  | .call _ _ => isTrue trivial
  | .fetched id f => inferInstanceAs (Decidable (∀ r ∈ s.pending.get? id, f.Healthy ↔ r.«at» = e))

/-- Some request was answered. -/
def Answered (s : EsploraRun) : Prop := ∃ id status body, (id, Reply.response status body) ∈ s.replies

theorem Answered.run (h : s.Answered) (events : List EsploraEvent) : (run step s events).Answered := by
  obtain ⟨id, status, body, hmem⟩ := h
  exact ⟨id, status, body, replies_run events hmem⟩

/-- What an outage of all endpoints but `e` leaves. -/
structure Outage (e : ℕ) (s : EsploraRun) : Prop where
  /-- The first answer makes it the preferred one. -/
  preferred : s.Answered → s.client.preferred = e
  asked : ∀ x ∈ s.asked, x.2.2.Healthy ↔ x.2.1 = e

namespace Outage

variable {e : ℕ}

theorem start (e : ℕ) (c : EsploraClient) : Outage e (start c) :=
  by
  refine ⟨fun hanswered => ?_, fun x hx => absurd hx List.not_mem_nil⟩
  obtain ⟨id, status, body, hmem⟩ := hanswered
  exact absurd hmem List.not_mem_nil

theorem step (h : Outage e s) {i : EsploraEvent} (halone : Alone e s i) : Outage e (s.step i) := by
  cases i with
  | call path body =>
    rw [step_call]
    refine ⟨fun hanswered => ?_, ?_⟩
    · rw [next_client]
      obtain ⟨id, status, body', hmem⟩ := hanswered
      obtain hmem | ⟨-, heq⟩ := mem_next.mp hmem
      · exact h.preferred ⟨id, status, body', hmem⟩
      · -- no request begins with an answer
        obtain ⟨-, message, hreq⟩ | ⟨-, hreq⟩ := s.client.req_cases path body <;>
          rw [hreq] at heq <;> cases heq
    · rw [next_asked]
      exact h.asked
  | fetched id f =>
    cases hr : s.pending.get? id with
    | none =>
      rw [step_none hr]
      exact h
    | some r =>
      have hat := halone r hr
      rw [step_some hr]
      refine ⟨fun hanswered => ?_, ?_⟩
      · rw [next_client]
        show (s.client.onFetched r f).1.preferred = e
        obtain ⟨status, body, rfl, hlt, heq⟩ | ⟨-, err, heq⟩ := s.client.onFetched_cases r f
        · rw [heq]
          exact hat.mp hlt
        · rw [heq]
          obtain ⟨id', status, body, hmem⟩ := hanswered
          obtain hmem | ⟨-, hreply⟩ := mem_next.mp hmem
          · exact h.preferred ⟨id', status, body, hmem⟩
          · -- a request that goes on, or gives up, is not answered
            rw [heq] at hreply
            obtain ⟨-, hover⟩ | ⟨-, message, hover⟩ := s.client.failOver_cases r err <;>
              rw [hover] at hreply <;> cases hreply
      · rw [next_asked]
        intro x hx
        obtain hx | hx := List.mem_append.mp hx
        · exact h.asked x hx
        · rw [List.mem_singleton.mp hx]
          exact hat

theorem run (h : Outage e s) {events : List EsploraEvent} (halone : Along EsploraRun.step (Alone e) s events) :
    Outage e (Runs.run EsploraRun.step s events) :=
  inv_of_along (fun _ _ h halone => h.step halone) h halone

end Outage

/-- A request that begins at the endpoint which alone answers asks no other. -/
theorem Ended.asked_eq {c : EsploraClient} {asks : List (ℕ × Fetched)} {status e : ℕ} {body : String}
    (h : Ended c asks (.response status body)) (halone : ∀ e' f, (e', f) ∈ asks → (f.Healthy ↔ e' = e))
    (hpick : c.pick 0 = e) : asks = [(e, .responded status body)] := by
  obtain ⟨hlt, e', hlast⟩ := h.answered status body rfl
  cases asks with
  | nil => cases hlast
  | cons a rest =>
    have hhead : a.1 = e := by
      have horder := congrArg List.head? h.order
      rw [List.length_cons, List.range_succ_eq_map, List.map_cons, List.map_cons] at horder
      exact (Option.some.inj horder).trans hpick
    cases rest with
    | nil =>
      obtain rfl : a = (e', .responded status body) := Option.some.inj hlast
      have heq : e' = e := hhead
      rw [heq]
    | cons b rest =>
      have hsick := h.failed a List.mem_cons_self
      exact absurd ((halone a.1 a.2 List.mem_cons_self).mpr hhead) hsick

/-- Once it is preferred, nobody moves it. -/
theorem unmoved_of_answered {e : ℕ} {events : List EsploraEvent} (h : Outage e s) (hanswered : s.Answered)
    (halone : Along step (Alone e) s events) (id : ℕ) : Along step (Unmoved id) s events := by
  induction events generalizing s with
  | nil => trivial
  | cons i events ih =>
    refine ⟨?_, ih (h.step halone.1) (hanswered.run [i]) halone.2⟩
    cases i with
    | call path body => trivial
    | fetched id' f =>
      intro r hr _ _ hf
      rw [h.preferred hanswered]
      exact (halone.1 r hr).mp hf

/-- Where nobody was answered, nobody moved it. -/
theorem unmoved_of_not_answered {events : List EsploraEvent} (hnone : ¬(run step s events).Answered) (id : ℕ) :
    Along step (Unmoved id) s events := by
  induction events generalizing s with
  | nil => trivial
  | cons i events ih =>
    refine ⟨?_, ih hnone⟩
    cases i with
    | call path body => trivial
    | fetched id' f =>
      intro r hr _ _ hf
      refine absurd (Answered.run ?_ events) hnone
      obtain ⟨status, body, rfl, -, heq⟩ | ⟨hsick, -⟩ := s.client.onFetched_cases r f
      · refine ⟨id', status, body, ?_⟩
        rw [step_some hr]
        exact mem_next.mpr (Or.inr ⟨rfl, congrArg Prod.snd heq⟩)
      · exact absurd hf hsick

/-- **An outage costs the requests that it catches under way.** While one endpoint alone answers, a request
that is made after some request was answered asks it at once and is answered, whatever the others do; a
request that fails was made before that, and another's answer came before its end. -/
theorem outage_survived {e : ℕ} {opts : EsploraOptions} (he : e < (EsploraClient.new opts).bases.length)
    {before events : List EsploraEvent} {path : String} {body : Option String}
    (halone : Along step (Alone e) (start (.new opts)) (before ++ .call path body :: events))
    (hs : s = run step (start (.new opts)) before)
    (hreply : (s.made, reply) ∈ (run step (s.step (.call path body)) events).replies) :
    (s.Answered → ∃ status body', reply = .response status body' ∧
        (run step (s.step (.call path body)) events).askedOf s.made = [(e, .responded status body')]) ∧
      ∀ message, reply = .error message →
        ¬s.Answered ∧ (run step (s.step (.call path body)) events).Answered := by
  obtain ⟨hbefore, hafter⟩ := along_append.mp halone
  rw [← hs] at hafter
  have houtage : Outage e s := hs ▸ (Outage.start e _).run hbefore
  have hstep : Outage e (s.step (.call path body)) := houtage.step hafter.1
  have hasked : ∀ e' f, (e', f) ∈ (run step (s.step (.call path body)) events).askedOf s.made →
      (f.Healthy ↔ e' = e) :=
    fun e' f hmem => (hstep.run hafter.2).asked (s.made, e', f) (mem_askedOf.mp hmem)
  have hbases : s.client.bases = (EsploraClient.new opts).bases := by
    rw [hs]
    exact bases_run _ before
  have hended : Along step (Unmoved s.made) (s.step (.call path body)) events →
      Ended s.client ((run step (s.step (.call path body)) events).askedOf s.made) reply :=
    fun hcalm => fails_asked_all ⟨opts, before, hs⟩ path body hcalm hreply
  -- it does not fail as long as it is not turned back
  have hanswer : Along step (Unmoved s.made) (s.step (.call path body)) events →
      ∀ message, reply ≠ .error message := by
    intro hcalm message heq
    obtain ⟨f, hmem, hsick⟩ := (hended hcalm).gaveUp message heq e (hbases ▸ he)
    exact hsick ((hasked e f hmem).mpr rfl)
  have hfirst : s.Answered → Along step (Unmoved s.made) (s.step (.call path body)) events :=
    fun hanswered => unmoved_of_answered hstep (hanswered.run [.call path body]) hafter.2 s.made
  refine ⟨fun hanswered => ?_, fun message heq => ⟨fun hanswered => ?_, ?_⟩⟩
  · cases reply with
    | error message => exact absurd rfl (hanswer (hfirst hanswered) message)
    | response status body' =>
      refine ⟨status, body', rfl, ?_⟩
      refine (hended (hfirst hanswered)).asked_eq hasked ?_
      rw [EsploraClient.pick, houtage.preferred hanswered, Nat.add_zero]
      exact Nat.mod_eq_of_lt (hbases ▸ he)
  · exact hanswer (hfirst hanswered) message heq
  · by_contra hnone
    exact hanswer (unmoved_of_not_answered hnone s.made) message heq

/-- The theorem at a request that is made once the second of two endpoints was found to be up. -/
theorem outage_survived_second :
    (run step ((run step (start (.new twoBases)) [.call "/tx" none, .fetched 0 (.thrown "down"),
      .fetched 0 (.responded 200 "\x7b\x7d")]).step (.call "/tx" none)) [.fetched 1 (.responded 404 "")]).askedOf 1
        = [(1, .responded 404 "")] := by
  have halone : Along step (Alone 1) (start (.new twoBases)) ([.call "/tx" none,
      .fetched 0 (.thrown "down"), .fetched 0 (.responded 200 "\x7b\x7d")]
        ++ .call "/tx" none :: [.fetched 1 (.responded 404 "")]) := by
    decide
  have hreply : (1, Reply.response 404 "") ∈ (run step ((run step (start (.new twoBases)) [.call "/tx" none,
      .fetched 0 (.thrown "down"), .fetched 0 (.responded 200 "\x7b\x7d")]).step (.call "/tx" none))
        [.fetched 1 (.responded 404 "")]).replies := by
    decide
  obtain ⟨status, body, heq, hasked⟩ := (outage_survived (by decide) halone rfl hreply).1
    ⟨0, 200, "\x7b\x7d", by decide⟩
  obtain ⟨rfl, rfl⟩ := Reply.response.inj heq
  exact hasked

end EsploraRun

end Gavl
