import Gavl.Sync.NostrTheorems

/-!
# What is believed of the peers

Which address a producer has, which peers are known and which are live: each belief rests on an event
that came in under the peer's key.
-/

namespace Gavl

open Runs

namespace NostrTransport

variable {C : Crypto} {t t' : NostrTransport} {pk : String} {n : ℕ}

/-- The event says that its key is that of a producer, and carries the producer's signature of it. -/
def Signs (C : Crypto) (network : String) (ev : NostrEvent) (producer : String) : Prop :=
  ∃ body sig, Json.parse ev.content = some body ∧ body.string? "producer" = some producer ∧
    body.string? "sig" = some sig ∧
    C.edVerify (fromHex producer) (bindingMessage network ev.pubkey) (fromHex sig) = true

theorem signs_of_producerOf {ev : NostrEvent} {producer : String}
    (h : t.producerOf C ev = some producer) : Signs C t.network ev producer := by
  unfold producerOf at h
  split at h
  · cases h
  · rename_i body hbody
    split at h
    · rename_i p sig hproducer hsig
      split_ifs at h with hverified
      obtain rfl := Option.some.inj h
      exact ⟨body, sig, hbody, hproducer, hsig, hverified.2.2⟩
    · cases h

/-- What is believed after some steps rests on events of these. -/
structure Backed (C : Crypto) (me network : String) (l : List NostrStep) (t : NostrTransport) :
    Prop where
  myPubkey : t.myPubkey = me
  network_eq : t.network = network
  bound : ∀ producer pk, t.producerToAddress.get? producer = some pk → pk ≠ me ∧
    ∃ now ev, .presence now ev ∈ l ∧ ev.pubkey = pk ∧ now - ev.createdAt * 1000 ≤ presenceTtlMs ∧
      Signs C network ev producer
  heard : ∀ pk time, t.lastFrame.get? pk = some time → pk ≠ me ∧
    ∃ ev, .wire time ev ∈ l ∧ ev.pubkey = pk
  seen : ∀ pk s, t.seen.get? pk = some s → pk ≠ me ∧
    ∃ ev, (.presence s.at ev ∈ l ∨ .wire s.at ev ∈ l) ∧ ev.pubkey = pk

/-- What is believed of the peers is the same, or less. -/
structure NoMore (t t' : NostrTransport) : Prop where
  myPubkey : t'.myPubkey = t.myPubkey
  network : t'.network = t.network
  bound : t'.producerToAddress = t.producerToAddress
  heard : ∀ pk time, t'.lastFrame.get? pk = some time → t.lastFrame.get? pk = some time
  seen : ∀ pk s, t'.seen.get? pk = some s → t.seen.get? pk = some s

theorem noMore_rfl (t : NostrTransport) : NoMore t t :=
  ⟨rfl, rfl, rfl, fun _ _ h => h, fun _ _ h => h⟩

theorem NoMore.trans {t'' : NostrTransport} (h : NoMore t t') (h' : NoMore t' t'') : NoMore t t'' :=
  ⟨h'.myPubkey.trans h.myPubkey, h'.network.trans h.network, h'.bound.trans h.bound,
    fun pk time hget => h.heard pk time (h'.heard pk time hget),
    fun pk s hget => h.seen pk s (h'.seen pk s hget)⟩

theorem noMore_activate (t : NostrTransport) (pk : String) : NoMore t (t.activate pk).1 := by
  obtain ⟨active, links, heq⟩ := activate_eq t pk
  rw [heq]
  exact ⟨rfl, rfl, rfl, fun _ _ h => h, fun _ _ h => h⟩

theorem noMore_deliver (t : NostrTransport) (pk : String) (json : List Char) :
    NoMore t (t.deliver pk json) := by
  have hactivate := noMore_activate t pk
  obtain heq | heq | ⟨msg, n, -, -, heq⟩ := deliver_cases t pk json
  · rw [heq]
    exact noMore_rfl t
  · rw [heq]
    exact hactivate
  · rw [heq]
    exact ⟨hactivate.1, hactivate.2, hactivate.3, hactivate.4, hactivate.5⟩

theorem noMore_sweepStale (now : ℤ) (t : NostrTransport) : NoMore t (t.sweepStale now) := by
  have hdelete : ∀ {ν : Type} (m : OrderedMap String ν) (k pk : String) (v : ν),
      (m.delete k).get? pk = some v → m.get? pk = some v := by
    intro ν m k pk v h
    rw [OrderedMap.get?_delete] at h
    split_ifs at h
    exact h
  unfold sweepStale
  generalize t.seen.entries = l
  induction l generalizing t with
  | nil => exact noMore_rfl t
  | cons e l ih =>
    refine NoMore.trans ?_ (ih _)
    unfold sweepPeer
    split_ifs
    · exact noMore_rfl t
    · have hforgot : NoMore t
          { t with seen := t.seen.delete e.1, lastFrame := t.lastFrame.delete e.1 } :=
        ⟨rfl, rfl, rfl, fun pk time h => hdelete t.lastFrame e.1 pk time h,
          fun pk s h => hdelete t.seen e.1 pk s h⟩
      refine hforgot.trans ?_
      generalize { t with seen := t.seen.delete e.1, lastFrame := t.lastFrame.delete e.1 } = t'
      show NoMore t' (if e.1 ∈ t'.pinned then t' else t'.dropPeer e.1)
      split_ifs
      · exact noMore_rfl t'
      · obtain ⟨active, links, heq⟩ := dropPeer_eq t' e.1
        rw [heq]
        exact ⟨rfl, rfl, rfl, fun _ _ h => h, fun _ _ h => h⟩

variable {me network : String} {l : List NostrStep}

theorem Backed.mono {l' : List NostrStep} (h : Backed C me network l t) (hsub : l ⊆ l')
    (ht : NoMore t t') : Backed C me network l' t' := by
  refine ⟨ht.myPubkey.trans h.myPubkey, ht.network.trans h.network_eq, fun producer pk hget => ?_,
    fun pk time hget => ?_, fun pk s hget => ?_⟩
  · rw [ht.bound] at hget
    obtain ⟨hother, now, ev, hmem, hrest⟩ := h.bound producer pk hget
    exact ⟨hother, now, ev, hsub hmem, hrest⟩
  · obtain ⟨hother, ev, hmem, hkey⟩ := h.heard pk time (ht.heard pk time hget)
    exact ⟨hother, ev, hsub hmem, hkey⟩
  · obtain ⟨hother, ev, hmem, hkey⟩ := h.seen pk s (ht.seen pk s hget)
    exact ⟨hother, ev, hmem.imp (fun hev => hsub hev) (fun hev => hsub hev), hkey⟩

/-- A presence event, which is remembered with its producer. -/
theorem Backed.onPresence (h : Backed C me network l t) (now : ℤ) (ev : NostrEvent) :
    Backed C me network (l ++ [.presence now ev]) (t.onPresence C now ev) := by
  have hsub : l ⊆ l ++ [.presence now ev] := List.subset_append_left _ _
  have hlast : NostrStep.presence now ev ∈ l ++ [.presence now ev] :=
    List.mem_append_right _ (List.mem_singleton.mpr rfl)
  unfold NostrTransport.onPresence
  split_ifs with hself hstale
  · exact h.mono hsub (noMore_rfl t)
  · exact h.mono hsub (noMore_rfl t)
  rw [Bool.or_eq_true, not_or, decide_eq_true_eq, h.myPubkey] at hself
  have hsaw : ∀ t' : NostrTransport, Backed C me network (l ++ [.presence now ev]) t' → ∀ producer,
      Backed C me network (l ++ [.presence now ev])
        { t' with seen := t'.seen.set ev.pubkey ⟨producer, now⟩ } := by
    intro t' h' producer
    refine ⟨h'.myPubkey, h'.network_eq, h'.bound, h'.heard, fun pk s hget => ?_⟩
    change (t'.seen.set ev.pubkey ⟨producer, now⟩).get? pk = some s at hget
    rw [OrderedMap.get?_set] at hget
    split_ifs at hget with hkey
    · obtain rfl := Option.some.inj hget
      exact ⟨hkey ▸ hself.2, ev, Or.inl hlast, hkey⟩
    · exact h'.seen pk s hget
  have hkept := h.mono hsub (noMore_rfl t)
  -- what it claims without a signature is not remembered of the producer
  cases hproducer : t.producerOf C ev with
  | none => exact (hsaw t hkept none).mono (List.Subset.refl _) (noMore_activate _ _)
  | some p =>
    refine (hsaw { t with producerToAddress := t.producerToAddress.set p ev.pubkey }
      ⟨hkept.myPubkey, hkept.network_eq, fun producer pk hget => ?_, hkept.heard, hkept.seen⟩
      (some p)).mono (List.Subset.refl _) (noMore_activate _ _)
    change (t.producerToAddress.set p ev.pubkey).get? producer = some pk at hget
    rw [OrderedMap.get?_set] at hget
    split_ifs at hget with hsame
    · obtain rfl := Option.some.inj hget
      have hsigns := signs_of_producerOf hproducer
      rw [h.network_eq, hsame] at hsigns
      exact ⟨hself.2, now, ev, hlast, rfl, not_lt.mp hstale, hsigns⟩
    · exact hkept.bound producer pk hget

/-- A frame, which counts as heard when it came. -/
theorem Backed.onWire (h : Backed C me network l t) (now : ℤ) (ev : NostrEvent) :
    Backed C me network (l ++ [.wire now ev]) (t.onWire now ev) := by
  have hsub : l ⊆ l ++ [.wire now ev] := List.subset_append_left _ _
  have hlast : NostrStep.wire now ev ∈ l ++ [.wire now ev] :=
    List.mem_append_right _ (List.mem_singleton.mpr rfl)
  have hkept := h.mono hsub (noMore_rfl t)
  by_cases hself : (t.destroyed || decide (ev.pubkey = t.myPubkey)) = true
  · unfold NostrTransport.onWire
    rw [if_pos hself]
    exact hkept
  rw [Bool.or_eq_true, not_or, decide_eq_true_eq, h.myPubkey] at hself
  have hheard : Backed C me network (l ++ [.wire now ev]) (t.heard now ev.pubkey) := by
    refine ⟨hkept.myPubkey, hkept.network_eq, hkept.bound, fun pk time hget => ?_, fun pk s hget => ?_⟩
    · change (t.lastFrame.set ev.pubkey now).get? pk = some time at hget
      rw [OrderedMap.get?_set] at hget
      split_ifs at hget with hkey
      · obtain rfl := Option.some.inj hget
        exact ⟨hkey ▸ hself.2, ev, hlast, hkey⟩
      · exact hkept.heard pk time hget
    · -- a frame of a peer that was seen does not make it seen anew
      change (if t.seen.has ev.pubkey then t.seen else t.seen.set ev.pubkey ⟨none, now⟩).get? pk
        = some s at hget
      split_ifs at hget
      · exact hkept.seen pk s hget
      · rw [OrderedMap.get?_set] at hget
        split_ifs at hget with hkey
        · obtain rfl := Option.some.inj hget
          exact ⟨hkey ▸ hself.2, ev, Or.inr hlast, hkey⟩
        · exact hkept.seen pk s hget
  have hreasm : ∀ r, Backed C me network (l ++ [.wire now ev])
      { t.heard now ev.pubkey with reasm := r } := fun r =>
    ⟨hheard.myPubkey, hheard.network_eq, hheard.bound, hheard.heard, hheard.seen⟩
  obtain heq | ⟨heq, -⟩ | ⟨gc, r, -, -, ⟨-, heq⟩ | ⟨json, -, heq⟩⟩ := onWire_cases t now ev
  · rw [heq]
    exact hkept
  · rw [heq]
    exact hheard.mono (List.Subset.refl _) (noMore_deliver _ _ _)
  · rw [heq]
    exact hreasm r.1
  · rw [heq]
    exact (hreasm r.1).mono (List.Subset.refl _) (noMore_deliver _ _ _)

theorem Backed.step (h : Backed C me network l t) (i : NostrStep) :
    Backed C me network (l ++ [i]) (t.step C i) := by
  have hsub : l ⊆ l ++ [i] := List.subset_append_left _ _
  cases i with
  | presence now ev => exact h.onPresence now ev
  | wire now ev => exact h.onWire now ev
  | send n now msg =>
    refine h.mono hsub ?_
    show NoMore t (t.send n now msg)
    unfold send publishDirect
    cases t.links[n]? with
    | none => exact noMore_rfl t
    | some link =>
      simp only
      split_ifs
      · exact noMore_rfl t
      · exact noMore_rfl t
      · cases splitPayload msg.stringify maxContent with
        | error e => exact noMore_rfl t
        | ok parts => cases parts <;> exact ⟨rfl, rfl, rfl, fun _ _ h => h, fun _ _ h => h⟩
  | dial peerAddr =>
    refine h.mono hsub ?_
    show NoMore t (t.dialPeer peerAddr)
    unfold dialPeer
    simp only
    generalize String.ofList (List.map Char.toLower _) = pk
    split_ifs
    · exact noMore_rfl t
    · exact noMore_activate t pk
    · have hmore : NoMore t { t with pinned := t.pinned ++ [pk] } :=
        ⟨rfl, rfl, rfl, fun _ _ h => h, fun _ _ h => h⟩
      exact hmore.trans (noMore_activate _ pk)
  | sweep now => exact h.mono hsub (noMore_sweepStale now t)
  | closed n => exact h.mono hsub ⟨rfl, rfl, rfl, fun _ _ h => h, fun _ _ h => h⟩
  | destroy => exact h.mono hsub ⟨rfl, rfl, rfl, fun _ _ h => h, fun _ _ h => h⟩

/-- **Beliefs are backed.** After any events, an address is believed to be that of a producer only if a
presence event of the address, then no older than the limit, carried the producer's signature for it on
this network; a peer counts as live only if a frame of it came in the last `ms`; and one that is known
was seen or heard. The node never believes anything of its own address. -/
theorem beliefs_backed (me network idPrefix : String) (maxPeers : ℕ) (steps : List NostrStep) :
    (∀ producer pk,
      (run (step C) (new me network idPrefix maxPeers) steps).producerToAddress.get? producer
          = some pk → pk ≠ me ∧
        ∃ now ev, .presence now ev ∈ steps ∧ ev.pubkey = pk ∧
          now - ev.createdAt * 1000 ≤ presenceTtlMs ∧ Signs C network ev producer) ∧
    (∀ ms now, ∀ pk ∈ (run (step C) (new me network idPrefix maxPeers) steps).livePeerAddrs ms now,
      pk ≠ me ∧ ∃ time ev, .wire time ev ∈ steps ∧ ev.pubkey = pk ∧ now - time ≤ ms) ∧
    ∀ pk ∈ (run (step C) (new me network idPrefix maxPeers) steps).seen.keys,
      pk ≠ me ∧ ∃ time ev, (.presence time ev ∈ steps ∨ .wire time ev ∈ steps) ∧ ev.pubkey = pk := by
  have hbacked : Backed C me network steps
      (run (step C) (new me network idPrefix maxPeers) steps) := by
    induction steps using List.reverseRecOn with
    | nil =>
      refine ⟨rfl, rfl, fun producer pk h => ?_, fun pk time h => ?_, fun pk s h => ?_⟩
      · cases h
      · cases h
      · cases h
    | append_singleton l i ih =>
      rw [run_append]
      exact ih.step i
  refine ⟨hbacked.bound, fun ms now pk hpk => ?_, fun pk hpk => ?_⟩
  · obtain ⟨time, htime⟩ := (OrderedMap.mem_keys _ _).mp hpk
    rw [OrderedMap.get?_filter, Option.filter_eq_some_iff] at htime
    obtain ⟨hother, ev, hmem, hkey⟩ := hbacked.heard pk time htime.1
    exact ⟨hother, time, ev, hmem, hkey, of_decide_eq_true htime.2⟩
  · obtain ⟨s, hs⟩ := (OrderedMap.mem_keys _ _).mp hpk
    obtain ⟨hother, ev, hmem, hkey⟩ := hbacked.seen pk s hs
    exact ⟨hother, s.at, ev, hmem, hkey⟩

end NostrTransport

end Gavl
