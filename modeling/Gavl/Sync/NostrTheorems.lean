import Gavl.Lib.MapTotals
import Gavl.Lib.Runs
import Gavl.Sync.Nostr

/-!
# The peer set

Whatever events come in and in whatever order, a peer has one open link at most, the unpinned peers are
no more than the cap, and a pinned peer keeps its slot.
-/

namespace Gavl

open Runs

namespace NostrTransport

variable {C : Crypto} {t t' : NostrTransport} {pk : String} {n : ℕ}

/-- The active peers that count against the cap. -/
def unpinned (t : NostrTransport) : OrderedMap String ℕ :=
  t.active.filter (fun pk _ => decide (pk ∉ t.pinned))

/-- What holds of the links. -/
structure Slots (t : NostrTransport) : Prop where
  /-- There is no link to oneself. -/
  self : t.active.get? t.myPubkey = none
  link : ∀ pk n, t.active.get? pk = some n → ∃ l, t.links[n]? = some l ∧ l.peerKey = pk
  /-- An open link is the one its peer has. -/
  owner : ∀ n l, t.links[n]? = some l → l.closed = false → t.active.get? l.peerKey = some n
  cap : t.unpinned.size ≤ t.maxPeers
  away : t.destroyed = true → t.active = ∅

/-- What holds of the peer set between events. -/
structure Peers (t : NostrTransport) : Prop extends Slots t where
  /-- A pin keeps a slot. -/
  pins : t.destroyed = false → ∀ pk ∈ t.pinned, t.active.has pk = true

theorem peers_new (me network idPrefix : String) (maxPeers : ℕ) :
    Peers (new me network idPrefix maxPeers) where
  self := rfl
  link pk n h := by cases h
  owner n l h := by cases h
  cap := Nat.zero_le _
  pins _ pk h := by cases h
  away _ := rfl

/-- A later state: links only come, and close. -/
structure Later (t t' : NostrTransport) : Prop where
  myPubkey : t'.myPubkey = t.myPubkey
  maxPeers : t'.maxPeers = t.maxPeers
  links : ∀ (n : ℕ) (l : NostrConnection), t.links[n]? = some l →
    ∃ l' : NostrConnection, t'.links[n]? = some l' ∧ l'.peerKey = l.peerKey

theorem Later.refl (t : NostrTransport) : Later t t :=
  ⟨rfl, rfl, fun _ l hl => ⟨l, hl, rfl⟩⟩

theorem Later.trans {t'' : NostrTransport} (h : Later t t') (h' : Later t' t'') : Later t t'' := by
  refine ⟨h'.myPubkey.trans h.myPubkey, h'.maxPeers.trans h.maxPeers, fun n l hl => ?_⟩
  obtain ⟨l', hl', hkey⟩ := h.links n l hl
  obtain ⟨l'', hl'', hkey'⟩ := h'.links n l' hl'
  exact ⟨l'', hl'', hkey'.trans hkey⟩

/-! ## Slots -/

/-- A link that is closed keeps its number and its peer. -/
theorem getElem?_closeLink (t : NostrTransport) (n m : ℕ) : (t.closeLink n).links[m]?
    = (t.links[m]?).map (fun l => if n = m then { l with closed := true } else l) := by
  show (t.links.modify n _)[m]? = _
  rw [List.getElem?_modify]
  split_ifs
  · rfl
  · cases t.links[m]? <;> rfl

theorem unpinned_size (t : NostrTransport) :
    t.unpinned.size = t.active.total (fun pk _ => if pk ∈ t.pinned then 0 else 1) := by
  unfold unpinned
  rw [OrderedMap.size_filter]
  refine OrderedMap.total_congr fun e _ => ?_
  by_cases he : e.1 ∈ t.pinned <;> simp [he]

/-- The peers but one that count against the cap. -/
def others (t : NostrTransport) (pk : String) : ℕ :=
  (t.active.delete pk).total (fun pk _ => if pk ∈ t.pinned then 0 else 1)

theorem unpinned_size_of_get? (h : t.active.get? pk = some n) :
    t.unpinned.size = t.others pk + if pk ∈ t.pinned then 0 else 1 := by
  rw [unpinned_size]
  exact OrderedMap.total_of_get? _ h

theorem others_le (t : NostrTransport) (pk : String) : t.others pk ≤ t.unpinned.size := by
  cases h : t.active.get? pk with
  | none =>
    unfold others
    rw [OrderedMap.delete_of_none h, unpinned_size]
  | some n =>
    rw [unpinned_size_of_get? h]
    omega

theorem later_closeLink (t : NostrTransport) (n : ℕ) : Later t (t.closeLink n) := by
  refine ⟨rfl, rfl, fun m l hl => ?_⟩
  rw [getElem?_closeLink, hl]
  refine ⟨_, rfl, ?_⟩
  split_ifs <;> rfl

theorem later_dropPeer (t : NostrTransport) (pk : String) : Later t (t.dropPeer pk) := by
  unfold NostrTransport.dropPeer
  cases t.active.get? pk with
  | none => exact Later.refl t
  | some n =>
    obtain ⟨hkey, hmax, hlinks⟩ := later_closeLink { t with active := t.active.delete pk } n
    exact ⟨hkey, hmax, hlinks⟩

theorem Slots.closeLink (h : Slots t) (n : ℕ) : Slots (t.closeLink n) := by
  refine ⟨h.self, fun pk m hm => ?_, fun m l hl hopen => ?_, h.cap, h.away⟩
  · obtain ⟨l, hl, rfl⟩ := h.link pk m hm
    rw [getElem?_closeLink, hl]
    refine ⟨_, rfl, ?_⟩
    split_ifs <;> rfl
  · rw [getElem?_closeLink] at hl
    obtain ⟨l', hl', rfl⟩ := Option.map_eq_some_iff.mp hl
    split_ifs at hopen ⊢ with hn
    exact h.owner m l' hl' hopen

/-- The other peers keep their links. -/
theorem get?_dropPeer {pk' : String} (hne : pk ≠ pk') :
    (t.dropPeer pk).active.get? pk' = t.active.get? pk' := by
  unfold NostrTransport.dropPeer
  cases t.active.get? pk with
  | none => rfl
  | some n =>
    show (t.active.delete pk).get? pk' = _
    rw [OrderedMap.get?_delete, if_neg hne]

theorem Slots.dropPeer (h : Slots t) (pk : String) : Slots (t.dropPeer pk) := by
  unfold NostrTransport.dropPeer
  cases hget : t.active.get? pk with
  | none => exact h
  | some n =>
    show Slots ({ t with active := t.active.delete pk }.closeLink n)
    refine ⟨?_, fun pk' m hm => ?_, fun m l hl hopen => ?_, ?_, fun hd => ?_⟩
    · show (t.active.delete pk).get? t.myPubkey = none
      rw [OrderedMap.get?_delete, h.self, ite_self]
    · change (t.active.delete pk).get? pk' = some m at hm
      rw [OrderedMap.get?_delete] at hm
      split_ifs at hm
      obtain ⟨l, hl, rfl⟩ := h.link pk' m hm
      obtain ⟨l', hl', hkey⟩ :=
        (later_closeLink { t with active := t.active.delete pk } n).links m l hl
      exact ⟨l', hl', hkey⟩
    · rw [getElem?_closeLink] at hl
      obtain ⟨l', hl', rfl⟩ := Option.map_eq_some_iff.mp hl
      change t.links[m]? = some l' at hl'
      split_ifs at hopen ⊢ with hn
      have howner := h.owner m l' hl' hopen
      show (t.active.delete pk).get? l'.peerKey = some m
      rw [OrderedMap.get?_delete, if_neg, howner]
      -- the only open link of the peer is the one that is closed
      rintro rfl
      rw [hget] at howner
      exact hn (Option.some.inj howner)
    · have hle := t.others_le pk
      show (OrderedMap.size _) ≤ t.maxPeers
      rw [unpinned_size]
      exact hle.trans h.cap
    · rw [h.away hd] at hget
      cases hget

/-! ## Making room -/

/-- The peer that has to go is active, and not pinned. -/
theorem leastRecent_mem (h : t.leastRecent = some pk) : pk ∈ t.active.keys ∧ pk ∉ t.pinned := by
  unfold leastRecent at h
  obtain ⟨e, he, rfl⟩ := Option.map_eq_some_iff.mp h
  -- so is every peer the loop holds on to
  refine List.foldlRecOn t.active.keys _
    (motive := fun oldest => ∀ e, oldest = some e → e.1 ∈ t.active.keys ∧ e.1 ∉ t.pinned)
    (fun e hnone => by cases hnone) (fun oldest hold pk hpk e hnext => ?_) e he
  split_ifs at hnext with hpinned
  · exact hold e hnext
  · cases oldest with
    | none =>
      obtain rfl := Option.some.inj hnext
      exact ⟨hpk, hpinned⟩
    | some best =>
      obtain ⟨key, time⟩ := best
      simp only at hnext
      split_ifs at hnext with hless
      · obtain rfl := Option.some.inj hnext
        exact ⟨hpk, hpinned⟩
      · exact hold e hnext

/-- Room is made by taking one unpinned peer away. -/
theorem evictLRU_spec (h : t.evictLRU = some t') :
    ∃ pk n, t.active.get? pk = some n ∧ pk ∉ t.pinned ∧ t' = t.dropPeer pk := by
  unfold evictLRU at h
  obtain ⟨pk, hpk, rfl⟩ := Option.map_eq_some_iff.mp h
  obtain ⟨hleast, -⟩ := Option.filter_eq_some_iff.mp hpk
  obtain ⟨hmem, hpinned⟩ := leastRecent_mem hleast
  obtain ⟨n, hn⟩ := (OrderedMap.mem_keys _ _).mp hmem
  exact ⟨pk, n, hn, hpinned, rfl⟩

/-- A peer that has no link, or a closed one. -/
def NoOpen (t : NostrTransport) (pk : String) : Prop :=
  ∀ (n : ℕ) (l : NostrConnection), t.links[n]? = some l → l.peerKey = pk → l.closed = true

theorem getElem?_connect (t : NostrTransport) (pk : String) (m : ℕ) :
    (t.connect pk).1.links[m]? = if m = t.links.length then some ⟨pk, false⟩ else t.links[m]? := by
  show (t.links ++ [_])[m]? = _
  split_ifs with hm
  · rw [hm, List.getElem?_concat_length]
  · by_cases hlt : m < t.links.length
    · rw [List.getElem?_append_left hlt]
    · rw [List.getElem?_eq_none (by simp; omega), List.getElem?_eq_none (by omega)]

theorem later_connect (t : NostrTransport) (pk : String) : Later t (t.connect pk).1 := by
  refine ⟨rfl, rfl, fun n l hl => ⟨l, ?_, rfl⟩⟩
  have hlt : n < t.links.length := (List.getElem?_eq_some_iff.mp hl).1
  rw [getElem?_connect, if_neg (by omega), hl]

/-- A new link, where the peer has no open one and there is a slot for it. -/
theorem Slots.connect (h : Slots t) (hlive : t.destroyed = false) (hpk : pk ≠ t.myPubkey)
    (hclosed : t.NoOpen pk)
    (hroom : t.others pk + (if pk ∈ t.pinned then 0 else 1) ≤ t.maxPeers) :
    Slots (t.connect pk).1 := by
  have hactive : ∀ pk', (t.connect pk).1.active.get? pk'
      = if pk = pk' then some t.links.length else t.active.get? pk' := fun pk' =>
    OrderedMap.get?_set _ _ _ _
  refine ⟨?_, fun pk' m hm => ?_, fun m l hl hopen => ?_, ?_, fun hd => ?_⟩
  · rw [hactive]
    exact (if_neg hpk).trans h.self
  · rw [hactive] at hm
    rw [getElem?_connect]
    split_ifs at hm with hsame
    · obtain rfl := Option.some.inj hm
      rw [if_pos rfl]
      exact ⟨_, rfl, hsame⟩
    · obtain ⟨l, hl, rfl⟩ := h.link pk' m hm
      have hlt : m < t.links.length := (List.getElem?_eq_some_iff.mp hl).1
      rw [if_neg (by omega), hl]
      exact ⟨l, rfl, rfl⟩
  · rw [getElem?_connect] at hl
    rw [hactive]
    split_ifs at hl with hm
    · obtain rfl := Option.some.inj hl
      rw [if_pos rfl, hm]
    · rw [if_neg, h.owner m l hl hopen]
      rintro rfl
      rw [hclosed m l hl rfl] at hopen
      cases hopen
  · rw [unpinned_size]
    show (t.active.set pk t.links.length).total _ ≤ t.maxPeers
    rw [OrderedMap.total_set]
    exact hroom
  · change t.destroyed = true at hd
    rw [hlive] at hd
    cases hd

/-! ## Activating a peer -/

/-- What activating a peer may do: nothing, or a new link, perhaps in the place of an unpinned peer. -/
inductive Activates (t : NostrTransport) (pk : String) : NostrTransport × Option ℕ → Prop where
  /-- It is the node itself, or there is no slot. -/
  | refused : (t.destroyed = false → pk ≠ t.myPubkey → pk ∉ t.pinned) → Activates t pk (t, none)
  | there {n : ℕ} : t.destroyed = false → t.active.get? pk = some n → t.isOpen n = true →
      Activates t pk (t, some n)
  | free : t.destroyed = false → pk ≠ t.myPubkey → (∀ n, t.active.get? pk = some n → t.isOpen n = false) →
      (t.active.size < t.maxPeers ∨ pk ∈ t.pinned) → Activates t pk (t.connect pk)
  | inPlaceOf {old : String} {n : ℕ} : t.destroyed = false → pk ≠ t.myPubkey →
      (∀ n, t.active.get? pk = some n → t.isOpen n = false) → t.active.get? old = some n →
      old ∉ t.pinned → Activates t pk ((t.dropPeer old).connect pk)

theorem activates (t : NostrTransport) (pk : String) : Activates t pk (t.activate pk) := by
  unfold NostrTransport.activate
  by_cases hself : (t.destroyed || decide (pk = t.myPubkey)) = true
  · rw [if_pos hself]
    rw [Bool.or_eq_true, decide_eq_true_eq] at hself
    refine Activates.refused fun hlive hne => ?_
    rw [hlive] at hself
    exact absurd (hself.resolve_left (by simp)) hne
  · rw [if_neg hself]
    rw [Bool.or_eq_true, decide_eq_true_eq, not_or] at hself
    have hlive : t.destroyed = false := Bool.not_eq_true _ ▸ hself.1
    cases hfound : (t.active.get? pk).filter t.isOpen with
    | some n =>
      obtain ⟨hget, hopen⟩ := Option.filter_eq_some_iff.mp hfound
      exact Activates.there hlive hget hopen
    | none =>
      have hclosed : ∀ n, t.active.get? pk = some n → t.isOpen n = false := fun n hn => by
        rw [Option.filter_eq_none_iff] at hfound
        exact Bool.not_eq_true _ ▸ hfound n hn
      simp only
      split_ifs with hfull
      · cases hevict : t.evictLRU with
        | none => exact Activates.refused fun _ _ => hfull.2
        | some t' =>
          obtain ⟨old, n, hold, hpinned, rfl⟩ := evictLRU_spec hevict
          exact Activates.inPlaceOf hlive hself.2 hclosed hold hpinned
      · refine Activates.free hlive hself.2 hclosed ?_
        rw [not_and_or, not_le, not_not] at hfull
        exact hfull

/-- Only the links change. -/
theorem dropPeer_eq (t : NostrTransport) (pk : String) :
    ∃ active links, t.dropPeer pk = { t with active := active, links := links } := by
  unfold NostrTransport.dropPeer
  cases t.active.get? pk with
  | none => exact ⟨t.active, t.links, rfl⟩
  | some n => exact ⟨_, _, rfl⟩

theorem activate_eq (t : NostrTransport) (pk : String) :
    ∃ active links, (t.activate pk).1 = { t with active := active, links := links } := by
  have hcases := activates t pk
  generalize t.activate pk = r at hcases ⊢
  cases hcases with
  | refused => exact ⟨t.active, t.links, rfl⟩
  | there => exact ⟨t.active, t.links, rfl⟩
  | free => exact ⟨_, _, rfl⟩
  | inPlaceOf =>
    rename_i old _ _ _ _ _ _
    obtain ⟨active, links, heq⟩ := dropPeer_eq t old
    rw [heq]
    exact ⟨_, _, rfl⟩

theorem later_activate (t : NostrTransport) (pk : String) : Later t (t.activate pk).1 := by
  have hcases := activates t pk
  generalize t.activate pk = r at hcases ⊢
  cases hcases with
  | refused => exact Later.refl t
  | there => exact Later.refl t
  | free => exact later_connect t pk
  | inPlaceOf => exact (later_dropPeer t _).trans (later_connect _ pk)

theorem Slots.noOpen (h : Slots t) (hclosed : ∀ n, t.active.get? pk = some n → t.isOpen n = false) :
    t.NoOpen pk := by
  rintro n l hl rfl
  by_contra hopen
  rw [Bool.not_eq_true] at hopen
  have hfalse := hclosed n (h.owner n l hl hopen)
  unfold isOpen at hfalse
  rw [hl] at hfalse
  simp [hopen] at hfalse

theorem NoOpen.dropPeer (h : t.NoOpen pk) (old : String) : (t.dropPeer old).NoOpen pk := by
  unfold NostrTransport.dropPeer
  cases t.active.get? old with
  | none => exact h
  | some n =>
    intro m l hl hkey
    rw [getElem?_closeLink] at hl
    obtain ⟨l', hl', rfl⟩ := Option.map_eq_some_iff.mp hl
    split_ifs at hkey ⊢
    · rfl
    · exact h m l' hl' hkey

/-- An unpinned peer leaves a slot. -/
theorem unpinned_dropPeer (hget : t.active.get? pk = some n) (hpk : pk ∉ t.pinned) :
    t.unpinned.size = (t.dropPeer pk).unpinned.size + 1 := by
  have hdrop : (t.dropPeer pk).unpinned.size = t.others pk := by
    rw [unpinned_size]
    unfold NostrTransport.dropPeer
    rw [hget]
    rfl
  rw [hdrop, unpinned_size_of_get? hget, if_neg hpk]

theorem size_le_of_free (t : NostrTransport) (pk : String) (hfree : t.active.size < t.maxPeers) :
    t.others pk + 1 ≤ t.maxPeers := by
  have hall : t.others pk ≤ (t.active.delete pk).size := by
    rw [← Nat.cast_id (t.active.delete pk).size, ← OrderedMap.total_one]
    refine OrderedMap.total_le fun e _ => ?_
    split_ifs <;> omega
  have hdelete : (t.active.delete pk).size ≤ t.active.size := OrderedMap.size_delete_le
  omega

theorem Slots.activate (h : Slots t) (pk : String) : Slots (t.activate pk).1 := by
  have hcases := activates t pk
  generalize t.activate pk = r at hcases ⊢
  cases hcases with
  | refused => exact h
  | there => exact h
  | free hlive hself hclosed hroom =>
    refine h.connect hlive hself (h.noOpen hclosed) ?_
    split_ifs with hpinned
    · have hle := t.others_le pk
      have hcap := h.cap
      omega
    · exact size_le_of_free t pk (hroom.resolve_right hpinned)
  | inPlaceOf hlive hself hclosed hold hpinned =>
    rename_i old n
    have hslots := h.dropPeer old
    have hnoOpen := (h.noOpen hclosed).dropPeer old
    have hless := unpinned_dropPeer hold hpinned
    have hcap := h.cap
    obtain ⟨active, links, heq⟩ := dropPeer_eq t old
    rw [heq] at hslots hnoOpen hless ⊢
    refine hslots.connect hlive hself hnoOpen ?_
    have hle := others_le { t with active := active, links := links } pk
    change _ ≤ t.maxPeers
    split_ifs <;> omega

/-- The link it gives out is open, and the peer's own. -/
theorem Slots.activate_link (h : Slots t) (hn : (t.activate pk).2 = some n) :
    ∃ l, (t.activate pk).1.links[n]? = some l ∧ l.peerKey = pk ∧ l.closed = false := by
  have hconnect : ∀ t : NostrTransport, (t.connect pk).2 = some n →
      ∃ l, (t.connect pk).1.links[n]? = some l ∧ l.peerKey = pk ∧ l.closed = false := by
    intro t hn
    obtain rfl := Option.some.inj hn
    rw [getElem?_connect, if_pos rfl]
    exact ⟨_, rfl, rfl, rfl⟩
  have hcases := activates t pk
  generalize t.activate pk = r at hn hcases ⊢
  cases hcases with
  | refused => cases hn
  | there hlive hget hopen =>
    obtain rfl := Option.some.inj hn
    obtain ⟨l, hl, hkey⟩ := h.link pk _ hget
    refine ⟨l, hl, hkey, ?_⟩
    unfold isOpen at hopen
    rw [hl] at hopen
    simpa using hopen
  | free => exact hconnect t hn
  | inPlaceOf => exact hconnect _ hn

/-- Pinned peers are not made to go. -/
theorem activate_keeps {pk' : String} (hpinned : pk' ∈ t.pinned) (hhas : t.active.has pk' = true) :
    (t.activate pk).1.active.has pk' = true := by
  have hconnect : ∀ t : NostrTransport, t.active.has pk' = true →
      (t.connect pk).1.active.has pk' = true := by
    intro t hhas
    show ((t.active.set pk t.links.length).get? pk').isSome = true
    rw [OrderedMap.get?_set]
    split_ifs
    · rfl
    · exact hhas
  have hcases := activates t pk
  generalize t.activate pk = r at hcases ⊢
  cases hcases with
  | refused => exact hhas
  | there => exact hhas
  | free => exact hconnect t hhas
  | inPlaceOf hlive hself hclosed hold hold' =>
    refine hconnect _ ?_
    unfold OrderedMap.has at hhas ⊢
    rw [get?_dropPeer, hhas]
    rintro rfl
    exact hold' hpinned

/-- A pinned peer always gets a slot. -/
theorem activate_pinned (hlive : t.destroyed = false) (hself : pk ≠ t.myPubkey)
    (hpinned : pk ∈ t.pinned) : (t.activate pk).1.active.has pk = true := by
  have hconnect : ∀ t : NostrTransport, (t.connect pk).1.active.has pk = true := by
    intro t
    show ((t.active.set pk t.links.length).get? pk).isSome = true
    rw [OrderedMap.get?_set_self]
    rfl
  have hcases := activates t pk
  generalize t.activate pk = r at hcases ⊢
  cases hcases with
  | refused hnot => exact absurd hpinned (hnot hlive hself)
  | there _ hget _ =>
    unfold OrderedMap.has
    rw [hget]
    rfl
  | free => exact hconnect t
  | inPlaceOf => exact hconnect _

theorem Peers.activate (h : Peers t) (pk : String) : Peers (t.activate pk).1 := by
  refine ⟨h.toSlots.activate pk, fun hlive pk' hmem => ?_⟩
  obtain ⟨active, links, heq⟩ := activate_eq t pk
  rw [heq] at hlive hmem
  exact activate_keeps hmem (h.pins hlive pk' hmem)

/-! ## Steps -/

/-- What the peer set is made of is the same. -/
structure SamePeers (t t' : NostrTransport) : Prop where
  myPubkey : t'.myPubkey = t.myPubkey
  maxPeers : t'.maxPeers = t.maxPeers
  destroyed : t'.destroyed = t.destroyed
  links : t'.links = t.links
  active : t'.active = t.active
  pinned : t'.pinned = t.pinned

theorem SamePeers.peers (h : SamePeers t t') (hp : Peers t) : Peers t' := by
  have hunpinned : t'.unpinned = t.unpinned := by
    unfold unpinned
    rw [h.active, h.pinned]
  refine ⟨⟨?_, ?_, ?_, ?_, ?_⟩, ?_⟩
  · rw [h.active, h.myPubkey]
    exact hp.self
  · rw [h.active, h.links]
    exact hp.link
  · rw [h.active, h.links]
    exact hp.owner
  · rw [hunpinned, h.maxPeers]
    exact hp.cap
  · rw [h.active, h.destroyed]
    exact hp.away
  · rw [h.active, h.destroyed, h.pinned]
    exact hp.pins

theorem SamePeers.later (h : SamePeers t t') : Later t t' :=
  ⟨h.myPubkey, h.maxPeers, fun _ l hl => ⟨l, h.links ▸ hl, rfl⟩⟩

/-- What a step leaves of the peer set. -/
def Keeps (t t' : NostrTransport) : Prop := Peers t → Peers t' ∧ Later t t'

theorem SamePeers.keeps (h : SamePeers t t') : Keeps t t' := fun hp => ⟨h.peers hp, h.later⟩

theorem Keeps.trans {t'' : NostrTransport} (h : Keeps t t') (h' : Keeps t' t'') : Keeps t t'' :=
  fun hp => ⟨(h' (h hp).1).1, (h hp).2.trans (h' (h hp).1).2⟩

theorem keeps_refl (t : NostrTransport) : Keeps t t := fun hp => ⟨hp, Later.refl t⟩

theorem keeps_activate (t : NostrTransport) (pk : String) : Keeps t (t.activate pk).1 :=
  fun hp => ⟨hp.activate pk, later_activate t pk⟩

theorem keeps_onPresence (t : NostrTransport) (now : ℤ) (ev : NostrEvent) :
    Keeps t (t.onPresence C now ev) := by
  unfold onPresence
  split_ifs
  · exact keeps_refl t
  · exact keeps_refl t
  · cases t.producerOf C ev with
    | none =>
      have hsame : SamePeers t { t with seen := t.seen.set ev.pubkey ⟨none, now⟩ } :=
        ⟨rfl, rfl, rfl, rfl, rfl, rfl⟩
      exact hsame.keeps.trans (keeps_activate _ _)
    | some p =>
      have hsame : SamePeers t { t with
          producerToAddress := t.producerToAddress.set p ev.pubkey
          seen := t.seen.set ev.pubkey ⟨some p, now⟩ } := ⟨rfl, rfl, rfl, rfl, rfl, rfl⟩
      exact hsame.keeps.trans (keeps_activate _ _)

/-- What delivering can do: nothing, or what activating the peer does, with the message handed over at
the link that gives out. -/
theorem deliver_cases (t : NostrTransport) (pk : String) (json : List Char) :
    t.deliver pk json = t ∨ t.deliver pk json = (t.activate pk).1 ∨
      ∃ msg n, Json.parse json = some msg ∧ (t.activate pk).2 = some n ∧
        t.deliver pk json
          = { (t.activate pk).1 with delivered := (t.activate pk).1.delivered ++ [(n, msg)] } := by
  unfold NostrTransport.deliver
  cases Json.parse json with
  | none => exact Or.inl rfl
  | some msg =>
    right
    generalize t.activate pk = r
    obtain ⟨t', n⟩ := r
    cases n with
    | none => exact Or.inl rfl
    | some n => exact Or.inr ⟨msg, n, rfl, rfl, rfl⟩

theorem keeps_deliver (t : NostrTransport) (pk : String) (json : List Char) :
    Keeps t (t.deliver pk json) := by
  obtain heq | heq | ⟨msg, n, -, -, heq⟩ := deliver_cases t pk json
  · rw [heq]
    exact keeps_refl t
  · rw [heq]
    exact keeps_activate t pk
  · rw [heq]
    exact (keeps_activate t pk).trans (SamePeers.keeps ⟨rfl, rfl, rfl, rfl, rfl, rfl⟩)

/-- What a frame can do: nothing, or the sender is credited, a chunk goes to the reassembler, and a
frame that is whole is delivered. -/
theorem onWire_cases (t : NostrTransport) (now : ℤ) (ev : NostrEvent) :
    t.onWire now ev = t ∨
      t.onWire now ev = (t.heard now ev.pubkey).deliver ev.pubkey ev.content ∧
        ev.tags.find? (fun tag => decide (tag[0]? = some chunkTag)) = none ∨
      ∃ gc r, ev.tags.find? (fun tag => decide (tag[0]? = some chunkTag)) = some gc ∧
        r = t.reasm.accept ev.pubkey (gc[1]?.getD "") (gc[2]?.bind intOfText?)
          (gc[3]?.bind intOfText?) ev.content now ∧
        (r.2 = none ∧ t.onWire now ev = { t.heard now ev.pubkey with reasm := r.1 } ∨
          ∃ json, r.2 = some json ∧ t.onWire now ev
            = { t.heard now ev.pubkey with reasm := r.1 }.deliver ev.pubkey json) := by
  unfold onWire
  split_ifs
  · exact Or.inl rfl
  right
  cases ev.tags.find? (fun tag => decide (tag[0]? = some chunkTag)) with
  | none => exact Or.inl ⟨rfl, rfl⟩
  | some gc =>
    right
    refine ⟨gc, _, rfl, rfl, ?_⟩
    have hheard : (t.heard now ev.pubkey).reasm = t.reasm := rfl
    simp only [hheard]
    generalize t.reasm.accept ev.pubkey (gc[1]?.getD "") (gc[2]?.bind intOfText?)
      (gc[3]?.bind intOfText?) ev.content now = r
    obtain ⟨reasm, done⟩ := r
    cases done with
    | none => exact Or.inl ⟨rfl, rfl⟩
    | some json => exact Or.inr ⟨json, rfl, rfl⟩

theorem keeps_onWire (t : NostrTransport) (now : ℤ) (ev : NostrEvent) :
    Keeps t (t.onWire now ev) := by
  obtain heq | ⟨heq, -⟩ | ⟨gc, r, -, -, ⟨-, heq⟩ | ⟨json, -, heq⟩⟩ := onWire_cases t now ev
  · rw [heq]
    exact keeps_refl t
  · have hsame : SamePeers t (t.heard now ev.pubkey) := ⟨rfl, rfl, rfl, rfl, rfl, rfl⟩
    rw [heq]
    exact hsame.keeps.trans (keeps_deliver _ _ _)
  · have hsame : SamePeers t { t.heard now ev.pubkey with reasm := r.1 } :=
      ⟨rfl, rfl, rfl, rfl, rfl, rfl⟩
    rw [heq]
    exact hsame.keeps
  · have hsame : SamePeers t { t.heard now ev.pubkey with reasm := r.1 } :=
      ⟨rfl, rfl, rfl, rfl, rfl, rfl⟩
    rw [heq]
    exact hsame.keeps.trans (keeps_deliver _ _ _)

theorem samePeers_publishDirect (t : NostrTransport) (pk : String) (nowSec : ℤ) (msg : Json) :
    SamePeers t (t.publishDirect pk nowSec msg) := by
  unfold publishDirect
  split_ifs
  · exact ⟨rfl, rfl, rfl, rfl, rfl, rfl⟩
  · cases splitPayload msg.stringify maxContent with
    | error e => exact ⟨rfl, rfl, rfl, rfl, rfl, rfl⟩
    | ok parts => cases parts <;> exact ⟨rfl, rfl, rfl, rfl, rfl, rfl⟩

theorem keeps_send (t : NostrTransport) (n : ℕ) (nowSec : ℤ) (msg : Json) :
    Keeps t (t.send n nowSec msg) := by
  unfold send
  cases t.links[n]? with
  | none => exact keeps_refl t
  | some l =>
    simp only
    split_ifs
    · exact keeps_refl t
    · exact (samePeers_publishDirect t l.peerKey nowSec msg).keeps

/-- A pin more is a peer less that counts. -/
theorem keeps_dialPeer (t : NostrTransport) (peerAddr : String) : Keeps t (t.dialPeer peerAddr) := by
  unfold dialPeer
  simp only
  generalize String.ofList (List.map Char.toLower _) = pk
  split_ifs with hrefused hpinned
  · exact keeps_refl t
  · exact keeps_activate t pk
  · intro hp
    rw [Bool.or_eq_true, not_or, decide_eq_true_eq] at hrefused
    have hslots : Slots { t with pinned := t.pinned ++ [pk] } := by
      refine ⟨hp.self, hp.link, hp.owner, ?_, hp.away⟩
      refine le_trans ?_ hp.cap
      rw [unpinned_size, unpinned_size]
      refine OrderedMap.total_le fun e _ => ?_
      show (if e.1 ∈ t.pinned ++ [pk] then 0 else 1) ≤ if e.1 ∈ t.pinned then 0 else 1
      by_cases he : e.1 ∈ t.pinned
      · rw [if_pos he, if_pos (List.mem_append_left _ he)]
      · rw [if_neg he]
        split_ifs <;> omega
    obtain ⟨hkey, hmax, hlinks⟩ := later_activate { t with pinned := t.pinned ++ [pk] } pk
    refine ⟨⟨hslots.activate pk, fun hlive pk' hmem => ?_⟩, hkey, hmax, hlinks⟩
    obtain ⟨active, links, heq⟩ := activate_eq { t with pinned := t.pinned ++ [pk] } pk
    rw [heq] at hlive hmem
    obtain hmem' | hmem' := List.mem_append.mp hmem
    · exact activate_keeps hmem (hp.pins hlive pk' hmem')
    · obtain rfl := List.mem_singleton.mp hmem'
      exact activate_pinned hlive hrefused.2 hmem

theorem keeps_sweepPeer (now : ℤ) (t : NostrTransport) (e : String × Presence) :
    Keeps t (sweepPeer now t e) := by
  have hsame : SamePeers t { t with seen := t.seen.delete e.1, lastFrame := t.lastFrame.delete e.1 } :=
    ⟨rfl, rfl, rfl, rfl, rfl, rfl⟩
  unfold sweepPeer
  by_cases hfresh : now - e.2.at ≤ presenceTtlMs
  · rw [if_pos hfresh]
    exact keeps_refl t
  rw [if_neg hfresh]
  refine hsame.keeps.trans ?_
  generalize { t with seen := t.seen.delete e.1, lastFrame := t.lastFrame.delete e.1 } = t'
  show Keeps t' (if e.1 ∈ t'.pinned then t' else t'.dropPeer e.1)
  split_ifs with hpinned
  · exact keeps_refl t'
  · refine fun hp => ⟨⟨hp.dropPeer e.1, fun hlive pk hmem => ?_⟩, later_dropPeer _ _⟩
    obtain ⟨active, links, heq⟩ := dropPeer_eq t' e.1
    rw [heq] at hlive hmem
    have hhas := hp.pins hlive pk hmem
    unfold OrderedMap.has at hhas ⊢
    rw [get?_dropPeer, hhas]
    rintro rfl
    exact hpinned hmem

theorem keeps_sweepStale (now : ℤ) (t : NostrTransport) : Keeps t (t.sweepStale now) := by
  unfold sweepStale
  generalize t.seen.entries = l
  induction l generalizing t with
  | nil => exact keeps_refl t
  | cons e l ih => exact (keeps_sweepPeer now t e).trans (ih _)

theorem keeps_closeLink (t : NostrTransport) (n : ℕ) : Keeps t (t.closeLink n) :=
  fun hp => ⟨⟨hp.toSlots.closeLink n, hp.pins⟩, later_closeLink t n⟩

theorem keeps_destroy (t : NostrTransport) : Keeps t t.destroy := by
  intro hp
  have hlinks : ∀ n, t.destroy.links[n]? = (t.links[n]?).map (fun l =>
      if n ∈ t.active.values then { l with closed := true } else l) := fun n => by
    show (t.links.zipIdx.map _)[n]? = _
    rw [List.getElem?_map, List.getElem?_zipIdx, Option.map_map, Nat.zero_add]
    rfl
  refine ⟨⟨⟨rfl, fun pk n h => (by cases h), fun n l hl hopen => ?_, Nat.zero_le _, fun _ => rfl⟩,
    fun hlive => (by cases hlive)⟩, rfl, rfl, fun n l hl => ?_⟩
  · rw [hlinks] at hl
    obtain ⟨l', hl', rfl⟩ := Option.map_eq_some_iff.mp hl
    split_ifs at hopen with hmem
    exact absurd ((OrderedMap.mem_values _ _).mpr ⟨_, hp.owner n l' hl' hopen⟩) hmem
  · rw [hlinks, hl]
    refine ⟨_, rfl, ?_⟩
    split_ifs <;> rfl

theorem keeps_step (t : NostrTransport) (i : NostrStep) : Keeps t (t.step C i) := by
  cases i with
  | presence now ev => exact keeps_onPresence t now ev
  | wire now ev => exact keeps_onWire t now ev
  | send n nowSec msg => exact keeps_send t n nowSec msg
  | dial peerAddr => exact keeps_dialPeer t peerAddr
  | sweep now => exact keeps_sweepStale now t
  | closed n => exact keeps_closeLink t n
  | destroy => exact keeps_destroy t

/-- After any events. -/
theorem peers_run (me network idPrefix : String) (maxPeers : ℕ) (steps : List NostrStep) :
    Peers (run (step C) (new me network idPrefix maxPeers) steps) ∧
      Later (new me network idPrefix maxPeers)
        (run (step C) (new me network idPrefix maxPeers) steps) :=
  inv_run (fun t => Peers t ∧ Later (new me network idPrefix maxPeers) t)
    (fun t i h => ⟨(keeps_step t i h.1).1, h.2.trans (keeps_step t i h.1).2⟩)
    ⟨peers_new me network idPrefix maxPeers, Later.refl _⟩ steps

/-- The open links to peers that are not pinned. -/
def openUnpinned (t : NostrTransport) : List NostrConnection :=
  t.links.filter (fun l => !l.closed && decide (l.peerKey ∉ t.pinned))

/-- No two open links are to one peer. -/
theorem Slots.pairwise (h : Slots t) : t.links.Pairwise (fun l l' =>
    l.closed = false → l'.closed = false → l.peerKey ≠ l'.peerKey) := by
  rw [List.pairwise_iff_getElem]
  intro i j hi hj hlt hopen hopen' hkey
  have howner := h.owner i _ (List.getElem?_eq_getElem hi) hopen
  have howner' := h.owner j _ (List.getElem?_eq_getElem hj) hopen'
  rw [hkey, howner'] at howner
  have heq : j = i := Option.some.inj howner
  omega

theorem Slots.openUnpinned_le (h : Slots t) : t.openUnpinned.length ≤ t.maxPeers := by
  refine le_trans ?_ h.cap
  have hsize : t.unpinned.size = t.unpinned.keys.length := (List.length_map _).symm
  rw [hsize, ← List.length_map NostrConnection.peerKey]
  refine (List.Nodup.subperm ?_ fun pk hpk => ?_).length_le
  · rw [List.Nodup, List.pairwise_map]
    refine List.pairwise_filter.mpr (h.pairwise.imp fun hne hl hl' => hne ?_ ?_)
    · simp at hl
      exact hl.1
    · simp at hl'
      exact hl'.1
  · -- an open link is the active one of its peer
    obtain ⟨l, hl, rfl⟩ := List.mem_map.mp hpk
    obtain ⟨hmem, hopen⟩ := List.mem_filter.mp hl
    rw [Bool.and_eq_true, Bool.not_eq_true', decide_eq_true_eq] at hopen
    obtain ⟨n, hn⟩ := List.mem_iff_getElem?.mp hmem
    refine (OrderedMap.mem_keys _ _).mpr ⟨n, ?_⟩
    unfold unpinned
    rw [OrderedMap.get?_filter, h.owner n l hn hopen.1]
    simp [hopen.2]

/-- **The peer set is bounded.** After any events, an open link is to another node and is its only one,
the open links to peers that are not pinned are no more than the cap, and until the transport is
destroyed every pinned peer has a slot. -/
theorem peers_bounded (me network idPrefix : String) (maxPeers : ℕ) (steps : List NostrStep) :
    (∀ l ∈ (run (step C) (new me network idPrefix maxPeers) steps).links,
      l.closed = false → l.peerKey ≠ me) ∧
    (run (step C) (new me network idPrefix maxPeers) steps).links.Pairwise (fun l l' =>
      l.closed = false → l'.closed = false → l.peerKey ≠ l'.peerKey) ∧
    (run (step C) (new me network idPrefix maxPeers) steps).openUnpinned.length ≤ maxPeers ∧
    ((run (step C) (new me network idPrefix maxPeers) steps).destroyed = false →
      ∀ pk ∈ (run (step C) (new me network idPrefix maxPeers) steps).pinned,
        (run (step C) (new me network idPrefix maxPeers) steps).active.has pk = true) := by
  obtain ⟨hpeers, hlater⟩ := peers_run (C := C) me network idPrefix maxPeers steps
  have hcap := hpeers.openUnpinned_le
  have hself := hpeers.self
  rw [hlater.maxPeers] at hcap
  rw [hlater.myPubkey] at hself
  refine ⟨fun l hl hopen hkey => ?_, hpeers.pairwise, hcap, hpeers.pins⟩
  obtain ⟨n, hn⟩ := List.mem_iff_getElem?.mp hl
  have howner := hpeers.owner n l hn hopen
  rw [hkey] at howner
  change _ = none at hself
  rw [show (new me network idPrefix maxPeers).myPubkey = me from rfl, howner] at hself
  cases hself

end NostrTransport

end Gavl
