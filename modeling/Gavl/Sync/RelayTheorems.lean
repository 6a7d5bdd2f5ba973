import Gavl.Det.NumberTheorems
import Gavl.Sync.NostrTheorems
import Gavl.Sync.ReassemblerTheorems

/-!
# What is delivered was sent

Relays may withhold events, repeat them, reorder them and slip in events of other keys. What is handed to
the handlers of a peer's link is still a message that the peer sent to this node, byte for byte, in any
boot of the peer.
-/

namespace Gavl

open Runs

/-! ## Parts of one message -/

namespace Partial

variable {p : Partial} {parts : List (List Char)} {index : ℕ} {part : List Char} {now : ℤ}

/-- A partial that holds nothing but parts of a message, each in its place. -/
structure Within (p : Partial) (parts : List (List Char)) : Prop where
  total_eq : p.total = parts.length
  held : ∀ (i : ℕ) (part : List Char), p.parts[i]? = some (some part) → parts[i]? = some part

theorem within_new (parts : List (List Char)) (now : ℤ) :
    Within ⟨parts.length, List.replicate parts.length none, 0, 0, now⟩ parts := by
  refine ⟨rfl, fun i part h => ?_⟩
  rw [List.getElem?_replicate] at h
  split_ifs at h
  cases h

theorem Within.fill (h : p.Within parts) (hpart : parts[index]? = some part) :
    (p.fill index part now).Within parts := by
  refine ⟨fill_total.trans h.total_eq, fun i x hx => ?_⟩
  unfold Partial.fill at hx
  split_ifs at hx
  · change (p.parts.set index (some part))[i]? = _ at hx
    rw [List.getElem?_set] at hx
    split_ifs at hx with hi
    · obtain rfl := Option.some.inj (Option.some.inj hx)
      rw [← hi, hpart]
    · exact h.held i x hx
  · exact h.held i x hx

/-- Whole, it is the message. -/
theorem Within.join (h : p.Within parts) (hp : p.Counted) (hall : p.have = p.total) :
    joinPayload (p.parts.map (fun part => part.getD [])) = joinPayload parts := by
  have hlen : p.parts.length = parts.length := hp.length_eq.trans h.total_eq
  have hevery : ∀ x ∈ p.parts, x.isSome = true := by
    rw [← List.countP_eq_length, ← hp.have_eq, hall, hp.length_eq]
  refine congrArg joinPayload (List.ext_getElem? fun i => ?_)
  rw [List.getElem?_map]
  by_cases hi : i < p.parts.length
  · obtain ⟨part, hpart⟩ := Option.isSome_iff_exists.mp (hevery _ (List.getElem_mem hi))
    have hget : p.parts[i]? = some (some part) := by rw [List.getElem?_eq_getElem hi, hpart]
    rw [hget, h.held i part hget]
    rfl
  · rw [List.getElem?_eq_none (by omega), List.getElem?_eq_none (by omega)]
    rfl

end Partial

/-! ## A sender's messages -/

/-- A part of a message that was published in parts. -/
structure Outgoing.Splits (o : Outgoing) (id : String) (parts : List (List Char)) : Prop where
  id_eq : o.id = some id
  split : splitPayload o.msg.stringify maxContent = .ok (some parts)

/-- An id belongs to one message. -/
def UniqueIds (sent : List Outgoing) : Prop :=
  ∀ o ∈ sent, ∀ o' ∈ sent, ∀ id, o.id = some id → o'.id = some id → o = o'

theorem UniqueIds.parts_eq {sent : List Outgoing} (h : UniqueIds sent) {o o' : Outgoing}
    (ho : o ∈ sent) (ho' : o' ∈ sent) {id : String} {parts parts' : List (List Char)}
    (hs : o.Splits id parts) (hs' : o'.Splits id parts') : o = o' ∧ parts = parts' := by
  obtain rfl := h o ho o' ho' id hs.id_eq hs'.id_eq
  have heq := hs.split.symm.trans hs'.split
  exact ⟨rfl, Option.some.inj (Except.ok.inj heq)⟩

namespace Reassembler

variable {r r' : Reassembler} {a me sender id : String} {sent : List Outgoing} {index total : ℕ}
  {part : List Char} {now : ℤ}

/-- What is held of a sender is of messages that it sent here. -/
def Genuine (sent : List Outgoing) (a me : String) (r : Reassembler) : Prop :=
  ∀ id p, r.partial? a id = some p → ∃ o ∈ sent, o.toPubkey = me ∧
    ∃ parts, o.Splits id parts ∧ p.Within parts

/-- A part of a message that was sent here. -/
def Part (sent : List Outgoing) (me id : String) (index total : ℕ) (part : List Char) : Prop :=
  ∃ o ∈ sent, o.toPubkey = me ∧
    ∃ parts, o.Splits id parts ∧ total = parts.length ∧ parts[index]? = some part

theorem genuine_new (sent : List Outgoing) (a me : String) (opts : ReassemblerOptions) :
    Genuine sent a me (Reassembler.new opts) := fun id p h => by cases h

theorem Genuine.dropped (h : r.Genuine sent a me) (hd : Dropped r r') : r'.Genuine sent a me :=
  fun id p hp => h id p (hd.partial? hp)

theorem Genuine.remember (h : r.Genuine sent a me) (done : OrderedMap String ℤ) :
    Genuine sent a me { r with done := done } := h

/-- The partial a chunk goes into is there, or new. -/
theorem opened_snd (r : Reassembler) (sender id : String) (total : ℕ) (now : ℤ) :
    (r.opened sender id total now).1.partial? sender id = some (r.opened sender id total now).2 ∨
      (r.opened sender id total now).2 = ⟨total, List.replicate total none, 0, 0, now⟩ := by
  unfold Reassembler.opened
  cases hp : r.partial? sender id with
  | some p => exact Or.inl hp
  | none => exact Or.inr rfl

/-- **Step.** A part of a message that was sent here keeps what is held genuine, and if the message is
whole with it, that message is given out. So does a chunk of any other sender. -/
theorem Genuine.receive (h : r.Genuine sent a me) (hr : r.Settled) (hids : UniqueIds sent)
    (hpart : sender = a → Part sent me id index total part) :
    (r.receive sender id index total part now).1.Genuine sent a me ∧
      ∀ json, (r.receive sender id index total part now).2 = some json → sender = a →
        ∃ o ∈ sent, o.toPubkey = me ∧ json = o.msg.stringify := by
  have hopened := hr.toBooks.opened sender id total now
  have hsnd := opened_snd (r.reshaped sender id total) sender id total now
  unfold Reassembler.receive
  generalize (r.reshaped sender id total).opened sender id total now = o at hopened hsnd ⊢
  obtain ⟨r₁, p⟩ := o
  simp only at hopened hsnd ⊢
  have hgenuine₁ := h.dropped hopened.dropped
  -- the chunk fits the partial it goes into
  have hfilled : sender = a → ∃ o ∈ sent, o.toPubkey = me ∧
      ∃ parts, o.Splits id parts ∧ (p.fill index part now).Within parts := by
    intro hsender
    obtain ⟨o, ho, hto, parts, hsplits, htotal, hget⟩ := hpart hsender
    refine ⟨o, ho, hto, parts, hsplits, Partial.Within.fill ?_ hget⟩
    obtain hheld | hnew := hsnd
    · obtain ⟨o', ho', -, parts', hsplits', hwithin⟩ := hgenuine₁ id p (hsender ▸ hheld)
      obtain ⟨-, rfl⟩ := hids.parts_eq ho ho' hsplits hsplits'
      exact hwithin
    · rw [hnew, htotal]
      exact Partial.within_new parts now
  have hput : (r₁.put sender id (p.fill index part now)
      (if p.lacks index then utf16Length part else 0)).Genuine sent a me := by
    intro id' q hq
    rw [partial?_put] at hq
    split_ifs at hq with hsame
    · obtain ⟨hsender, rfl⟩ := hsame
      obtain rfl := Option.some.inj hq
      exact hfilled hsender
    · exact hgenuine₁ id' q hq
  generalize r₁.put sender id (p.fill index part now)
    (if p.lacks index then utf16Length part else 0) = r₂ at hput ⊢
  have hshed := hput.dropped (dropped_shed r₂.pending.length r₂)
  generalize shed r₂.pending.length r₂ = r₃ at hshed ⊢
  unfold Reassembler.complete
  split_ifs with hgone hwhole
  · exact ⟨hshed, fun json hjson => (by cases hjson)⟩
  · exact ⟨hshed, fun json hjson => (by cases hjson)⟩
  · refine ⟨(hshed.dropped dropped_forget).remember _, fun json hjson hsender => ?_⟩
    obtain rfl := Option.some.inj hjson
    obtain ⟨o, ho, hto, parts, hsplits, hwithin⟩ := hfilled hsender
    refine ⟨o, ho, hto, ?_⟩
    rw [hwithin.join hopened.counted.fill (not_not.mp hwhole)]
    exact (splitPayload_spec hsplits.split).2.2

/-- What a chunk comes to: nothing, a sweep, or a part that is received. -/
theorem accept_eq (r : Reassembler) (sender id : String) (index total : Option ℤ)
    (part : List Char) (now : ℤ) :
    r.accept sender id index total part now = (r, none) ∨
      r.accept sender id index total part now = (r.sweep now, none) ∨
      ∃ i n : ℕ, index = some (i : ℤ) ∧ total = some (n : ℤ) ∧
        r.accept sender id index total part now = (r.sweep now).receive sender id i n part now := by
  unfold accept
  split
  · rename_i index total
    split_ifs with htotal hindex hpart
    · exact Or.inl rfl
    · exact Or.inl rfl
    · exact Or.inl rfl
    · right
      simp only
      split_ifs
      · exact Or.inl rfl
      · refine Or.inr ⟨index.toNat, total.toNat, ?_, ?_, rfl⟩
        · rw [Int.toNat_of_nonneg (by omega)]
        · rw [Int.toNat_of_nonneg (by omega)]
  · exact Or.inl rfl

theorem Genuine.accept {index total : Option ℤ} (h : r.Genuine sent a me) (hr : r.Settled)
    (hids : UniqueIds sent) (now : ℤ)
    (hpart : sender = a → ∀ i n : ℕ, index = some (i : ℤ) → total = some (n : ℤ) →
      Part sent me id i n part) :
    (r.accept sender id index total part now).1.Genuine sent a me ∧
      ∀ json, (r.accept sender id index total part now).2 = some json → sender = a →
        ∃ o ∈ sent, o.toPubkey = me ∧ json = o.msg.stringify := by
  have hsweep : (r.sweep now).Genuine sent a me := by
    obtain ⟨quiet, done, hdropped, heq⟩ := hr.tidy.sweep now
    rw [heq]
    exact (h.dropped hdropped).remember done
  obtain heq | heq | ⟨i, n, hi, hn, heq⟩ := accept_eq r sender id index total part now
  · rw [heq]
    exact ⟨h, fun json hjson => (by cases hjson)⟩
  · rw [heq]
    exact ⟨hsweep, fun json hjson => (by cases hjson)⟩
  · rw [heq]
    exact hsweep.receive (hr.sweep now) hids fun hsender => hpart hsender i n hi hn

end Reassembler

namespace NostrTransport

variable {C : Crypto} {t t' : NostrTransport} {a me : String}

/-! ## What the sender publishes -/

/-- An event that carries a message, or a part of one, to the peer it is for. -/
inductive Carries (sent : List Outgoing) (ev : NostrEvent) : Prop where
  | whole {o : Outgoing} (mem : o ∈ sent)
      (plain : ev.tags.find? (fun tag => decide (tag[0]? = some chunkTag)) = none)
      (content : ev.content = o.msg.stringify)
      (addressed : ∀ pk, ["p", pk] ∈ ev.tags → o.toPubkey = pk)
  | part {o : Outgoing} {id : String} {parts : List (List Char)} {i : ℕ} (mem : o ∈ sent)
      (splits : o.Splits id parts) (content : parts[i]? = some ev.content)
      (header : ev.tags.find? (fun tag => decide (tag[0]? = some chunkTag))
        = some [chunkTag, id, toString i, toString parts.length])
      (addressed : ∀ pk, ["p", pk] ∈ ev.tags → o.toPubkey = pk)

theorem Carries.mono {sent sent' : List Outgoing} {ev : NostrEvent} (h : Carries sent ev)
    (hsub : sent ⊆ sent') : Carries sent' ev := by
  cases h with
  | whole mem plain content addressed => exact .whole (hsub mem) plain content addressed
  | part mem splits content header addressed =>
    exact .part (hsub mem) splits content header addressed

/-- What holds of what was published. -/
structure Publishes (t : NostrTransport) : Prop where
  ids : ∀ o ∈ t.sent, ∀ id, o.id = some id → ∃ seq ≤ t.msgSeq, id = t.idPrefix ++ toString seq
  unique : UniqueIds t.sent
  events : ∀ ev ∈ t.published, ev.pubkey = t.myPubkey ∧ Carries t.sent ev

theorem Publishes.publishDirect (h : Publishes t) (pk : String) (nowSec : ℤ) (msg : Json) :
    Publishes (t.publishDirect pk nowSec msg) := by
  unfold NostrTransport.publishDirect
  split_ifs
  · exact h
  cases hsplit : splitPayload msg.stringify maxContent with
  | error e => exact h
  | ok split =>
    cases split with
    -- one event carries it whole
    | none =>
      refine ⟨fun o ho id hid => ?_, fun o ho o' ho' id hid hid' => ?_, fun ev hev => ?_⟩
      · obtain ho | ho := List.mem_append.mp ho
        · exact h.ids o ho id hid
        · obtain rfl := List.mem_singleton.mp ho
          cases hid
      · obtain ho | ho := List.mem_append.mp ho
        · obtain ho' | ho' := List.mem_append.mp ho'
          · exact h.unique o ho o' ho' id hid hid'
          · obtain rfl := List.mem_singleton.mp ho'
            cases hid'
        · obtain rfl := List.mem_singleton.mp ho
          cases hid
      · obtain hev | hev := List.mem_append.mp hev
        · obtain ⟨hkey, hcarries⟩ := h.events ev hev
          exact ⟨hkey, hcarries.mono (List.subset_append_left _ _)⟩
        · obtain rfl := List.mem_singleton.mp hev
          refine ⟨rfl, .whole (List.mem_append_right _ (List.mem_singleton.mpr rfl)) ?_ rfl ?_⟩
          · simp [buildDirect, chunkTag]
          · simp [buildDirect]
    -- its parts go out under an id that no message had before
    | some parts =>
      have hfresh : ∀ o ∈ t.sent, o.id ≠ some (t.idPrefix ++ toString (t.msgSeq + 1)) := by
        intro o ho hid
        obtain ⟨seq, hle, heq⟩ := h.ids o ho _ hid
        have hseq : toString (t.msgSeq + 1) = toString seq := String.append_right_inj _ |>.mp heq
        have := toString_injective hseq
        omega
      refine ⟨fun o ho id hid => ?_, fun o ho o' ho' id hid hid' => ?_, fun ev hev => ?_⟩
      · obtain ho | ho := List.mem_append.mp ho
        · obtain ⟨seq, hle, heq⟩ := h.ids o ho id hid
          exact ⟨seq, Nat.le_succ_of_le hle, heq⟩
        · obtain rfl := List.mem_singleton.mp ho
          exact ⟨t.msgSeq + 1, le_rfl, (Option.some.inj hid).symm⟩
      · obtain ho | ho := List.mem_append.mp ho
        · obtain ho' | ho' := List.mem_append.mp ho'
          · exact h.unique o ho o' ho' id hid hid'
          · obtain rfl := List.mem_singleton.mp ho'
            exact absurd (hid.trans hid'.symm) (hfresh o ho)
        · obtain rfl := List.mem_singleton.mp ho
          obtain ho' | ho' := List.mem_append.mp ho'
          · exact absurd (hid'.trans hid.symm) (hfresh o' ho')
          · exact (List.mem_singleton.mp ho').symm
      · obtain hev | hev := List.mem_append.mp hev
        · obtain ⟨hkey, hcarries⟩ := h.events ev hev
          exact ⟨hkey, hcarries.mono (List.subset_append_left _ _)⟩
        · obtain ⟨⟨part, i⟩, hmem, rfl⟩ := List.mem_map.mp hev
          have hget : parts[i]? = some part := List.mem_zipIdx_iff_getElem?.mp hmem
          refine ⟨rfl, .part (List.mem_append_right _ (List.mem_singleton.mpr rfl)) ⟨rfl, hsplit⟩ hget
            ?_ ?_⟩
          · simp [buildDirect, chunkTag]
          · simp [buildDirect, chunkTag]

/-- Nothing is published. -/
structure SamePublished (t t' : NostrTransport) : Prop where
  myPubkey : t'.myPubkey = t.myPubkey
  idPrefix : t'.idPrefix = t.idPrefix
  msgSeq : t'.msgSeq = t.msgSeq
  published : t'.published = t.published
  sent : t'.sent = t.sent

theorem SamePublished.publishes (h : SamePublished t t') (hp : Publishes t) : Publishes t' := by
  refine ⟨?_, ?_, ?_⟩
  · rw [h.sent, h.msgSeq, h.idPrefix]
    exact hp.ids
  · rw [h.sent]
    exact hp.unique
  · rw [h.sent, h.published, h.myPubkey]
    exact hp.events

/-- Nothing is received. -/
structure SameReceived (t t' : NostrTransport) : Prop where
  reasm : t'.reasm = t.reasm
  delivered : t'.delivered = t.delivered

/-- Only what is known of the peers changes. -/
structure OnlyPeers (t t' : NostrTransport) : Prop extends SamePublished t t', SameReceived t t'

theorem OnlyPeers.trans {t'' : NostrTransport} (h : OnlyPeers t t') (h' : OnlyPeers t' t'') :
    OnlyPeers t t'' :=
  ⟨⟨h'.myPubkey.trans h.myPubkey, h'.idPrefix.trans h.idPrefix, h'.msgSeq.trans h.msgSeq,
    h'.published.trans h.published, h'.sent.trans h.sent⟩,
    h'.reasm.trans h.reasm, h'.delivered.trans h.delivered⟩

theorem onlyPeers_rfl (t : NostrTransport) : OnlyPeers t t := ⟨⟨rfl, rfl, rfl, rfl, rfl⟩, rfl, rfl⟩

theorem onlyPeers_activate (t : NostrTransport) (pk : String) : OnlyPeers t (t.activate pk).1 := by
  obtain ⟨active, links, heq⟩ := activate_eq t pk
  rw [heq]
  exact ⟨⟨rfl, rfl, rfl, rfl, rfl⟩, rfl, rfl⟩

theorem onlyPeers_dropPeer (t : NostrTransport) (pk : String) : OnlyPeers t (t.dropPeer pk) := by
  obtain ⟨active, links, heq⟩ := dropPeer_eq t pk
  rw [heq]
  exact ⟨⟨rfl, rfl, rfl, rfl, rfl⟩, rfl, rfl⟩

theorem onlyPeers_sweepStale (now : ℤ) (t : NostrTransport) : OnlyPeers t (t.sweepStale now) := by
  unfold sweepStale
  generalize t.seen.entries = l
  induction l generalizing t with
  | nil => exact onlyPeers_rfl t
  | cons e l ih =>
    refine OnlyPeers.trans ?_ (ih _)
    unfold sweepPeer
    split_ifs
    · exact onlyPeers_rfl t
    · have hforgot : OnlyPeers t
          { t with seen := t.seen.delete e.1, lastFrame := t.lastFrame.delete e.1 } :=
        ⟨⟨rfl, rfl, rfl, rfl, rfl⟩, rfl, rfl⟩
      refine hforgot.trans ?_
      generalize { t with seen := t.seen.delete e.1, lastFrame := t.lastFrame.delete e.1 } = t'
      show OnlyPeers t' (if e.1 ∈ t'.pinned then t' else t'.dropPeer e.1)
      split_ifs
      · exact onlyPeers_rfl t'
      · exact onlyPeers_dropPeer t' e.1

/-- A step that neither sends nor hears a frame. -/
theorem onlyPeers_step (t : NostrTransport) {i : NostrStep} (hsend : ∀ n now msg, i ≠ .send n now msg)
    (hwire : ∀ now ev, i ≠ .wire now ev) : OnlyPeers t (t.step C i) := by
  cases i with
  | presence now ev =>
    show OnlyPeers t (t.onPresence C now ev)
    unfold onPresence
    split_ifs
    · exact onlyPeers_rfl t
    · exact onlyPeers_rfl t
    · have hknown : ∀ p, OnlyPeers t (match p with
          | some p => { t with producerToAddress := t.producerToAddress.set p ev.pubkey }
          | none => t) := fun p => by cases p <;> exact ⟨⟨rfl, rfl, rfl, rfl, rfl⟩, rfl, rfl⟩
      refine (hknown (t.producerOf C ev)).trans ?_
      refine OnlyPeers.trans ?_ (onlyPeers_activate _ _)
      exact ⟨⟨rfl, rfl, rfl, rfl, rfl⟩, rfl, rfl⟩
  | wire now ev => exact absurd rfl (hwire now ev)
  | send n nowSec msg => exact absurd rfl (hsend n nowSec msg)
  | dial peerAddr =>
    show OnlyPeers t (t.dialPeer peerAddr)
    unfold dialPeer
    simp only
    generalize String.ofList (List.map Char.toLower _) = pk
    split_ifs
    · exact onlyPeers_rfl t
    · exact onlyPeers_activate t pk
    · refine OnlyPeers.trans ?_ (onlyPeers_activate _ pk)
      exact ⟨⟨rfl, rfl, rfl, rfl, rfl⟩, rfl, rfl⟩
  | sweep now => exact onlyPeers_sweepStale now t
  | closed n => exact ⟨⟨rfl, rfl, rfl, rfl, rfl⟩, rfl, rfl⟩
  | destroy => exact ⟨⟨rfl, rfl, rfl, rfl, rfl⟩, rfl, rfl⟩

theorem samePublished_deliver (t : NostrTransport) (pk : String) (json : List Char) :
    SamePublished t (t.deliver pk json) := by
  have hactivate := (onlyPeers_activate t pk).toSamePublished
  obtain heq | heq | ⟨msg, n, -, -, heq⟩ := deliver_cases t pk json
  · rw [heq]
    exact ⟨rfl, rfl, rfl, rfl, rfl⟩
  · rw [heq]
    exact hactivate
  · rw [heq]
    exact ⟨hactivate.1, hactivate.2, hactivate.3, hactivate.4, hactivate.5⟩

theorem samePublished_onWire (t : NostrTransport) (now : ℤ) (ev : NostrEvent) :
    SamePublished t (t.onWire now ev) := by
  have hdeliver : ∀ t' : NostrTransport, SamePublished t t' → ∀ json,
      SamePublished t (t'.deliver ev.pubkey json) := by
    intro t' h json
    have h' := samePublished_deliver t' ev.pubkey json
    exact ⟨h'.1.trans h.1, h'.2.trans h.2, h'.3.trans h.3, h'.4.trans h.4, h'.5.trans h.5⟩
  obtain heq | ⟨heq, -⟩ | ⟨gc, r, -, -, ⟨-, heq⟩ | ⟨json, -, heq⟩⟩ := onWire_cases t now ev
  · rw [heq]
    exact ⟨rfl, rfl, rfl, rfl, rfl⟩
  · rw [heq]
    exact hdeliver (t.heard now ev.pubkey) ⟨rfl, rfl, rfl, rfl, rfl⟩ ev.content
  · rw [heq]
    exact ⟨rfl, rfl, rfl, rfl, rfl⟩
  · rw [heq]
    exact hdeliver { t.heard now ev.pubkey with reasm := r.1 } ⟨rfl, rfl, rfl, rfl, rfl⟩ json

theorem Publishes.step (h : Publishes t) (i : NostrStep) :
    Publishes (t.step C i) ∧ (t.step C i).idPrefix = t.idPrefix := by
  by_cases hsend : ∀ n now msg, i ≠ .send n now msg
  · have hsame : SamePublished t (t.step C i) := by
      by_cases hwire : ∀ now ev, i ≠ .wire now ev
      · exact (onlyPeers_step t hsend hwire).toSamePublished
      · push Not at hwire
        obtain ⟨now, ev, rfl⟩ := hwire
        exact samePublished_onWire t now ev
    exact ⟨hsame.publishes h, hsame.idPrefix⟩
  · push Not at hsend
    obtain ⟨n, now, msg, rfl⟩ := hsend
    show Publishes (t.send n now msg) ∧ (t.send n now msg).idPrefix = t.idPrefix
    unfold send
    cases t.links[n]? with
    | none => exact ⟨h, rfl⟩
    | some l =>
      simp only
      split_ifs
      · exact ⟨h, rfl⟩
      · refine ⟨h.publishDirect l.peerKey now msg, ?_⟩
        unfold NostrTransport.publishDirect
        split_ifs
        · rfl
        · cases splitPayload msg.stringify maxContent with
          | error e => rfl
          | ok parts => cases parts <;> rfl

/-- A boot of the peer with key `a`, after some steps. -/
def BootOf (C : Crypto) (a : String) (t : NostrTransport) : Prop :=
  ∃ network word maxPeers steps, '-' ∉ word.toList ∧
    t = run (step C) (new a network (word ++ "-") maxPeers) steps

theorem BootOf.publishes (h : BootOf C a t) :
    Publishes t ∧ ∃ word, '-' ∉ word.toList ∧ t.idPrefix = word ++ "-" := by
  obtain ⟨network, word, maxPeers, steps, hword, rfl⟩ := h
  have hnew : Publishes (new a network (word ++ "-") maxPeers) := by
    refine ⟨fun o ho => ?_, fun o ho => ?_, fun ev hev => ?_⟩
    · cases ho
    · cases ho
    · cases hev
  obtain ⟨hpublishes, hdrawn₁⟩ := inv_run
    (fun t => Publishes t ∧ t.idPrefix = word ++ "-")
    (fun t i h => ⟨(h.1.step i).1, ((h.1.step (C := C) i).2).trans h.2⟩) ⟨hnew, rfl⟩ steps
  exact ⟨hpublishes, word, hword, hdrawn₁⟩

/-- The dash ends the word. -/
theorem word_eq {w w' d d' : String} (hw : '-' ∉ w.toList) (hw' : '-' ∉ w'.toList)
    (h : w ++ "-" ++ d = w' ++ "-" ++ d') : w = w' := by
  have hlist : w.toList ++ '-' :: d.toList = w'.toList ++ '-' :: d'.toList := by
    have := congrArg String.toList h
    rw [String.toList_append, String.toList_append, String.toList_append, String.toList_append,
      List.append_assoc, List.append_assoc] at this
    exact this
  have htake := congrArg (List.takeWhile (fun c => decide (c ≠ '-'))) hlist
  have hplain : ∀ l : List Char, '-' ∉ l → ∀ rest,
      (l ++ '-' :: rest).takeWhile (fun c => decide (c ≠ '-')) = l := by
    intro l hl rest
    rw [List.takeWhile_append_of_pos]
    · simp
    · intro c hc
      rw [decide_eq_true_eq]
      rintro rfl
      exact hl hc
  rw [hplain _ hw, hplain _ hw'] at htake
  exact String.toList_injective htake

/-- Boots that drew different prefixes give out different ids. -/
theorem uniqueIds_boots {boots : List NostrTransport} (hboots : ∀ t ∈ boots, BootOf C a t)
    (hdrawn : ∀ t ∈ boots, ∀ t' ∈ boots, t.idPrefix = t'.idPrefix → t = t') :
    UniqueIds (boots.flatMap NostrTransport.sent) := by
  intro o ho o' ho' id hid hid'
  obtain ⟨t, ht, ho⟩ := List.mem_flatMap.mp ho
  obtain ⟨t', ht', ho'⟩ := List.mem_flatMap.mp ho'
  obtain ⟨hp, word, hword, hdrawn₁⟩ := (hboots t ht).publishes
  obtain ⟨hp', word', hword', hdrawn₂⟩ := (hboots t' ht').publishes
  obtain ⟨seq, -, heq⟩ := hp.ids o ho id hid
  obtain ⟨seq', -, heq'⟩ := hp'.ids o' ho' id hid'
  rw [hdrawn₁] at heq
  rw [hdrawn₂] at heq'
  obtain rfl := word_eq hword hword' (heq.symm.trans heq')
  obtain rfl := hdrawn t ht t' ht' (hdrawn₁.trans hdrawn₂.symm)
  exact hp.unique o ho o' ho' id hid hid'

/-! ## What the receiver delivers -/

theorem toInt?_finite (units : ℤ) : (Double.finite units).toInt?
    = if units % 2 ^ 1074 = 0 then some (units / 2 ^ 1074) else none := rfl

theorem intOfText?_toString {n : ℕ} (hn : n < 2 ^ 53) : intOfText? (toString n) = some (n : ℤ) := by
  have hpos : ((2 : ℤ) ^ 1074) ≠ 0 := pow_ne_zero _ two_ne_zero
  have hcast : ((n * 2 ^ 1074 : ℕ) : ℤ) = (n : ℤ) * 2 ^ 1074 := by
    rw [Nat.cast_mul, Nat.cast_pow, Nat.cast_ofNat]
  unfold intOfText?
  rw [toList_toString, numberOfText_toDigits hn, hcast, toInt?_finite,
    if_pos (Int.mul_emod_left _ _), Int.mul_ediv_cancel _ hpos]

/-- What holds of what was delivered. -/
structure Faithful (sent : List Outgoing) (a me : String) (t : NostrTransport) : Prop where
  settled : t.reasm.Settled
  genuine : t.reasm.Genuine sent a me
  delivered : ∀ e ∈ t.delivered, ∃ l, t.links[e.1]? = some l ∧
    (l.peerKey = a → ∃ o ∈ sent, o.toPubkey = me ∧ Json.parse o.msg.stringify = some e.2)

variable {sent : List Outgoing}

theorem Faithful.later (h : Faithful sent a me t) (hsame : SameReceived t t') (hlater : Later t t') :
    Faithful sent a me t' := by
  refine ⟨?_, ?_, fun e he => ?_⟩
  · rw [hsame.reasm]
    exact h.settled
  · rw [hsame.reasm]
    exact h.genuine
  · rw [hsame.delivered] at he
    obtain ⟨l, hl, hsent⟩ := h.delivered e he
    obtain ⟨l', hl', hkey⟩ := hlater.links e.1 l hl
    exact ⟨l', hl', fun ha => hsent (hkey.symm.trans ha)⟩

theorem Faithful.deliver (h : Faithful sent a me t) (hp : Peers t) {pk : String} {json : List Char}
    (hjson : pk = a → ∃ o ∈ sent, o.toPubkey = me ∧ json = o.msg.stringify) :
    Faithful sent a me (t.deliver pk json) := by
  have hactivate := h.later (onlyPeers_activate t pk).toSameReceived (later_activate t pk)
  obtain heq | heq | ⟨msg, n, hmsg, hn, heq⟩ := deliver_cases t pk json
  · rw [heq]
    exact h
  · rw [heq]
    exact hactivate
  · rw [heq]
    refine ⟨hactivate.settled, hactivate.genuine, fun e he => ?_⟩
    obtain he | he := List.mem_append.mp he
    · exact hactivate.delivered e he
    · -- it goes to the link of the peer it came from
      obtain rfl := List.mem_singleton.mp he
      obtain ⟨l, hl, hkey, -⟩ := hp.activate_link hn
      refine ⟨l, hl, fun ha => ?_⟩
      obtain ⟨o, ho, hto, rfl⟩ := hjson (hkey.symm.trans ha)
      exact ⟨o, ho, hto, hmsg⟩

/-- **Step.** A frame of `a` is one that it published for this node. -/
theorem Faithful.onWire (h : Faithful sent a me t) (hp : Peers t) (hids : UniqueIds sent) {now : ℤ}
    {ev : NostrEvent} (hev : ev.pubkey = a → ["p", me] ∈ ev.tags ∧ Carries sent ev) :
    Faithful sent a me (t.onWire now ev) := by
  have hheard : Faithful sent a me (t.heard now ev.pubkey) := ⟨h.settled, h.genuine, h.delivered⟩
  have hpeers : ∀ r : Reassembler, Peers { t.heard now ev.pubkey with reasm := r } := fun r => by
    have hsame : SamePeers t { t.heard now ev.pubkey with reasm := r } :=
      ⟨rfl, rfl, rfl, rfl, rfl, rfl⟩
    exact hsame.peers hp
  obtain heq | ⟨heq, hplain⟩ | ⟨gc, r, hgc, rfl, hr⟩ := onWire_cases t now ev
  · rw [heq]
    exact h
  · rw [heq]
    refine hheard.deliver (hpeers t.reasm) fun ha => ?_
    obtain ⟨hmine, hcarries⟩ := hev ha
    cases hcarries with
    | whole mem plain content addressed => exact ⟨_, mem, addressed me hmine, content⟩
    | part mem splits content header addressed =>
      rw [hplain] at header
      cases header
  · have hpart : ev.pubkey = a → ∀ i n : ℕ, gc[2]?.bind intOfText? = some (i : ℤ) →
        gc[3]?.bind intOfText? = some (n : ℤ) →
        Reassembler.Part sent me (gc[1]?.getD "") i n ev.content := by
      intro ha i n hi hn
      obtain ⟨hmine, hcarries⟩ := hev ha
      cases hcarries with
      | whole mem plain content addressed =>
        rw [hgc] at plain
        cases plain
      | part mem splits content header addressed =>
        rename_i o id parts j
        rw [hgc] at header
        obtain rfl := Option.some.inj header
        have hmany := (splitPayload_spec splits.split).2.1
        have hlt : j < parts.length := (List.getElem?_eq_some_iff.mp content).1
        have hmax : maxParts = 1024 := rfl
        have hindex : intOfText? (toString j) = some (i : ℤ) := hi
        have htotal : intOfText? (toString parts.length) = some (n : ℤ) := hn
        rw [intOfText?_toString (by omega)] at hindex htotal
        obtain rfl : j = i := Int.ofNat.inj (Option.some.inj hindex)
        obtain rfl : parts.length = n := Int.ofNat.inj (Option.some.inj htotal)
        exact ⟨o, mem, addressed me hmine, parts, splits, rfl, content⟩
    obtain ⟨hgenuine, hgiven⟩ := h.genuine.accept h.settled hids now hpart
    have hsettled : (t.reasm.accept ev.pubkey (gc[1]?.getD "") (gc[2]?.bind intOfText?)
        (gc[3]?.bind intOfText?) ev.content now).1.Settled :=
      h.settled.call (.accept ev.pubkey (gc[1]?.getD "") (gc[2]?.bind intOfText?)
        (gc[3]?.bind intOfText?) (some ev.content) now)
    generalize t.reasm.accept ev.pubkey (gc[1]?.getD "") (gc[2]?.bind intOfText?)
      (gc[3]?.bind intOfText?) ev.content now = r at hr hgenuine hgiven hsettled
    have hkept : Faithful sent a me { t.heard now ev.pubkey with reasm := r.1 } :=
      ⟨hsettled, hgenuine, h.delivered⟩
    obtain ⟨-, heq⟩ | ⟨json, hjson, heq⟩ := hr
    · rw [heq]
      exact hkept
    · rw [heq]
      exact hkept.deliver (hpeers r.1) fun ha => hgiven json hjson ha

theorem Faithful.step (h : Faithful sent a me t) (hp : Peers t) (hids : UniqueIds sent) {i : NostrStep}
    (hi : ∀ now ev, i = .wire now ev → ev.pubkey = a → ["p", me] ∈ ev.tags ∧ Carries sent ev) :
    Faithful sent a me (t.step C i) := by
  have hlater := (keeps_step (C := C) t i hp).2
  by_cases hwire : ∀ now ev, i ≠ .wire now ev
  · refine h.later ?_ hlater
    by_cases hsend : ∀ n now msg, i ≠ .send n now msg
    · exact (onlyPeers_step t hsend hwire).toSameReceived
    · push Not at hsend
      obtain ⟨n, now, msg, rfl⟩ := hsend
      show SameReceived t (t.send n now msg)
      unfold send NostrTransport.publishDirect
      cases t.links[n]? with
      | none => exact ⟨rfl, rfl⟩
      | some l =>
        simp only
        split_ifs
        · exact ⟨rfl, rfl⟩
        · exact ⟨rfl, rfl⟩
        · cases splitPayload msg.stringify maxContent with
          | error e => exact ⟨rfl, rfl⟩
          | ok parts => cases parts <;> exact ⟨rfl, rfl⟩
  · push Not at hwire
    obtain ⟨now, ev, rfl⟩ := hwire
    exact h.onWire hp hids (hi now ev rfl)

/-- **What is delivered was sent.** Let the frames that come in under the key `a`, in whatever order and
however often, be events that some boots of the peer `a` published to this node. Then a message handed
over on a link of `a` is one that a boot sent to this node. -/
theorem delivers_sent {a me network idPrefix : String} {maxPeers : ℕ} {boots : List NostrTransport}
    {steps : List NostrStep} (hboots : ∀ t ∈ boots, BootOf C a t)
    (hdrawn : ∀ t ∈ boots, ∀ t' ∈ boots, t.idPrefix = t'.idPrefix → t = t')
    (hsigned : ∀ now ev, .wire now ev ∈ steps → ev.pubkey = a →
      ["p", me] ∈ ev.tags ∧ ∃ t ∈ boots, ev ∈ t.published) :
    ∀ n msg, (n, msg) ∈ (run (step C) (new me network idPrefix maxPeers) steps).delivered →
      ∀ l, (run (step C) (new me network idPrefix maxPeers) steps).links[n]? = some l →
        l.peerKey = a → ∃ t ∈ boots, ∃ o ∈ t.sent, o.toPubkey = me ∧
          Json.parse o.msg.stringify = some msg := by
  have hids := uniqueIds_boots hboots hdrawn
  have hnew : Faithful (boots.flatMap NostrTransport.sent) a me (new me network idPrefix maxPeers) :=
    ⟨Reassembler.Settled.new {}, Reassembler.genuine_new _ a me {}, fun e he => (by cases he)⟩
  have hrun : ∀ (l : List NostrStep) (t : NostrTransport), l ⊆ steps → Peers t →
      Faithful (boots.flatMap NostrTransport.sent) a me t →
      Faithful (boots.flatMap NostrTransport.sent) a me (run (step C) t l) := by
    intro l
    induction l with
    | nil => exact fun t _ _ h => h
    | cons i l ih =>
      intro t hsub hp h
      refine ih _ (fun j hj => hsub (List.mem_cons_of_mem i hj)) (keeps_step t i hp).1 ?_
      refine h.step hp hids fun now ev hi ha => ?_
      obtain ⟨hmine, t, ht, hev⟩ := hsigned now ev (hi ▸ hsub List.mem_cons_self) ha
      refine ⟨hmine, ((hboots t ht).publishes.1.events ev hev).2.mono fun o ho => ?_⟩
      exact List.mem_flatMap.mpr ⟨t, ht, ho⟩
  have hfaithful := hrun steps _ (List.Subset.refl steps) (peers_new me network idPrefix maxPeers) hnew
  intro n msg hmem l hl hkey
  obtain ⟨l', hl', hsent⟩ := hfaithful.delivered (n, msg) hmem
  obtain rfl := Option.some.inj (hl.symm.trans hl')
  obtain ⟨o, ho, hto, hparse⟩ := hsent hkey
  obtain ⟨t, ht, ho⟩ := List.mem_flatMap.mp ho
  exact ⟨t, ht, o, ho, hto, hparse⟩

/-- Its signature check accepts anything. -/
def sampleCrypto : Crypto := ⟨id, fun _ _ _ => true⟩

/-- It sees the peer `b`, and greets it. -/
def sampleBoot : NostrTransport :=
  run (step sampleCrypto) (new "a" "net" ("x" ++ "-") 16)
    [.presence 0 ⟨"b", 0, [], []⟩, .send 0 5 (.str "hi")]

def sampleFrame : NostrEvent := ⟨"a", 5, [["p", "b"], ["d", "net"]], "\"hi\"".toList⟩

theorem delivers_sent_hi :
    (run (step sampleCrypto) (new "b" "net" "y-" 16) [.wire 6 sampleFrame]).delivered.length = 1 ∧
    ∀ n msg, (n, msg) ∈
        (run (step sampleCrypto) (new "b" "net" "y-" 16) [.wire 6 sampleFrame]).delivered →
      ∀ l, (run (step sampleCrypto) (new "b" "net" "y-" 16) [.wire 6 sampleFrame]).links[n]? = some l →
        l.peerKey = "a" → ∃ t ∈ [sampleBoot], ∃ o ∈ t.sent, o.toPubkey = "b" ∧
          Json.parse o.msg.stringify = some msg := by
  refine ⟨by decide, delivers_sent ?_ (by simp) ?_⟩
  · intro t ht
    obtain rfl := List.mem_singleton.mp ht
    exact ⟨"net", "x", 16, _, by decide, rfl⟩
  · intro now ev hmem _
    obtain ⟨rfl, rfl⟩ : now = 6 ∧ ev = sampleFrame := by simpa using hmem
    exact ⟨by decide, sampleBoot, List.mem_singleton.mpr rfl, by decide⟩

end NostrTransport

end Gavl
