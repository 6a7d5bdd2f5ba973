import Gavl.Consensus.HeadsTheorems
import Gavl.Consensus.Interleaving

/-!
# What concurrent adds leave

An anchor is stored before the application has answered for it, so that in the meantime others may
come to rest on it. The store stays closed under `prev` exactly as long as no answer and no
verification comes too late: each of the three conditions below is one such moment.
-/

namespace Gavl

open AnchorChain Runs

variable {cfg : ChainConfig} {c : AnchorChain} {a b : Anchor} {heads : Heads}

namespace AnchorChain

/-- Every stored link leads to a stored anchor, and the tip is one. -/
structure Closed (c : AnchorChain) : Prop where
  prev_held : ∀ a, c.Holds a → ∀ id, a.prev = some id → (c.get id).isSome
  tip_held : ∀ id, c.tipId = some id → (c.get id).isSome

theorem get_unstore (id id' : String) :
    (c.unstore id).get id' = if id = id' then none else c.get id' := OrderedMap.get?_delete _ _ _

theorem holds_unstore {id : String} : (c.unstore id).Holds b ↔ b.id ≠ id ∧ c.Holds b := by
  unfold Holds
  rw [get_unstore]
  split_ifs with h
  · subst h
    simp
  · exact (and_iff_right (Ne.symm h)).symm

/-- Storing an anchor whose id no link names keeps the store closed exactly if its own link is
held. -/
theorem Closed.store_iff (h : c.Closed) (hne : a.prev ≠ some a.id) :
    (c.store a).Closed ↔ ∀ id, a.prev = some id → (c.get id).isSome := by
  constructor
  · intro hs id hid
    have hget := hs.prev_held a (by unfold Holds; rw [get_store, if_pos rfl]) id hid
    rw [get_store] at hget
    split_ifs at hget with heq
    · exact absurd (heq ▸ hid) hne
    · exact hget
  · intro ha
    have hmono : ∀ id, (c.get id).isSome → ((c.store a).get id).isSome := by
      intro id hid
      rw [get_store]
      split_ifs
      · rfl
      · exact hid
    refine ⟨fun b hb id hid => ?_, fun id hid => hmono id (h.tip_held id hid)⟩
    rcases holds_store_cases hb with rfl | hb
    · exact hmono id (ha id hid)
    · exact hmono id (h.prev_held b hb id hid)

/-- Dropping an anchor keeps the store closed exactly if nothing else links to it and it is not the
tip. -/
theorem Closed.unstore_iff (h : c.Closed) (id : String) :
    (c.unstore id).Closed ↔ (∀ b, c.Holds b → b.id ≠ id → b.prev ≠ some id) ∧ c.tipId ≠ some id := by
  constructor
  · intro hs
    refine ⟨fun b hb hne hprev => ?_, fun htip => ?_⟩
    · have hget := hs.prev_held b (holds_unstore.mpr ⟨hne, hb⟩) id hprev
      rw [get_unstore, if_pos rfl] at hget
      exact absurd hget (by simp)
    · have hget := hs.tip_held id htip
      rw [get_unstore, if_pos rfl] at hget
      exact absurd hget (by simp)
  · rintro ⟨hlinks, htip⟩
    refine ⟨fun b hb id' hid => ?_, fun id' hid => ?_⟩
    · obtain ⟨hne, hb⟩ := holds_unstore.mp hb
      have hother : id ≠ id' := fun heq => hlinks b hb hne (heq ▸ hid)
      rw [get_unstore, if_neg hother]
      exact h.prev_held b hb id' hid
    · have hother : id ≠ id' := fun heq => htip (heq ▸ hid)
      rw [get_unstore, if_neg hother]
      exact h.tip_held id' hid

/-- The tail of `add` stores and drops nothing. -/
theorem sameStore_conclude : SameStore c (c.conclude cfg a heads) := by
  unfold conclude
  split_ifs
  · exact ⟨rfl, rfl, rfl, rfl⟩
  · exact ⟨rfl, rfl, rfl, rfl⟩
  · exact sameStore_choose

/-- Where the tip is stored, the tail moves it as `choose` does. -/
theorem Closed.tipId_conclude (h : c.Closed) : (c.conclude cfg a heads).tipId
    = if c.takesTip a then some a.id else c.tipId := by
  have htip : (c.tipId.isSome && c.tip.isNone) = false := by
    unfold tip
    cases hid : c.tipId with
    | none => rfl
    | some id =>
      have hheld := h.tip_held id hid
      rw [Option.bind_some, ← Option.not_isSome, hheld]
      rfl
  unfold conclude
  rw [htip, if_neg Bool.false_ne_true]
  split_ifs with hsettled htakes htakes
  · rw [choose_of_takesTip htakes] at hsettled
    exact absurd hsettled.1 (by simp)
  · rfl
  · rw [tipId_choose, if_pos htakes]
  · rw [tipId_choose, if_neg htakes]

/-- Concluding keeps the store closed exactly if an anchor that takes the tip is still stored. -/
theorem Closed.conclude_iff (h : c.Closed) : (c.conclude cfg a heads).Closed ↔
    (c.takesTip a = true → (c.get a.id).isSome) := by
  have hstore : SameStore c (c.conclude cfg a heads) := sameStore_conclude
  constructor
  · intro hs htakes
    have hget := hs.tip_held a.id (by rw [h.tipId_conclude, if_pos htakes])
    rw [hstore.get] at hget
    exact hget
  · intro htakes
    refine ⟨fun b hb id hid => ?_, fun id hid => ?_⟩
    · rw [hstore.get]
      exact h.prev_held b (hstore.holds.mp hb) id hid
    · rw [hstore.get]
      rw [h.tipId_conclude] at hid
      split_ifs at hid with ht
      · rw [← Option.some.inj hid]
        exact htakes ht
      · exact h.tip_held id hid

end AnchorChain

namespace Adding

variable {s : Adding} {i : ℕ} {call : AddCall}

/-- No answer and no verification comes too late. -/
def Timely (cfg : ChainConfig) (s : Adding) : AddEvent → Prop
  | .start _ => True
  -- an anchor that is verified now still has its parent
  | .verified i => ∀ call, s.calls[i]? = some call → call.phase = .verifying →
      ∀ heads, call.verdict cfg = .ok heads → ∀ p, call.prev = some p → (s.chain.get p.id).isSome
  -- an anchor that takes the tip now is still stored
  | .answered i true => ∀ call heads, s.calls[i]? = some call → call.phase = .checking heads →
      s.chain.takesTip call.anchor = true → (s.chain.get call.anchor.id).isSome
  -- an anchor that is dropped now bears no other, and is not the tip
  | .answered i false => ∀ call heads, s.calls[i]? = some call → call.phase = .checking heads →
      (∀ b, s.chain.Holds b → b.id ≠ call.anchor.id → b.prev ≠ some call.anchor.id) ∧
        s.chain.tipId ≠ some call.anchor.id

/-- What a call knows: its parent is another anchor, one that waits for the application was verified,
and so was one that passed. -/
structure Informed (cfg : ChainConfig) (call : AddCall) : Prop where
  prev_ne : ∀ p, call.prev = some p → p.id ≠ call.anchor.id
  checking : ∀ heads, call.phase = .checking heads → call.verdict cfg = .ok heads
  passed : call.phase = .finished true → ∃ heads, call.verdict cfg = .ok heads

/-- What holds whatever happens: the store is keyed by id, has at most the genesis as a root, and
every call is informed. -/
structure Kept (cfg : ChainConfig) (s : Adding) : Prop where
  keyed : ∀ id a, s.chain.get id = some a → a.id = id
  root : ∀ a, s.chain.Holds a → a.prev = none →
    s.chain.genesisId = none ∨ s.chain.genesisId = some a.id
  informed : ∀ call ∈ s.calls, Informed cfg call
  opened : ∀ call ∈ s.calls, call.anchor.prev = none →
    s.chain.genesisId = none ∨ s.chain.genesisId = some call.anchor.id

/-! ## One event -/

theorem prev_eq_of_verdict (h : call.verdict cfg = .ok heads) :
    call.anchor.prev = call.prev.map (·.id) := (verifyAnchor_ok h).prev_eq

theorem verified_cases (s : Adding) (cfg : ChainConfig) (i : ℕ) :
    (∃ call, s.calls[i]? = some call ∧ call.phase = .verifying ∧
        s.step cfg (.verified i) = s.resumeVerified cfg i call) ∨
      ((∀ call, s.calls[i]? = some call → call.phase ≠ .verifying) ∧
        s.step cfg (.verified i) = s) := by
  unfold step
  cases hcall : s.calls[i]? with
  | none => exact Or.inr ⟨fun call h => absurd h (by simp), by simp only [hcall]⟩
  | some call =>
    cases hphase : call.phase with
    | verifying => exact Or.inl ⟨call, rfl, hphase, by simp only [hcall, hphase]⟩
    | checking heads =>
      refine Or.inr ⟨fun call' h => ?_, by simp only [hcall, hphase]⟩
      rw [← Option.some.inj h, hphase]
      simp
    | finished passed =>
      refine Or.inr ⟨fun call' h => ?_, by simp only [hcall, hphase]⟩
      rw [← Option.some.inj h, hphase]
      simp

theorem answered_cases (s : Adding) (cfg : ChainConfig) (i : ℕ) (accepted : Bool) :
    (∃ call heads, s.calls[i]? = some call ∧ call.phase = .checking heads ∧
        s.step cfg (.answered i accepted) = s.resumeAnswered cfg i call heads accepted) ∨
      ((∀ call heads, s.calls[i]? = some call → call.phase ≠ .checking heads) ∧
        s.step cfg (.answered i accepted) = s) := by
  unfold step
  cases hcall : s.calls[i]? with
  | none => exact Or.inr ⟨fun call heads h => absurd h (by simp), by simp only [hcall]⟩
  | some call =>
    cases hphase : call.phase with
    | checking heads => exact Or.inl ⟨call, heads, rfl, hphase, by simp only [hcall, hphase]⟩
    | verifying =>
      refine Or.inr ⟨fun call' heads h => ?_, by simp only [hcall, hphase]⟩
      rw [← Option.some.inj h, hphase]
      simp
    | finished passed =>
      refine Or.inr ⟨fun call' heads h => ?_, by simp only [hcall, hphase]⟩
      rw [← Option.some.inj h, hphase]
      simp

/-- A call that starts is fresh: its anchor is not stored, and its parent is. -/
theorem opening_some (hkeyed : ∀ id x, c.get id = some x → x.id = id)
    (h : c.opening cfg a = some call) : call.anchor = a ∧ call.phase = .verifying ∧
      (∀ p, call.prev = some p → p.id ≠ a.id) ∧
      (a.prev = none → c.genesisId = none ∨ c.genesisId = some a.id) := by
  unfold opening at h
  split_ifs at h with hhas hroot hknown
  rw [Option.some.injEq] at h
  subst h
  refine ⟨rfl, rfl, fun p hp heq => ?_, fun hprev => ?_⟩
  · obtain ⟨id, -, -, hget⟩ := parent_eq_some.mp hp
    refine hhas ((OrderedMap.has_iff _ _).mpr ⟨p, ?_⟩)
    rw [← heq, hkeyed id p hget]
    exact hget
  · by_contra hnot
    rw [not_or] at hnot
    exact hroot ⟨hprev, hnot.1, fun heq => hnot.2 heq.symm⟩

/-- A call that moves on stays informed. -/
theorem mem_move {s : Adding} {x : AddCall} {phase : Phase} (hx : x ∈ s.move i call phase) :
    x ∈ s.calls ∨ x = { call with phase := phase } := List.mem_or_eq_of_mem_set hx

/-- An event on one call: the chain it leaves, and the phase the call moves to. -/
theorem Kept.move (h : Kept cfg s) (hcall : call ∈ s.calls) {c' : AnchorChain} {phase : Phase}
    (hgenesis : c'.genesisId = s.chain.genesisId)
    (hheld : ∀ id x, c'.get id = some x → s.chain.get id = some x ∨ (id = call.anchor.id ∧ x = call.anchor))
    (hchecking : ∀ heads, phase = .checking heads → call.verdict cfg = .ok heads)
    (hpassed : phase = .finished true → ∃ heads, call.verdict cfg = .ok heads) :
    Kept cfg ⟨c', s.move i call phase⟩ where
  keyed := fun id x hx => by
    rcases hheld id x hx with hx | ⟨rfl, rfl⟩
    · exact h.keyed id x hx
    · rfl
  root := fun x hx hprev => by
    rw [hgenesis]
    rcases hheld x.id x hx with hx | ⟨-, rfl⟩
    · exact h.root x hx hprev
    · exact h.opened call hcall hprev
  informed := fun x hx => by
    rcases mem_move hx with hx | rfl
    · exact h.informed x hx
    · exact ⟨(h.informed call hcall).prev_ne, hchecking, hpassed⟩
  opened := fun x hx hprev => by
    rw [hgenesis]
    rcases mem_move hx with hx | rfl
    · exact h.opened x hx hprev
    · exact h.opened call hcall hprev

/-- **Step.** Whatever happens next, the store stays keyed and the calls informed. -/
theorem Kept.step (h : Kept cfg s) (e : AddEvent) : Kept cfg (s.step cfg e) := by
  cases e with
  | start a =>
    unfold Adding.step
    simp only
    cases hopen : s.chain.opening cfg a with
    | none => exact h
    | some call =>
      obtain ⟨rfl, hphase, hne, hroot⟩ := opening_some h.keyed hopen
      refine ⟨h.keyed, h.root, fun x hx => ?_, fun x hx hprev => ?_⟩
      · rcases List.mem_append.mp hx with hx | hx
        · exact h.informed x hx
        · rw [List.mem_singleton.mp hx]
          exact ⟨hne, fun heads hc => absurd (hphase.symm.trans hc) (by simp),
            fun ho => absurd (hphase.symm.trans ho) (by simp)⟩
      · rcases List.mem_append.mp hx with hx | hx
        · exact h.opened x hx hprev
        · rw [List.mem_singleton.mp hx] at hprev ⊢
          exact hroot hprev
  | verified i =>
    rcases verified_cases s cfg i with ⟨call, hcall, -, hstep⟩ | ⟨-, hstep⟩
    · rw [hstep]
      have hmem := List.mem_of_getElem? hcall
      unfold resumeVerified
      cases hv : call.verdict cfg with
      | ok heads =>
        refine h.move hmem rfl (fun id x hx => ?_) (fun heads' heq => ?_) (fun heq => absurd heq (by simp))
        · rw [get_store] at hx
          split_ifs at hx with hid
          · exact Or.inr ⟨hid.symm, (Option.some.inj hx).symm⟩
          · exact Or.inl hx
        · rw [hv, Phase.checking.inj heq]
      | fail reason =>
        exact h.move hmem rfl (fun id x hx => Or.inl hx) (fun heads heq => absurd heq (by simp))
          (fun heq => absurd heq (by simp))
      | thrown message =>
        exact h.move hmem rfl (fun id x hx => Or.inl hx) (fun heads heq => absurd heq (by simp))
          (fun heq => absurd heq (by simp))
    · rw [hstep]
      exact h
  | answered i accepted =>
    rcases answered_cases s cfg i accepted with ⟨call, heads, hcall, hphase, hstep⟩ | ⟨-, hstep⟩
    · rw [hstep]
      have hmem := List.mem_of_getElem? hcall
      unfold resumeAnswered
      cases accepted with
      | true =>
        have hstore : SameStore s.chain (s.chain.conclude cfg call.anchor heads) := sameStore_conclude
        refine h.move hmem hstore.genesisId (fun id x hx => ?_) (fun heads' heq => absurd heq (by simp))
          (fun _ => ⟨heads, (h.informed call hmem).checking heads hphase⟩)
        rw [hstore.get] at hx
        exact Or.inl hx
      | false =>
        refine h.move hmem rfl (fun id x hx => ?_) (fun heads' heq => absurd heq (by simp))
          (fun heq => absurd heq (by simp))
        rw [get_unstore] at hx
        split_ifs at hx
        exact Or.inl hx
    · rw [hstep]
      exact h

/-- **Step.** From a closed store, an event leaves a closed store exactly if it is timely. -/
theorem Kept.closed_step_iff (h : Kept cfg s) (hclosed : s.chain.Closed) (e : AddEvent) :
    (s.step cfg e).chain.Closed ↔ Timely cfg s e := by
  cases e with
  | start a =>
    have hsame : (s.step cfg (.start a)).chain = s.chain := by
      unfold Adding.step
      simp only
      cases s.chain.opening cfg a <;> rfl
    rw [hsame]
    exact iff_of_true hclosed trivial
  | verified i =>
    rcases verified_cases s cfg i with ⟨call, hcall, hphase, hstep⟩ | ⟨hnone, hstep⟩
    · rw [hstep]
      have hinformed := h.informed call (List.mem_of_getElem? hcall)
      unfold resumeVerified Timely
      cases hv : call.verdict cfg with
      | ok heads =>
        have hprev := prev_eq_of_verdict hv
        have hne : call.anchor.prev ≠ some call.anchor.id := by
          intro heq
          rw [hprev] at heq
          obtain ⟨p, hp, hid⟩ := Option.map_eq_some_iff.mp heq
          exact hinformed.prev_ne p hp hid
        show (s.chain.store call.anchor).Closed ↔ _
        rw [hclosed.store_iff hne]
        constructor
        · intro hheld call' hcall' _ heads' _ p hp
          obtain rfl := Option.some.inj (hcall.symm.trans hcall')
          exact hheld p.id (by rw [hprev, hp]; rfl)
        · intro htimely id hid
          rw [hprev] at hid
          obtain ⟨p, hp, rfl⟩ := Option.map_eq_some_iff.mp hid
          exact htimely call hcall hphase heads hv p hp
      | fail reason =>
        refine iff_of_true hclosed fun call' hcall' _ heads hok => ?_
        obtain rfl := Option.some.inj (hcall.symm.trans hcall')
        exact absurd (hv.symm.trans hok) (by simp)
      | thrown message =>
        refine iff_of_true hclosed fun call' hcall' _ heads hok => ?_
        obtain rfl := Option.some.inj (hcall.symm.trans hcall')
        exact absurd (hv.symm.trans hok) (by simp)
    · rw [hstep]
      exact iff_of_true hclosed fun call hcall hphase => absurd hphase (hnone call hcall)
  | answered i accepted =>
    rcases answered_cases s cfg i accepted with ⟨call, heads, hcall, hphase, hstep⟩ | ⟨hnone, hstep⟩
    · rw [hstep]
      unfold resumeAnswered
      cases accepted with
      | true =>
        show (s.chain.conclude cfg call.anchor heads).Closed ↔ Timely cfg s (.answered i true)
        rw [hclosed.conclude_iff]
        unfold Timely
        constructor
        · intro htip call' _ hcall' _ htakes
          obtain rfl := Option.some.inj (hcall.symm.trans hcall')
          exact htip htakes
        · exact fun htimely => htimely call heads hcall hphase
      | false =>
        show (s.chain.unstore call.anchor.id).Closed ↔ Timely cfg s (.answered i false)
        rw [hclosed.unstore_iff]
        unfold Timely
        constructor
        · intro hfree call' _ hcall' _
          obtain rfl := Option.some.inj (hcall.symm.trans hcall')
          exact hfree
        · exact fun htimely => htimely call heads hcall hphase
    · rw [hstep]
      refine iff_of_true hclosed ?_
      cases accepted with
      | true => exact fun call heads hcall hphase => absurd hphase (hnone call heads hcall)
      | false => exact fun call heads hcall hphase => absurd hphase (hnone call heads hcall)

/-! ## Who vouches for an anchor -/

/-- The call stored its anchor, and has not dropped it. -/
def Stands (call : AddCall) : Prop :=
  (∃ heads, call.phase = .checking heads) ∨ call.phase = .finished true

/-- Every stored anchor was there at the start, or some call stands for it. -/
def Vouched (c₀ : AnchorChain) (s : Adding) : Prop :=
  ∀ b, s.chain.Holds b → c₀.Holds b ∨
    ∃ (j : ℕ) (call : AddCall), s.calls[j]? = some call ∧ call.anchor = b ∧ Stands call

variable {c₀ : AnchorChain}

/-- The other calls stand as they did. -/
theorem stands_move {j : ℕ} {x : AddCall} {phase : Phase} (hcall : s.calls[i]? = some call)
    (hx : s.calls[j]? = some x) (hother : x.anchor ≠ call.anchor ∨ ¬Stands call) (hstands : Stands x) :
    (s.move i call phase)[j]? = some x := by
  have hne : i ≠ j := by
    rintro rfl
    obtain rfl := Option.some.inj (hcall.symm.trans hx)
    rcases hother with hanchor | hnot
    · exact hanchor rfl
    · exact hnot hstands
  unfold Adding.move
  rw [List.getElem?_set_ne hne, hx]

/-- The call that moves on stands in its new phase. -/
theorem getElem?_move {phase : Phase} (hcall : s.calls[i]? = some call) :
    (s.move i call phase)[i]? = some { call with phase := phase } := by
  unfold Adding.move
  exact List.getElem?_set_self (List.getElem?_eq_some_iff.mp hcall).1

/-- **Step.** Whatever happens next, every stored anchor is vouched for. -/
theorem Vouched.step (h : Vouched c₀ s) (e : AddEvent) : Vouched c₀ (s.step cfg e) := by
  cases e with
  | start a =>
    unfold Adding.step
    simp only
    cases s.chain.opening cfg a with
    | none => exact h
    | some call =>
      intro b hb
      rcases h b hb with hold | ⟨j, x, hx, hanchor, hstands⟩
      · exact Or.inl hold
      · have hlt := (List.getElem?_eq_some_iff.mp hx).1
        exact Or.inr ⟨j, x, by rw [List.getElem?_append_left hlt, hx], hanchor, hstands⟩
  | verified i =>
    rcases verified_cases s cfg i with ⟨call, hcall, hphase, hstep⟩ | ⟨-, hstep⟩
    · rw [hstep]
      have hnot : ¬Stands call := by
        unfold Stands
        rw [hphase]
        simp
      have hrest : ∀ (phase : Phase) (b : Anchor), s.chain.Holds b → c₀.Holds b ∨
          ∃ (j : ℕ) (x : AddCall), (s.move i call phase)[j]? = some x ∧ x.anchor = b ∧ Stands x := by
        intro phase b hb
        rcases h b hb with hold | ⟨j, x, hx, hanchor, hstands⟩
        · exact Or.inl hold
        · exact Or.inr ⟨j, x, stands_move hcall hx (Or.inr hnot) hstands, hanchor, hstands⟩
      unfold resumeVerified
      cases call.verdict cfg with
      | ok heads =>
        intro b hb
        rcases holds_store_cases hb with rfl | hb
        · exact Or.inr ⟨i, _, getElem?_move hcall, rfl, Or.inl ⟨heads, rfl⟩⟩
        · exact hrest _ b hb
      | fail reason => exact hrest _
      | thrown message => exact hrest _
    · rw [hstep]
      exact h
  | answered i accepted =>
    rcases answered_cases s cfg i accepted with ⟨call, heads, hcall, hphase, hstep⟩ | ⟨-, hstep⟩
    · rw [hstep]
      unfold resumeAnswered
      intro b hb
      cases accepted with
      | true =>
        have hstore : SameStore s.chain (s.chain.conclude cfg call.anchor heads) := sameStore_conclude
        rcases h b (hstore.holds.mp hb) with hold | ⟨j, x, hx, hanchor, hstands⟩
        · exact Or.inl hold
        · right
          by_cases hij : i = j
          · -- it is the call that passes now
            subst hij
            obtain rfl := Option.some.inj (hcall.symm.trans hx)
            exact ⟨i, _, getElem?_move hcall, hanchor, Or.inr rfl⟩
          · refine ⟨j, x, ?_, hanchor, hstands⟩
            show (s.calls.set i _)[j]? = some x
            rw [List.getElem?_set_ne hij, hx]
      | false =>
        obtain ⟨hne, hb⟩ := holds_unstore.mp hb
        rcases h b hb with hold | ⟨j, x, hx, hanchor, hstands⟩
        · exact Or.inl hold
        · refine Or.inr ⟨j, x, stands_move hcall hx (Or.inl ?_) hstands, hanchor, hstands⟩
          intro heq
          exact hne (by rw [← hanchor, heq])
    · rw [hstep]
      exact h

/-! ## Every interleaving -/

/-- A chain before any call. -/
def idle (c : AnchorChain) : Adding := ⟨c, []⟩

theorem Kept.idle (hroot : Rooted cfg c) : Kept cfg (idle c) where
  keyed := hroot.grown.linked.keyed
  root := fun a ha hprev => by
    cases hroot with
    | new => exact Or.inl rfl
    | genesis hheads hg =>
      have hi := installGenesis_ok hg
      right
      show c.genesisId = some a.id
      rw [hi.genesisId_eq, hi.holds_iff.mp ha]
  informed := fun call hcall => absurd hcall (by simp [Adding.idle])
  opened := fun call hcall => absurd hcall (by simp [Adding.idle])

theorem closed_of_rooted (hroot : Rooted cfg c) : c.Closed := by
  cases hroot with
  | new =>
    exact ⟨fun a ha => absurd ha (by simp [Holds, AnchorChain.get, AnchorChain.new]),
      fun id hid => absurd hid (by simp [AnchorChain.new])⟩
  | genesis hheads hg =>
    have hi := installGenesis_ok hg
    refine ⟨fun a ha id hid => ?_, fun id hid => ?_⟩
    · rw [hi.holds_iff.mp ha, hi.prev_eq] at hid
      exact absurd hid (by simp)
    · rw [hi.tipId_eq] at hid
      rw [← Option.some.inj hid, hi.get_eq, if_pos rfl]
      rfl

/-- The anchor passed both checks in some call. -/
def Passed (cfg : ChainConfig) (s : Adding) (a : Anchor) : Prop :=
  ∃ call ∈ s.calls, call.anchor = a ∧ call.phase = .finished true ∧
    ∃ heads, call.verdict cfg = .ok heads

/-- **Concurrent adds and the store.** Whatever calls of `add` are made of a chain grown from its
root, and however they interleave: the store is closed in every state reached exactly if every event
is timely. The genesis is its only root, and whenever no call is running every other anchor in it
passed both checks. -/
theorem closed_iff_timely (cfg : ChainConfig) (c₀ : AnchorChain) (hroot : Rooted cfg c₀)
    (events : List AddEvent) :
    ((∀ pre, pre <+: events → (run (step cfg) (idle c₀) pre).chain.Closed) ↔
        Along (step cfg) (Timely cfg) (idle c₀) events) ∧
      (∀ a, (run (step cfg) (idle c₀) events).chain.Holds a → a.prev = none →
        (run (step cfg) (idle c₀) events).chain.genesisId = none ∨
          (run (step cfg) (idle c₀) events).chain.genesisId = some a.id) ∧
      ((run (step cfg) (idle c₀) events).Quiet →
        ∀ a, (run (step cfg) (idle c₀) events).chain.Holds a →
          c₀.Holds a ∨ Passed cfg (run (step cfg) (idle c₀) events) a) := by
  have hkept : Kept cfg (run (step cfg) (idle c₀) events) :=
    inv_run _ (fun s e hs => hs.step e) (Kept.idle hroot) events
  have hvouched : Vouched c₀ (run (step cfg) (idle c₀) events) :=
    inv_run _ (fun s e hs => hs.step e) (fun b hb => Or.inl hb) events
  refine ⟨?_, hkept.root, fun hquiet a ha => ?_⟩
  · exact forall_prefix_iff (Kept cfg) (fun s e hs hclosed => ⟨hs.step e, hs.closed_step_iff hclosed e⟩)
      (Kept.idle hroot) (closed_of_rooted hroot) events
  · rcases hvouched a ha with hold | ⟨j, call, hcall, hanchor, hstands⟩
    · exact Or.inl hold
    · right
      have hmem := List.mem_of_getElem? hcall
      obtain ⟨passed, hfinished⟩ := hquiet call hmem
      rcases hstands with ⟨heads, hchecking⟩ | hpassed
      · exact absurd (hfinished.symm.trans hchecking) (by simp)
      · exact ⟨call, hmem, hanchor, hpassed, (hkept.informed call hmem).passed hpassed⟩

end Adding

/-! ## One call after the other -/

namespace AnchorChain

/-- Only a settled anchor that exists can be in conflict. -/
theorem settledId_of_conflict
    (h : (c.choose cfg a heads).2 = .fail "rejected: conflicts with SETTLED history") :
    c.settledId ≠ none := by
  intro hnone
  have hdescends : c.descendsFrom a c.settledId = true := by
    rw [hnone]
    rfl
  unfold choose at h
  by_cases hlock : c.descendsFrom a c.lockedId = true
  · rw [if_pos hlock] at h
    by_cases htip : c.wouldBeTip a = true
    · rw [if_pos htip] at h
      exact AddResult.noConfusion h
    · rw [if_neg htip] at h
      exact AddResult.noConfusion h
  · rw [if_neg hlock] at h
    cases hswitch : (c.forkVerdict a).switchTo with
    | none =>
      simp only [hswitch] at h
      by_cases htip : c.wouldBeTip a = true
      · rw [if_pos htip] at h
        exact absurd (AddResult.fail.inj h) (by decide)
      · rw [if_neg htip] at h
        exact AddResult.noConfusion h
    | some id =>
      simp only [hswitch] at h
      by_cases hwins : ((c.forkVerdict a).final || c.wouldBeTip a) = true
      · rw [if_pos hwins, hdescends] at h
        exact AddResult.noConfusion h
      · rw [if_neg hwins] at h
        exact AddResult.noConfusion h

/-- Where the tip and the settled anchor are stored, nothing throws. -/
theorem conclude_eq (htip : c.tipId.isSome → c.tip.isSome)
    (hsettled : c.settledId ≠ none → c.settled.isSome) :
    c.conclude cfg a heads = (c.choose cfg a heads).1 := by
  unfold conclude
  split_ifs with hmissing hconflict
  · rw [Bool.and_eq_true] at hmissing
    have hheld := htip hmissing.1
    rw [← Option.not_isNone, hmissing.2] at hheld
    exact absurd hheld (by simp)
  · have hheld := hsettled (settledId_of_conflict hconflict.1)
    rw [← Option.not_isNone, hconflict.2] at hheld
    exact absurd hheld (by simp)
  · rfl

end AnchorChain

namespace Adding

variable {s : Adding}

/-- A call that nothing comes in between is `add`. -/
theorem chain_eq_add (check : StateCheck) (answer : Bool)
    (hanswer : ∀ heads, s.chain.verify cfg a = .ok heads → check (s.chain.store a) a heads = answer)
    (htip : (s.chain.store a).tipId.isSome → (s.chain.store a).tip.isSome)
    (hsettled : (s.chain.store a).settledId ≠ none → (s.chain.store a).settled.isSome) :
    (run (step cfg) s [.start a, .verified s.calls.length, .answered s.calls.length answer]).chain
      = (s.chain.add cfg check a).1 := by
  have hnone : s.chain.opening cfg a = none →
      (run (step cfg) s [.start a, .verified s.calls.length, .answered s.calls.length answer]).chain
        = s.chain := by
    intro hopen
    have hstart : s.step cfg (.start a) = s := by
      unfold step
      simp only [hopen]
    have hout : s.calls[s.calls.length]? = none := List.getElem?_eq_none (le_refl _)
    have hverified : s.step cfg (.verified s.calls.length) = s := by
      unfold step
      simp only [hout]
    have hanswered : s.step cfg (.answered s.calls.length answer) = s := by
      unfold step
      simp only [hout]
    rw [run_cons, run_cons, run_cons, run_nil, hstart, hverified, hanswered]
  unfold AnchorChain.add
  unfold AnchorChain.opening at hnone
  split_ifs with hhas hwrong hknown
  · exact hnone (if_pos hhas)
  · exact hnone (by rw [if_neg hhas, if_pos hwrong])
  · exact hnone (by rw [if_neg hhas, if_neg hwrong, if_pos hknown])
  · -- the call is made, on the chain as it is
    generalize hcall : (⟨a, s.chain.parent a, s.chain.parentHeads a,
      s.chain.difficultyFor cfg (s.chain.parent a), .verifying⟩ : AddCall) = call
    have hverdict : call.verdict cfg = s.chain.verify cfg a := by
      rw [← hcall]
      rfl
    have hanchor : call.anchor = a := by rw [← hcall]
    have hphase : call.phase = .verifying := by rw [← hcall]
    have hstart : s.step cfg (.start a) = ⟨s.chain, s.calls ++ [call]⟩ := by
      unfold step AnchorChain.opening
      simp only [if_neg hhas, if_neg hwrong, if_neg hknown, hcall]
    rw [run_cons, run_cons, run_cons, run_nil, hstart]
    have hverified : step cfg ⟨s.chain, s.calls ++ [call]⟩ (.verified s.calls.length)
        = resumeVerified ⟨s.chain, s.calls ++ [call]⟩ cfg s.calls.length call := by
      unfold step
      simp [hphase]
    rw [hverified]
    unfold resumeVerified move
    rw [hverdict]
    cases hv : s.chain.verify cfg a with
    | fail reason => simp [step]
    | thrown message => simp [step]
    | ok heads =>
      simp only
      rw [hanchor, hanswer heads hv]
      cases answer with
      | true =>
        show _ = ((s.chain.store a).choose cfg a heads).1
        rw [← conclude_eq htip hsettled]
        simp [step, resumeAnswered]
      | false => simp [step, resumeAnswered, unstore]

instance (s : Adding) : Decidable s.Quiet :=
  decidable_of_iff (∀ call ∈ s.calls, (match call.phase with
    | .finished _ => true
    | _ => false) = true) <| by
    refine forall₂_congr fun call _ => ?_
    cases call.phase <;> simp

end Adding

namespace Overtaken

def config : ChainConfig := openConfig

def root : Anchor := assembled config.crypto 1 none genesisProducer ∅ ∅
def child : Anchor := assembled config.crypto 1 (some root) "p" ∅ ∅
def grandchild : Anchor := assembled config.crypto 1 (some child) "p" ∅ ∅

/-- The grandchild passes while the application still looks at the child, which it then refuses. -/
def events : List AddEvent :=
  [.start child, .verified 0, .start grandchild, .verified 1, .answered 1 true, .answered 0 false]

/-- The child is added twice at once; the application accepts it, then refuses it. -/
def twice : List AddEvent :=
  [.start child, .start child, .verified 0, .verified 1, .answered 0 true, .answered 1 false]

theorem rooted : Rooted config (rootedAt root ∅) :=
  Rooted.genesis rfl (installGenesis_new rfl rfl rfl)

end Overtaken

open Overtaken Adding in
/-- The theorem where a child is refused after its own child passed. -/
theorem closed_iff_timely_overtaken :
    (run (step config) (idle (rootedAt root ∅)) events).Quiet ∧
      ∀ a, (run (step config) (idle (rootedAt root ∅)) events).chain.Holds a →
        (rootedAt root ∅).Holds a ∨
          Passed config (run (step config) (idle (rootedAt root ∅)) events) a := by
  have hquiet : (run (step config) (idle (rootedAt root ∅)) events).Quiet := by decide +kernel
  exact ⟨hquiet, (closed_iff_timely config _ rooted events).2.2 hquiet⟩

open Overtaken Adding in
/-- With no call running, an anchor is left without its parent, or the tip is not stored. -/
theorem overtaken_not_closed :
    (∃ c₀, Rooted config c₀ ∧ (run (step config) (idle c₀) events).Quiet ∧
      ((run (step config) (idle c₀) events).chain.get grandchild.id).isSome ∧
      (run (step config) (idle c₀) events).chain.tipId = some grandchild.id ∧
      grandchild.prev = some child.id ∧
      ((run (step config) (idle c₀) events).chain.get child.id).isNone) ∧
    ∃ c₀, Rooted config c₀ ∧ (run (step config) (idle c₀) twice).Quiet ∧
      (run (step config) (idle c₀) twice).chain.tipId = some child.id ∧
      ((run (step config) (idle c₀) twice).chain.get child.id).isNone :=
  ⟨⟨rootedAt root ∅, rooted, by decide +kernel⟩, ⟨rootedAt root ∅, rooted, by decide +kernel⟩⟩

end Gavl
