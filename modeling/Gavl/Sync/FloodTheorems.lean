import Gavl.Sync.ReassemblerTheorems

/-!
# What a flood of chunks can hold

A partial is charged the bytes of its parts, so an empty part is free, and every sender may hold a
few partials. The number of partials is bounded exactly as long as only so many senders start a
message with an empty part; senders cost nothing.
-/

namespace Gavl

open Runs

namespace Reassembler

variable {r : Reassembler} {sender id : String} {p : Partial} {S : Finset String}

/-! ## What is charged -/

theorem one_le_utf16Length {part : List Char} (h : part ≠ []) : 1 ≤ utf16Length part := by
  cases part with
  | nil => exact absurd rfl h
  | cons c part =>
    unfold utf16Length
    rw [List.map_cons, List.sum_cons]
    split_ifs <;> omega

/-- The checks on a chunk, before anything is done. -/
def Admits (r : Reassembler) (index total : ℤ) (part : List Char) : Prop :=
  1 ≤ total ∧ total ≤ maxParts ∧ 0 ≤ index ∧ index < total ∧ utf16Length part ≤ r.maxPartLen

/-- A chunk that passes them is received, unless its message is completed. -/
theorem accept_of_admits {index total now : ℤ} {part : List Char} (h : r.Admits index total part)
    (hdone : (r.sweep now).done.has s!"{sender}|{id}" = false) :
    r.accept sender id (some index) (some total) part now
      = (r.sweep now).receive sender id index.toNat total.toNat part now := by
  obtain ⟨hone, hmax, hindex, hlt, hlen⟩ := h
  unfold accept
  simp only
  rw [if_neg (by omega), if_neg (by omega), if_neg (by omega), hdone]
  exact if_neg Bool.false_ne_true

/-- The chunk starts its message: that is neither completed nor pending in as many parts. -/
def Starts (r : Reassembler) (sender id : String) (total now : ℤ) : Prop :=
  (r.sweep now).done.has s!"{sender}|{id}" = false ∧
    ∀ p, (r.sweep now).partial? sender id = some p → (p.total : ℤ) ≠ total

/-- A message is started with an empty part by the senders of `free` only. -/
def Paid (free : Set String) (r : Reassembler) : Call → Prop
  | .accept sender id (some index) (some total) (some part) now =>
    r.Admits index total part → r.Starts sender id total now → part = [] → sender ∈ free
  | _ => True

/-- The partials of all other senders hold a byte. -/
def Charged (free : Set String) (r : Reassembler) : Prop :=
  ∀ sender id p, r.partial? sender id = some p → sender ∉ free → 1 ≤ p.bytes

variable {free : Set String}

theorem Charged.dropped {r' : Reassembler} (h : r.Charged free) (hd : Dropped r r') :
    r'.Charged free := fun s i p hp hs => h s i p (hd.partial? hp) hs

theorem Charged.sweep (h : r.Charged free) (htidy : r.Tidy) (now : ℤ) :
    (r.sweep now).Charged free := by
  obtain ⟨quiet, done, hdropped, heq⟩ := htidy.sweep now
  have hquiet : quiet.Charged free := h.dropped hdropped
  rw [heq]
  exact hquiet

theorem Charged.complete (h : r.Charged free) (p : Partial) (now : ℤ) :
    (r.complete sender id p now).1.Charged free := by
  have hforget : (r.forget sender id).Charged free := h.dropped dropped_forget
  unfold Reassembler.complete
  split_ifs
  · exact h
  · exact h
  · exact hforget

/-- A partial of as many parts is taken up again. -/
theorem opened_of_held {total : ℕ} (h : r.partial? sender id = some p) (ht : p.total = total)
    (now : ℤ) : (r.reshaped sender id total).opened sender id total now = (r, p) := by
  have hsame : r.reshaped sender id total = r := by
    unfold reshaped
    rw [h]
    exact if_neg (not_not.mpr ht)
  rw [hsame]
  unfold opened
  rw [h]

/-- Otherwise the partial is a new one. -/
theorem opened_of_started {total : ℕ} (h : ∀ p, r.partial? sender id = some p → p.total ≠ total)
    (now : ℤ) : ((r.reshaped sender id total).opened sender id total now).2
      = ⟨total, List.replicate total none, 0, 0, now⟩ := by
  have hnone : (r.reshaped sender id total).partial? sender id = none := by
    unfold reshaped
    cases hp : r.partial? sender id with
    | none => exact hp
    | some p =>
      simp only
      rw [if_pos (h p hp)]
      exact partial?_forget_self
  unfold opened
  rw [hnone]

theorem lacks_new {total index : ℕ} (h : index < total) (now : ℤ) :
    Partial.lacks ⟨total, List.replicate total none, 0, 0, now⟩ index = true := by
  unfold Partial.lacks
  rw [decide_eq_true_eq, List.getElem?_replicate, if_pos h]

/-- A chunk that is received leaves every partial charged. -/
theorem Charged.receive (h : r.Charged free) (hbooks : r.Books) {index total : ℕ}
    (hindex : index < total) {part : List Char} {now : ℤ}
    (hpaid : (∀ p, r.partial? sender id = some p → p.total ≠ total) → part = [] → sender ∈ free) :
    (r.receive sender id index total part now).1.Charged free := by
  have hopened := hbooks.opened sender id total now
  have hfilled : sender ∉ free →
      1 ≤ (((r.reshaped sender id total).opened sender id total now).2.fill index part now).bytes := by
    intro hfree
    rw [Partial.fill_bytes]
    by_cases hheld : ∃ p, r.partial? sender id = some p ∧ p.total = total
    · obtain ⟨p, hp, ht⟩ := hheld
      have hone := h sender id p hp hfree
      rw [opened_of_held hp ht]
      simp only
      omega
    · -- a new partial holds the part, which is not empty
      have hnew : ∀ p, r.partial? sender id = some p → p.total ≠ total := fun p hp ht =>
        hheld ⟨p, hp, ht⟩
      have hlen : 1 ≤ utf16Length part := one_le_utf16Length fun hnil => hfree (hpaid hnew hnil)
      rw [opened_of_started hnew, if_pos (lacks_new hindex now)]
      simp only
      omega
  unfold Reassembler.receive
  generalize (r.reshaped sender id total).opened sender id total now = o at hopened hfilled ⊢
  obtain ⟨r₁, p⟩ := o
  simp only at hopened hfilled ⊢
  have hput : (r₁.put sender id (p.fill index part now)
      (if p.lacks index then utf16Length part else 0)).Charged free := by
    intro s i x hx hs
    rw [partial?_put] at hx
    split_ifs at hx with hsame
    · rw [← Option.some.inj hx]
      exact hfilled (hsame.1 ▸ hs)
    · exact h s i x (hopened.dropped.partial? hx) hs
  exact (hput.dropped (dropped_shed _ _)).complete _ now

/-- **Step.** A call that is paid for leaves every partial charged. -/
theorem Charged.call (h : r.Charged free) (hr : r.Settled) {c : Call} (hc : Paid free r c) :
    (r.call c).Charged free := by
  cases c with
  | sweep now => exact h.sweep hr.tidy now
  | accept sender id index total part now =>
    cases part with
    | none => exact h
    | some part =>
      show (r.accept sender id index total part now).1.Charged free
      by_cases hadmits : ∃ i n : ℤ, index = some i ∧ total = some n ∧ r.Admits i n part
      · obtain ⟨i, n, rfl, rfl, ha⟩ := hadmits
        rcases accept_cases r sender id (some i) (some n) part now with
          heq | ⟨-, heq⟩ | ⟨j, m, hj, hm, hlt, hdone, heq⟩
        · rw [heq]
          exact h
        · rw [heq]
          exact h.sweep hr.tidy now
        · rw [heq]
          refine (h.sweep hr.tidy now).receive (hr.sweep now).toBooks hlt fun hnew hnil => ?_
          refine hc ha ⟨hdone, fun p hp ht => hnew p hp ?_⟩ hnil
          rw [Option.some.injEq] at hm
          omega
      · have hrefused : (r.accept sender id index total part now).1 = r := by
          unfold accept
          split
          · rename_i i n
            split_ifs with htotal hindex hpart
            · rfl
            · rfl
            · rfl
            · exact absurd ⟨i, n, rfl, rfl, by omega, by omega, by omega, by omega, by omega⟩ hadmits
          · rfl
        rw [hrefused]
        exact h

/-! ## Counting partials -/

/-- A sender in `S` holds as many partials as it may, any other no more than bytes. -/
theorem Settled.size_le (h : r.Settled) (hcharged : r.Charged S) {e : String × OrderedMap String Partial}
    (he : e ∈ r.bySender.entries) :
    (e.2.size : ℤ) ≤ (if e.1 ∈ S then (max 1 r.maxPartialPerSender : ℤ) else 0)
      + e.2.total (fun _ p => p.bytes) := by
  have hmsgs : r.bySender.get? e.1 = some e.2 := (OrderedMap.get?_eq_some_iff _ _ _).mpr he
  have hheld : ∀ q ∈ e.2.entries, r.partial? e.1 q.1 = some q.2 := by
    intro q hq
    unfold Reassembler.partial?
    rw [hmsgs]
    exact (OrderedMap.get?_eq_some_iff _ _ _).mpr hq
  by_cases hs : e.1 ∈ S
  · have hcap := h.capped e.1
    unfold ensure at hcap
    rw [hmsgs, Option.getD_some] at hcap
    have hnonneg : e.2.total (fun _ _ => (0 : ℤ)) ≤ e.2.total (fun _ p => p.bytes) :=
      OrderedMap.total_le fun q hq => (h.counted e.1 q.1 q.2 (hheld q hq)).bytes_nonneg
    have hzero : e.2.total (fun _ _ => (0 : ℤ)) = 0 := by
      unfold OrderedMap.total
      simp
    rw [if_pos hs]
    omega
  · have hone : e.2.total (fun _ _ => (1 : ℤ)) ≤ e.2.total (fun _ p => p.bytes) :=
      OrderedMap.total_le fun q hq => hcharged e.1 q.1 q.2 (hheld q hq) hs
    rw [OrderedMap.total_one] at hone
    rw [if_neg hs]
    omega

/-- Keys of a map in `S` are as many as `S` has elements, at most. -/
theorem total_indicator_le {ν : Type} (m : OrderedMap String ν) (S : Finset String) (k : ℕ) :
    m.total (fun s _ => if s ∈ S then (k : ℤ) else 0) ≤ S.card * k := by
  have hsum : ∀ l : List (String × ν),
      (l.map (fun e => if e.1 ∈ S then (k : ℤ) else 0)).sum
        = ((l.map Prod.fst).filter (fun s => decide (s ∈ S))).length * k := by
    intro l
    induction l with
    | nil => simp
    | cons e l ih =>
      rw [List.map_cons, List.sum_cons, ih, List.map_cons, List.filter_cons]
      by_cases he : e.1 ∈ S
      · rw [if_pos he, if_pos (decide_eq_true he), List.length_cons]
        push_cast
        ring
      · rw [if_neg he, if_neg (by simpa using he), zero_add]
  have hsub : (m.entries.map Prod.fst).filter (fun s => decide (s ∈ S)) ⊆ S.toList := fun s hs =>
    Finset.mem_toList.mpr (of_decide_eq_true (List.mem_filter.mp hs).2)
  have hle := (List.subperm_of_subset (m.nodup.filter _) hsub).length_le
  rw [Finset.length_toList] at hle
  unfold OrderedMap.total
  rw [hsum]
  exact_mod_cast Nat.mul_le_mul_right k hle

/-- The partials are no more than the bytes and what the senders of `S` may hold. -/
theorem Settled.length_pending_le (h : r.Settled) (hcharged : r.Charged S) :
    r.pending.length ≤ r.maxBytes.toNat + S.card * max 1 r.maxPartialPerSender := by
  have hsum : (r.pending.length : ℤ) = r.bySender.total (fun _ msgs => (msgs.size : ℤ)) := by
    have hcast : (r.pending.length : ℤ) = (r.pending.map (fun _ => (1 : ℤ))).sum := by simp
    rw [hcast, sum_pending (fun _ => (1 : ℤ))]
    exact OrderedMap.total_congr fun e _ => OrderedMap.total_one
  have hle : r.bySender.total (fun _ msgs => (msgs.size : ℤ))
      ≤ r.bySender.total (fun s msgs =>
          (if s ∈ S then ((max 1 r.maxPartialPerSender : ℕ) : ℤ) else 0)
            + msgs.total (fun _ p => p.bytes)) :=
    OrderedMap.total_le fun e he => by
      have hone := h.size_le hcharged he
      push_cast
      exact hone
  rw [OrderedMap.total_add] at hle
  have hsenders := total_indicator_le r.bySender S (max 1 r.maxPartialPerSender)
  have hbytes : r.bySender.total (fun _ msgs => msgs.total (fun _ p => p.bytes)) = r.bytes := h.exact.symm
  have hbounded := h.bounded
  have hgoal : (r.pending.length : ℤ)
      ≤ ((r.maxBytes.toNat + S.card * max 1 r.maxPartialPerSender : ℕ) : ℤ) := by
    rw [Nat.cast_add, Int.toNat_eq_max, Nat.cast_mul]
    omega
  exact_mod_cast hgoal

/-- What holds between calls, with what the partials are charged. -/
structure Metered (free : Set String) (opts : ReassemblerOptions) (r : Reassembler) : Prop extends
    Settled r where
  opts_eq : r.toReassemblerOptions = opts
  charged : r.Charged free

theorem Metered.new (opts : ReassemblerOptions) : Metered free opts (Reassembler.new opts) where
  toSettled := Settled.new opts
  opts_eq := rfl
  charged := fun s i p hp => absurd hp (by simp [Reassembler.partial?, Reassembler.new])

theorem Metered.call {opts : ReassemblerOptions} (h : Metered free opts r) {c : Call}
    (hc : Paid free r c) : Metered free opts (r.call c) where
  toSettled := h.toSettled.call c
  opts_eq := (h.call_opts c).trans h.opts_eq
  charged := h.charged.call h.toSettled hc

/-- **Run.** However many senders there are: where only those of `S` start a message with an empty
part, the partials are bounded. -/
theorem length_pending_run_le (opts : ReassemblerOptions) {calls : List Call}
    (hpaid : Along call (Paid S) (Reassembler.new opts) calls) :
    (run call (Reassembler.new opts) calls).pending.length
      ≤ opts.maxBytes.toNat + S.card * max 1 opts.maxPartialPerSender := by
  have hinv : Metered S opts (run call (Reassembler.new opts) calls) :=
    inv_of_along (fun r c h hc => h.call hc) (Metered.new opts) hpaid
  have hle := hinv.length_pending_le hinv.charged
  rw [congrArg ReassemblerOptions.maxBytes hinv.opts_eq,
    congrArg ReassemblerOptions.maxPartialPerSender hinv.opts_eq] at hle
  exact hle

/-! ## A flood -/

/-- The first of two parts of a message, with nothing in it. -/
def hollow (sender : String) : Call := .accept sender "m" (some 0) (some 2) (some []) 0

/-- The partial that a hollow chunk starts. -/
def hollowPartial : Partial := Partial.fill ⟨2, List.replicate 2 none, 0, 0, 0⟩ 0 [] 0

/-- What is held after hollow chunks of some senders. -/
structure Flooded (opts : ReassemblerOptions) (senders : List String) (r : Reassembler) : Prop where
  settled : r.Settled
  opts_eq : r.toReassemblerOptions = opts
  done_eq : r.done = ∅
  bytes_eq : r.bytes = 0
  partials : ∀ s i p, r.partial? s i = some p → s ∈ senders ∧ p.at = 0
  length_eq : r.pending.length = senders.length

theorem Flooded.new (opts : ReassemblerOptions) : Flooded opts [] (Reassembler.new opts) where
  settled := Settled.new opts
  opts_eq := rfl
  done_eq := rfl
  bytes_eq := rfl
  partials := fun s i p hp => absurd hp (by simp [Reassembler.partial?, Reassembler.new])
  length_eq := rfl

theorem call_accept (index total : Option ℤ) (part : List Char) (now : ℤ) :
    r.call (.accept sender id index total (some part) now)
      = (r.accept sender id index total part now).1 := rfl

/-- A hollow chunk of a fresh sender is stored, and nothing goes for it. -/
theorem Flooded.accept {opts : ReassemblerOptions} {senders : List String}
    (h : Flooded opts senders r) (httl : 0 ≤ opts.ttlMs) (hmax : 0 ≤ opts.maxBytes)
    (hnew : sender ∉ senders) : r.call (hollow sender) = r.put sender "m" hollowPartial 0 := by
  have hsweep : r.sweep 0 = r := by
    refine sweep_eq h.settled.tidy (fun s i p hp => ?_) (fun k a hk => ?_) ?_
    · rw [(h.partials s i p hp).2, congrArg ReassemblerOptions.ttlMs h.opts_eq]
      exact httl
    · rw [h.done_eq] at hk
      exact absurd hk (by simp)
    · rw [h.done_eq]
      exact Nat.zero_le _
  have hnone : ∀ i, r.partial? sender i = none := fun i => by
    cases hp : r.partial? sender i with
    | none => rfl
    | some p => exact absurd (h.partials sender i p hp).1 hnew
  have hreshaped : r.reshaped sender "m" 2 = r := by
    unfold reshaped
    rw [hnone]
  have hopened : r.opened sender "m" 2 0 = (r, ⟨2, List.replicate 2 none, 0, 0, 0⟩) := by
    have hempty : (r.ensure sender).entries = [] := by
      rw [List.eq_nil_iff_forall_not_mem]
      intro q hq
      have hget : (r.ensure sender).get? q.1 = some q.2 := (OrderedMap.get?_eq_some_iff _ _ _).mpr hq
      rw [get?_ensure, hnone] at hget
      exact absurd hget (by simp)
    have hevict : r.evictOldestOf sender = r := by
      unfold evictOldestOf
      rw [oldest_eq_none.mpr hempty]
    unfold opened
    rw [hnone]
    simp only [hevict, ite_self]
  have hunder : (r.put sender "m" hollowPartial 0).bytes ≤ (r.put sender "m" hollowPartial 0).maxBytes := by
    show r.bytes + (0 : ℕ) ≤ r.maxBytes
    rw [h.bytes_eq, congrArg ReassemblerOptions.maxBytes h.opts_eq]
    exact hmax
  have hreceive : (r.receive sender "m" 0 2 [] 0).1 = r.put sender "m" hollowPartial 0 := by
    unfold receive
    rw [hreshaped, hopened]
    show ((shed _ (r.put sender "m" hollowPartial 0)).complete sender "m" hollowPartial 0).1 = _
    rw [shed_eq hunder]
    unfold complete
    rw [partial?_put_self]
    rfl
  have hadmits : r.Admits 0 2 [] := by
    refine ⟨by omega, ?_, le_refl _, by omega, Nat.zero_le _⟩
    unfold maxParts
    omega
  have hdone : ∀ k, (r.sweep 0).done.has k = false := fun k => by
    rw [hsweep, h.done_eq]
    rfl
  have haccept : r.accept sender "m" (some 0) (some 2) [] 0 = _ := accept_of_admits hadmits (hdone _)
  rw [hsweep] at haccept
  have htwo : Int.toNat 2 = 2 := rfl
  rw [Int.toNat_zero, htwo] at haccept
  unfold hollow
  rw [call_accept, haccept, hreceive]

/-- One more sender, one more partial. -/
theorem Flooded.call {opts : ReassemblerOptions} {senders : List String}
    (h : Flooded opts senders r) (httl : 0 ≤ opts.ttlMs) (hmax : 0 ≤ opts.maxBytes)
    (hnew : sender ∉ senders) : Flooded opts (sender :: senders) (r.call (hollow sender)) where
  settled := h.settled.call _
  opts_eq := (h.settled.call_opts _).trans h.opts_eq
  done_eq := by
    rw [h.accept httl hmax hnew]
    exact h.done_eq
  bytes_eq := by
    rw [h.accept httl hmax hnew]
    show r.bytes + (0 : ℕ) = 0
    rw [h.bytes_eq]
    rfl
  partials := fun s i p hp => by
    rw [h.accept httl hmax hnew, partial?_put] at hp
    split_ifs at hp with hs
    · obtain ⟨rfl, -⟩ := hs
      exact ⟨List.mem_cons_self, congrArg Partial.at (Option.some.inj hp).symm⟩
    · obtain ⟨hmem, hat⟩ := h.partials s i p hp
      exact ⟨List.mem_cons_of_mem _ hmem, hat⟩
  length_eq := by
    have hnone : r.partial? sender "m" = none := by
      cases hp : r.partial? sender "m" with
      | none => rfl
      | some p => exact absurd (h.partials sender "m" p hp).1 hnew
    rw [h.accept httl hmax hnew, length_pending, sumOver_put_of_new _ hnone, ← length_pending,
      h.length_eq, List.length_cons]

/-- **Flood.** As many distinct senders, as many partials. -/
theorem flooded_run {opts : ReassemblerOptions} (httl : 0 ≤ opts.ttlMs) (hmax : 0 ≤ opts.maxBytes) :
    ∀ (senders before : List String) (r : Reassembler), Flooded opts before r →
      senders.Nodup → (∀ s ∈ senders, s ∉ before) →
        Flooded opts (senders.reverse ++ before) (run call r (senders.map hollow)) := by
  intro senders
  induction senders with
  | nil => exact fun before r h _ _ => h
  | cons s senders ih =>
    intro before r h hnodup hfresh
    rw [List.nodup_cons] at hnodup
    obtain ⟨hs, hrest⟩ := List.forall_mem_cons.mp hfresh
    rw [List.map_cons, run_cons, List.reverse_cons, List.append_assoc]
    refine ih (s :: before) _ (h.call httl hmax hs) hnodup.2 fun x hx hmem => ?_
    rcases List.mem_cons.mp hmem with rfl | hmem
    · exact hnodup.1 hx
    · exact hrest x hx hmem

/-- The time of a call. -/
def Call.now : Call → ℤ
  | .accept _ _ _ _ _ now => now
  | .sweep now => now

/-- All calls come within one `ttlMs`. -/
def Within (opts : ReassemblerOptions) (calls : List Call) : Prop :=
  ∃ t, ∀ c ∈ calls, t ≤ c.now ∧ c.now ≤ t + opts.ttlMs

/-- Infinitely many senders hold as many partials as one likes, within one moment. -/
theorem exists_flood (opts : ReassemblerOptions) (httl : 0 ≤ opts.ttlMs) (hmax : 0 ≤ opts.maxBytes)
    (hinf : free.Infinite) (n : ℕ) : ∃ calls, Within opts calls ∧
      Along call (Paid free) (Reassembler.new opts) calls ∧
      (run call (Reassembler.new opts) calls).pending.length = n := by
  obtain ⟨senders, hsub, hcard⟩ := hinf.exists_subset_card_eq n
  have hflooded := flooded_run httl hmax senders.toList [] _ (Flooded.new opts)
    senders.nodup_toList (fun _ _ => List.not_mem_nil)
  have hpaid : ∀ (l : List String) (r : Reassembler), (∀ s ∈ l, s ∈ free) →
      Along call (Paid free) r (l.map hollow) := by
    intro l
    induction l with
    | nil => exact fun r _ => along_nil
    | cons s l ih =>
      intro r hl
      obtain ⟨hs, hl⟩ := List.forall_mem_cons.mp hl
      exact ⟨fun _ _ _ => hs, ih _ hl⟩
  refine ⟨senders.toList.map hollow, ⟨0, fun c hc => ?_⟩, hpaid _ _ fun s hs => ?_, ?_⟩
  · obtain ⟨s, -, rfl⟩ := List.mem_map.mp hc
    show (0 : ℤ) ≤ 0 ∧ (0 : ℤ) ≤ 0 + opts.ttlMs
    omega
  · exact hsub (Finset.mem_toList.mp hs)
  · rw [hflooded.length_eq, List.append_nil, List.length_reverse, Finset.length_toList, hcard]

/-- **When partials are bounded.** Where only the senders of a set start messages with an empty
part, the partials are bounded whatever comes, if the set is finite: by the bytes and what those
senders may hold. And only then, within one `ttlMs` already. -/
theorem pending_bounded_iff (opts : ReassemblerOptions) (httl : 0 ≤ opts.ttlMs)
    (hmax : 0 ≤ opts.maxBytes) (free : Set String) :
    ((∃ B, ∀ calls, Within opts calls → Along call (Paid free) (Reassembler.new opts) calls →
        (run call (Reassembler.new opts) calls).pending.length ≤ B) ↔ free.Finite) ∧
      ∀ S : Finset String, free = S → ∀ calls,
        Along call (Paid free) (Reassembler.new opts) calls →
          (run call (Reassembler.new opts) calls).pending.length
            ≤ opts.maxBytes.toNat + S.card * max 1 opts.maxPartialPerSender := by
  refine ⟨⟨?_, ?_⟩, ?_⟩
  · rintro ⟨B, hB⟩
    by_contra hinf
    obtain ⟨calls, hwithin, hpaid, hlen⟩ := exists_flood opts httl hmax hinf (B + 1)
    have hle := hB calls hwithin hpaid
    omega
  · intro hfin
    obtain ⟨S, rfl⟩ := hfin.exists_finset_coe
    exact ⟨_, fun calls _ hpaid => length_pending_run_le opts hpaid⟩
  · rintro S rfl calls hpaid
    exact length_pending_run_le opts hpaid

/-- The theorem where every first part holds something. -/
theorem pending_bounded_iff_default : ∃ B, ∀ calls, Within {} calls →
    Along call (Paid ∅) (Reassembler.new {}) calls →
      (run call (Reassembler.new {}) calls).pending.length ≤ B :=
  (pending_bounded_iff {} (by decide) (by decide) ∅).1.mpr Set.finite_empty

/-- There is no bound in the options alone: fresh senders with hollow chunks pass any. -/
theorem senders_unbounded : ¬∃ B : ReassemblerOptions → ℕ, ∀ opts calls, Within opts calls →
    (run call (Reassembler.new opts) calls).pending.length ≤ B opts := by
  rintro ⟨B, hB⟩
  have hnames : Function.Injective (fun n : ℕ => String.ofList (List.replicate n 'a')) := by
    intro m n h
    have hlists := congrArg String.toList h
    simp only [String.toList_ofList] at hlists
    simpa using congrArg List.length hlists
  have hinf : (Set.univ : Set String).Infinite :=
    Set.infinite_univ_iff.mpr (Infinite.of_injective _ hnames)
  obtain ⟨calls, hwithin, -, hlen⟩ :=
    exists_flood {} (by decide) (by decide) hinf (B {} + 1)
  have hle := hB {} calls hwithin
  omega

end Reassembler

end Gavl
