import Gavl.Consensus.HeadsTheorems
import Gavl.Ledger.Simulation

/-!
# Writes that do not verify

`apply` moves the clock, creates the chain of a writer it does not know and drops buffered writes
that are too old before it looks at what it is given. A write that fails its checks therefore
leaves a trace, unless its writer is known and nothing is buffered that the next `apply` would
still keep.
-/

namespace Gavl

namespace Ledger

open WriterChain

variable {C : Crypto} {params : ChainParams} {L M : Ledger} {w x : Write} {ws : List Write}

/-! ## Traces -/

/-- Applying `x` appends and buffers nothing, and no later writes tell that it was applied. -/
structure LeavesNoTrace (C : Crypto) (params : ChainParams) (L : Ledger) (x : Write) : Prop where
  appends : (L.apply C params false x).2.appended = []
  buffers : (L.apply C params false x).2 ≠ .applied [] true
  holds : ∀ v w, (L.apply C params false x).1.HoldsWrite v w → L.HoldsWrite v w
  later : ∀ ws, Alike C params (L.apply C params false x).1 L ws

/-- The writer is known, and every buffered write is too old for the next `apply`. -/
structure Quiet (L : Ledger) (writer : String) : Prop where
  known : (L.chains.get? writer).isSome
  decayed : ∀ v seq e, (L.pendingOf v).get? seq = some e → pendingMaxAge < L.tick + 1 - e.tick

/-! ## Rejected writes -/

/-- A write that fails its checks changes only the clock and its writer's entries. -/
theorem Sound.apply_rejected (hL : L.Sound C params) (hx : verifyWrite C params false x ≠ .ok) :
    ∃ result, L.apply C params false x
        = (L.put x.writer (L.chainFor x) (L.live x.writer) (L.tick + 1), result) ∧
      result.appended = [] ∧ result ≠ .applied [] true := by
  obtain ⟨result, heq, happ, hbuf⟩ | ⟨-, hv, -⟩ | ⟨hacc, -⟩ :=
    applyTo_cases (w := x) (hL.chainFor x).1 (L.live x.writer) (L.tick + 1)
  · refine ⟨result, ?_, happ, hbuf⟩
    rw [apply_eq, heq]
  · exact absurd hv hx
  · exact absurd hacc.verified hx

theorem chainFor_of_get? {c : WriterChain} (h : L.chains.get? w.writer = some c) :
    L.chainFor w = c := by
  unfold chainFor
  rw [h]
  rfl

theorem chainFor_of_none (h : L.chains.get? w.writer = none) :
    L.chainFor w = WriterChain.fresh w.writer w.plot := by
  unfold chainFor
  rw [h]
  rfl

theorem get?_of_live {v : String} {seq : ℕ} {e : Pending} (he : (L.live v).get? seq = some e) :
    (L.pendingOf v).get? seq = some e := by
  unfold live at he
  split_ifs at he
  · rw [OrderedMap.get?_filter, Option.filter_eq_some_iff] at he
    exact he.1
  · simp at he

theorem get?_live {v : String} {seq : ℕ} {e : Pending} (hknown : (L.chains.get? v).isSome)
    (he : (L.pendingOf v).get? seq = some e) (hage : L.tick + 1 - e.tick ≤ pendingMaxAge) :
    (L.live v).get? seq = some e := by
  unfold live OrderedMap.has
  rw [if_pos hknown, OrderedMap.get?_filter, he, Option.filter_some, if_pos (by simpa using hage)]

theorem age_of_live {v : String} {seq : ℕ} {e : Pending} (he : (L.live v).get? seq = some e) :
    L.tick + 1 - e.tick ≤ pendingMaxAge := by
  unfold live at he
  split_ifs at he
  · rw [OrderedMap.get?_filter, Option.filter_eq_some_iff] at he
    simpa using he.2
  · simp at he

theorem live_eq_empty {v : String}
    (hdecayed : ∀ seq e, (L.pendingOf v).get? seq = some e → pendingMaxAge < L.tick + 1 - e.tick) :
    L.live v = ∅ := by
  unfold live
  split_ifs
  · refine OrderedMap.eq_empty_of_entries (List.filter_eq_nil_iff.mpr fun e he => ?_)
    have := hdecayed e.1 e.2 ((OrderedMap.get?_eq_some_iff _ _ _).mpr he)
    simp only [decide_eq_true_eq]
    omega
  · rfl

theorem Quiet.live_eq (h : Quiet L w.writer) (v : String) : L.live v = ∅ :=
  live_eq_empty (h.decayed v)

/-- Such a write leaves no writes that were not held before it. -/
theorem Sound.holds_rejected (hL : L.Sound C params) (hx : verifyWrite C params false x ≠ .ok)
    (v : String) (w : Write) (hw : (L.apply C params false x).1.HoldsWrite v w) :
    L.HoldsWrite v w := by
  obtain ⟨result, heq, -, -⟩ := hL.apply_rejected hx
  rw [heq] at hw
  obtain ⟨c, hc, hmem⟩ | ⟨seq, e, he, hew⟩ := hw
  · rw [show (L.put x.writer (L.chainFor x) (L.live x.writer) (L.tick + 1)).chains
      = L.chains.set x.writer (L.chainFor x) from rfl, OrderedMap.get?_set] at hc
    split_ifs at hc with hv
    · rw [Option.some.injEq] at hc
      subst hc hv
      cases hget : L.chains.get? x.writer with
      | none =>
        rw [chainFor_of_none hget] at hmem
        exact absurd hmem List.not_mem_nil
      | some c =>
        rw [chainFor_of_get? hget] at hmem
        exact .inl ⟨c, hget, hmem⟩
    · exact .inl ⟨c, hc, hmem⟩
  · have hpending : (L.put x.writer (L.chainFor x) (L.live x.writer) (L.tick + 1)).pendingOf v
        = if x.writer = v then L.live x.writer else L.pendingOf v := pendingOf_set _ _ _ _ _ _
    rw [hpending] at he
    split_ifs at he with hv
    · subst hv
      exact .inr ⟨seq, e, get?_of_live he, hew⟩
    · exact .inr ⟨seq, e, he, hew⟩

/-- On a quiet ledger such a write only moves the clock. -/
theorem Sound.inStep_rejected (hL : L.Sound C params) (hx : verifyWrite C params false x ≠ .ok)
    (hquiet : Quiet L x.writer) :
    InStep (fun _ => 0) (fun _ => none) (L.apply C params false x).1 L := by
  obtain ⟨result, heq, -, -⟩ := hL.apply_rejected hx
  obtain ⟨c, hc⟩ := Option.isSome_iff_exists.mp hquiet.known
  have hchains : (L.apply C params false x).1.chains = L.chains := by
    rw [heq]
    show L.chains.set x.writer (L.chainFor x) = L.chains
    rw [chainFor_of_get? hc]
    exact OrderedMap.set_of_get? hc
  have hlive : ∀ v, (L.apply C params false x).1.live v = ∅ := fun v => by
    rw [heq]
    show (L.put x.writer (L.chainFor x) (L.live x.writer) (L.tick + 1)).live v = ∅
    rw [live_put, hquiet.live_eq, hquiet.live_eq]
    split_ifs <;> rfl
  refine ⟨fun v => ?_, fun v => ?_⟩
  · rw [hchains]
    cases L.chains.get? v with
    | none => exact .none
    | some c => exact .some (.refl c)
  · rw [hlive, hquiet.live_eq]
    exact .empty

/-- Repeating a rejected write of a known writer keeps a buffered write as long as it is young
enough, and puts none in its slot. -/
theorem Sound.after_replicate (hL : L.Sound C params) (hx : verifyWrite C params false x ≠ .ok)
    (hknown : (L.chains.get? x.writer).isSome) (n : ℕ) :
    (L.after C params (List.replicate n x)).Sound C params ∧
      (L.after C params (List.replicate n x)).chains = L.chains ∧
      (L.after C params (List.replicate n x)).tick = L.tick + n ∧
      ∀ v seq,
        (∀ e, ((L.after C params (List.replicate n x)).pendingOf v).get? seq = some e →
          (L.pendingOf v).get? seq = some e) ∧
        ∀ e, (L.pendingOf v).get? seq = some e → L.tick + n - e.tick ≤ pendingMaxAge →
          ((L.after C params (List.replicate n x)).pendingOf v).get? seq = some e := by
  induction n generalizing L with
  | zero => exact ⟨hL, rfl, rfl, fun v seq => ⟨fun e he => he, fun e he _ => he⟩⟩
  | succ n ih =>
    obtain ⟨result, heq, -, -⟩ := hL.apply_rejected hx
    obtain ⟨c, hc⟩ := Option.isSome_iff_exists.mp hknown
    have hchains : (L.apply C params false x).1.chains = L.chains := by
      rw [heq]
      show L.chains.set x.writer (L.chainFor x) = L.chains
      rw [chainFor_of_get? hc]
      exact OrderedMap.set_of_get? hc
    have htick : (L.apply C params false x).1.tick = L.tick + 1 := by rw [heq]; rfl
    have hpending : ∀ v, (L.apply C params false x).1.pendingOf v
        = if x.writer = v then L.live x.writer else L.pendingOf v := fun v => by
      rw [heq]
      exact pendingOf_set _ _ _ _ _ _
    obtain ⟨hsound, hchains', htick', hslots⟩ := ih (hL.apply x) (by rw [hchains]; exact hknown)
    rw [List.replicate_succ, after_cons]
    refine ⟨hsound, hchains'.trans hchains, by rw [htick', htick]; omega, fun v seq => ⟨?_, ?_⟩⟩
    · intro e he
      have := (hslots v seq).1 e he
      rw [hpending] at this
      split_ifs at this with hv
      · exact hv ▸ get?_of_live this
      · exact this
    · intro e he hage
      refine (hslots v seq).2 e ?_ (by rw [htick]; omega)
      rw [hpending]
      split_ifs with hv
      · subst hv
        exact get?_live (by rw [hc]; rfl) he (by omega)
      · exact he

/-- A verified write ahead of the tip is known if its slot still holds it, else buffered. -/
theorem apply_ahead {c : WriterChain} (hc : M.chains.get? w.writer = some c)
    (hahead : c.nextSeq < w.seq) (hv : verifyWrite C params false w = .ok) :
    (∀ e, (M.live w.writer).get? w.seq = some e → e.w = w →
        (M.apply C params false w).2 = .applied [] false) ∧
      ((M.live w.writer).get? w.seq = none → (M.apply C params false w).2 = .applied [] true) := by
  have hbase : ¬ w.seq < c.baseSeq := by
    unfold nextSeq at hahead
    omega
  have hnext : ¬ w.seq < c.nextSeq := by omega
  rw [apply_eq, chainFor_of_get? hc]
  unfold applyTo
  simp only
  rw [if_neg hbase, if_neg hnext, if_pos hahead, hv]
  refine ⟨fun e he hew => ?_, fun hnone => ?_⟩
  · rw [he, ← hew]
    simp
  · rw [hnone]
    rfl

/-- A buffered write that the next `apply` would keep can be aged out one tick early: delivered
once more it is then buffered anew, where it would be known. -/
theorem Sound.decayed_of_alike (hL : L.Sound C params) (hx : verifyWrite C params false x ≠ .ok)
    (hknown : (L.chains.get? x.writer).isSome)
    (halike : ∀ ws, Alike C params (L.apply C params false x).1 L ws) {v : String} {seq : ℕ}
    {e : Pending} (he : (L.pendingOf v).get? seq = some e) :
    pendingMaxAge < L.tick + 1 - e.tick := by
  by_contra hyoung
  cases hc : L.chains.get? v with
  | none =>
    rw [hL.known v hc] at he
    simp at he
  | some c =>
    have hb := hL.buffer v c hc seq e he
    have hle := hb.tick
    have hv := hb.writer
    have hseq := hb.seq
    have hahead : c.nextSeq < seq := hb.ahead
    subst hv hseq
    -- the number of ticks after which the write is just young enough
    obtain ⟨n, hn⟩ : ∃ n, L.tick + n + 1 - e.tick = pendingMaxAge :=
      ⟨e.tick + pendingMaxAge - (L.tick + 1), by omega⟩
    have hbefore : ((L.after C params (List.replicate n x)).apply C params false e.w).2
        = .applied [] false := by
      obtain ⟨-, hchains, htick, hslots⟩ := hL.after_replicate hx hknown n
      refine (apply_ahead (by rw [hchains]; exact hc) hahead hb.verified).1 e ?_ rfl
      exact get?_live (by rw [hchains, hc]; rfl) ((hslots _ _).2 e he (by omega))
        (by rw [htick]; omega)
    have hafter : ((L.after C params (List.replicate (n + 1) x)).apply C params false e.w).2
        = .applied [] true := by
      obtain ⟨-, hchains, htick, hslots⟩ := hL.after_replicate hx hknown (n + 1)
      refine (apply_ahead (by rw [hchains]; exact hc) hahead hb.verified).2 ?_
      cases hlive : ((L.after C params (List.replicate (n + 1) x)).live e.w.writer).get? e.w.seq with
      | none => rfl
      | some e' =>
        have hsame := (hslots _ _).1 e' (get?_of_live hlive)
        rw [he, Option.some.injEq] at hsame
        subst hsame
        have := age_of_live hlive
        omega
    have hlast := congrArg List.getLast? (halike (List.replicate n x ++ [e.w])).results
    rw [results_append, results_append] at hlast
    have hleft : ((L.apply C params false x).1.after C params (List.replicate n x)).results C params
        [e.w] = [.applied [] true] := by
      rw [← hafter]
      rfl
    have hright : (L.after C params (List.replicate n x)).results C params [e.w]
        = [.applied [] false] := by
      rw [← hbefore]
      rfl
    rw [hleft, hright, List.getLast?_concat, List.getLast?_concat] at hlast
    simp at hlast

theorem append_zero_ne (s : String) : s ++ "0" ≠ s := fun h => by
  have := congrArg String.length h
  rw [String.length_append] at this
  simp at this

/-- A first write of the writer of `x` from another plot, that no check lets through. -/
def misfit (params : ChainParams) (x : Write) : Write :=
  { x with
    seq := 0
    plot := { x.plot with root := x.plot.root ++ "0" }
    difficulty := toString params.difficulty ++ "0" }

/-- A first write that its chain refuses. -/
theorem apply_refused {plot : PlotCommitment} {reason : String}
    (hchain : M.chainFor w = WriterChain.fresh w.writer plot) (hlive : M.live w.writer = ∅)
    (hseq : w.seq = 0)
    (hrefused : (WriterChain.fresh w.writer plot).append C params false w
      = (WriterChain.fresh w.writer plot, .fail reason)) :
    (M.apply C params false w).2 = .fail reason := by
  rw [apply_eq, hchain, hlive]
  unfold applyTo
  rw [hseq, hrefused]
  rfl

theorem append_misfit_pinned :
    (WriterChain.fresh x.writer x.plot).append C params false (misfit params x)
      = (WriterChain.fresh x.writer x.plot, .fail "wrong plot commitment") := by
  unfold append
  rw [if_neg (by simp [misfit, WriterChain.fresh]), if_pos]
  refine ⟨by simp [WriterChain.fresh], fun h => ?_⟩
  have hroot : x.plot.root = x.plot.root ++ "0" := Option.some.inj h
  exact append_zero_ne _ hroot.symm

theorem append_misfit : ∃ reason : String,
    (WriterChain.fresh x.writer (misfit params x).plot).append C params false (misfit params x)
      = (WriterChain.fresh x.writer (misfit params x).plot, .fail s!"invalid write: {reason}") := by
  have hv : ∃ reason, verifyWrite C params false (misfit params x) = .fail reason := by
    have hne : (misfit params x).difficulty ≠ toString params.difficulty := append_zero_ne _
    unfold verifyWrite
    rw [if_pos hne]
    exact ⟨_, rfl⟩
  obtain ⟨reason, hv⟩ := hv
  refine ⟨reason, ?_⟩
  unfold append
  rw [if_neg (by simp [misfit, WriterChain.fresh]), if_neg (by simp [WriterChain.fresh]), hv]

/-- An unknown writer is pinned to the plot of the write that came first. -/
theorem Sound.known_of_alike (hL : L.Sound C params) (hx : verifyWrite C params false x ≠ .ok)
    (halike : ∀ ws, Alike C params (L.apply C params false x).1 L ws) :
    (L.chains.get? x.writer).isSome := by
  by_contra hknown
  have hnone : L.chains.get? x.writer = none := by simpa using hknown
  have hlive : L.live x.writer = ∅ := by
    unfold Ledger.live OrderedMap.has
    rw [hnone]
    rfl
  obtain ⟨result, heq, -, -⟩ := hL.apply_rejected hx
  obtain ⟨reason, hrefused⟩ := append_misfit
  have hbefore : (L.apply C params false (misfit params x)).2 = .fail s!"invalid write: {reason}" :=
    apply_refused (chainFor_of_none hnone) hlive rfl hrefused
  have hafter : ((L.apply C params false x).1.apply C params false (misfit params x)).2
      = .fail "wrong plot commitment" := by
    refine apply_refused (chainFor_of_get? ?_) ?_ rfl append_misfit_pinned
    · rw [heq]
      show (L.chains.set x.writer (L.chainFor x)).get? x.writer = _
      rw [OrderedMap.get?_set_self, chainFor_of_none hnone]
      rfl
    · rw [heq]
      show (L.put x.writer (L.chainFor x) (L.live x.writer) (L.tick + 1)).live x.writer = ∅
      rw [live_put, if_pos rfl, hlive]
      rfl
  have hr := (halike [misfit params x]).results
  simp only [Ledger.results] at hr
  rw [hafter, hbefore, List.cons.injEq, ApplyResult.fail.injEq] at hr
  -- the two reasons begin with different letters
  have hfirst : "wrong plot commitment".toList.head?
      = ("invalid write: " ++ reason).toList.head? := congrArg (fun s => s.toList.head?) hr.1
  rw [String.toList_append] at hfirst
  exact absurd hfirst (by simp)

/-- **Rejected writes.** A write that fails its checks leaves no trace in a ledger exactly when its
writer is known and no buffered write is one that the next `apply` would keep. -/
theorem leavesNoTrace_iff (hL : L.Reachable C params) (hx : verifyWrite C params false x ≠ .ok) :
    LeavesNoTrace C params L x ↔ Quiet L x.writer := by
  have hsound := hL.sound
  constructor
  · intro h
    have hknown := hsound.known_of_alike hx h.later
    exact ⟨hknown, fun v seq e he => hsound.decayed_of_alike hx hknown h.later he⟩
  · intro hquiet
    obtain ⟨result, heq, happ, hbuf⟩ := hsound.apply_rejected hx
    refine ⟨?_, ?_, hsound.holds_rejected hx, fun ws => ?_⟩
    · rw [heq]
      exact happ
    · rw [heq]
      exact hbuf
    · exact ((hsound.inStep_rejected hx hquiet).run (hsound.apply x) hsound
        fun w _ => ⟨Nat.zero_le _, .inl rfl⟩).1

/-! ## A pre-empted writer -/

/-- The first write of a writer with a one-leaf plot. -/
def firstWrite (C : Crypto) (writer : String) (ts payload : Json) : Write :=
  let trunk : Trunk := ⟨writer, 0, none, .str ""⟩
  let leaf := plotLeaf C writer 0
  let core : WriteCore :=
    { trunk with plot := ⟨toHex leaf, 0⟩, difficulty := "1", ts := ts, payload := payload }
  let space : SpaceProof := ⟨0, toHex leaf, [], toHex (C.sha256 (leaf ++ challengeOf C trunk))⟩
  let time : TimeProof := ⟨0, "", ""⟩
  { core with space := space, time := time, id := writeIdOf C core space time, sig := "" }

namespace Preempted

open AnchorChain

/-- A writer's first write. -/
def genuine : Write := firstWrite openConfig.crypto "ab" (.nat 0) .null

/-- What anyone can send in the writer's name: no proof, no difficulty, another plot. -/
def forged : Write := misfit openConfig.params genuine

end Preempted

open Preempted AnchorChain in
/-- Applied to an empty ledger, the forged write is refused; from then on the writer's first write is
refused as well, and it would have been appended. -/
theorem forged_write_blocks_writer :
    verifyWrite openConfig.crypto openConfig.params false forged ≠ .ok ∧
      verifyWrite openConfig.crypto openConfig.params false genuine = .ok ∧
      ¬ LeavesNoTrace openConfig.crypto openConfig.params Ledger.empty forged := by
  obtain ⟨hforged, hgenuine, hblocked, happended⟩ :
      verifyWrite openConfig.crypto openConfig.params false forged ≠ .ok ∧
      verifyWrite openConfig.crypto openConfig.params false genuine = .ok ∧
      ((Ledger.empty.apply openConfig.crypto openConfig.params false forged).1.results
        openConfig.crypto openConfig.params [genuine]).map (fun r => r.appended.length) = [0] ∧
      (Ledger.empty.results openConfig.crypto openConfig.params [genuine]).map
        (fun r => r.appended.length) = [1] := by decide +kernel
  refine ⟨hforged, hgenuine, fun h => ?_⟩
  rw [(h.later [genuine]).results, happended] at hblocked
  exact absurd hblocked (by decide)

open Preempted AnchorChain in
/-- The equivalence for the forged write on an empty ledger, which is not quiet. -/
theorem leavesNoTrace_iff_forged :
    LeavesNoTrace openConfig.crypto openConfig.params Ledger.empty forged ↔
      Quiet Ledger.empty forged.writer :=
  leavesNoTrace_iff .empty (by decide +kernel)

end Ledger

end Gavl
