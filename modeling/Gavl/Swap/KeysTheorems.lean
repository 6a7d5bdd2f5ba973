import Gavl.Det.FieldTheorems
import Gavl.Swap.DigestTheorems
import Gavl.Swap.Keys

/-!
# No swap key or secret is derived twice

The message of a derivation is a sequence of length-prefixed strings, so it names the derivation. The
taker's swap ids are unprefixed, but made of parts of a known length, and longer than a match id.
-/

namespace Gavl

namespace Keys

variable {a b : Call} {purpose purpose' : String} {fields fields' : List String} {data : Bytes}

/-! ## Messages -/

theorem lp_ok_iff {s : String} {b : Bytes} : lp s = .ok b ↔ Fits s ∧ b = fieldBytes s := by
  unfold lp Fits fieldBytes u16be
  simp only
  split_ifs with hlong
  · simp [not_le.mpr hlong]
  · rw [Except.ok.injEq, eq_comm]
    simp [not_lt.mp hlong]

theorem mapM_lp_ok {xs : List String} {bs : List Bytes} (h : xs.mapM lp = .ok bs) :
    (∀ s ∈ xs, Fits s) ∧ bs = xs.map fieldBytes := by
  induction xs generalizing bs with
  | nil =>
    obtain rfl := Except.ok.inj h
    exact ⟨List.forall_mem_nil _, rfl⟩
  | cons s xs ih =>
    rw [List.mapM_cons] at h
    cases hs : lp s with
    | error err => rw [hs] at h; exact nomatch h
    | ok b =>
      cases hxs : xs.mapM lp with
      | error err => rw [hs, hxs] at h; exact nomatch h
      | ok rest =>
        rw [hs, hxs] at h
        obtain rfl := Except.ok.inj h
        obtain ⟨hfits, rfl⟩ := lp_ok_iff.mp hs
        obtain ⟨hall, rfl⟩ := ih hxs
        exact ⟨List.forall_mem_cons.mpr ⟨hfits, hall⟩, rfl⟩

/-- A message determines its purpose and fields. -/
theorem message_inj (h : message purpose fields = .ok data)
    (h' : message purpose' fields' = .ok data) : purpose = purpose' ∧ fields = fields' := by
  have hread : ∀ {p : String} {fs : List String}, message p fs = .ok data →
      (∀ s ∈ domain :: p :: fs, Fits s) ∧ data = (domain :: p :: fs).flatMap fieldBytes := by
    intro p fs hm
    unfold message at hm
    cases hbs : (domain :: p :: fs).mapM lp with
    | error err => rw [hbs] at hm; exact nomatch hm
    | ok bs =>
      rw [hbs] at hm
      obtain ⟨hfits, rfl⟩ := mapM_lp_ok hbs
      exact ⟨hfits, by rw [List.flatMap_def]; exact (Except.ok.inj hm).symm⟩
  obtain ⟨hfits, hdata⟩ := hread h
  obtain ⟨hfits', hdata'⟩ := hread h'
  have heq := prefixCode_fieldBytes.eq_of_flatMap_eq (fun s _ => fieldBytes_ne_nil s) hfits hfits'
    (hdata.symm.trans hdata')
  simp only [List.cons.injEq, true_and] at heq
  exact heq

namespace Call

theorem message_eq (h : a.message = .ok data) : Keys.message a.purpose a.fields = .ok data := by
  unfold message at h
  cases hc : a.checked with
  | error err => rw [hc] at h; exact nomatch h
  | ok _ => rw [hc] at h; exact h

/-- A call is what it is for and its arguments. -/
theorem eq_of_fields (hp : a.purpose = b.purpose) (hf : a.fields = b.fields) : a = b := by
  cases a <;> cases b <;> simp_all [purpose, fields]

/-- Calls with one message are one call. -/
theorem message_inj (ha : a.message = .ok data) (hb : b.message = .ok data) : a = b := by
  obtain ⟨hp, hf⟩ := Keys.message_inj (message_eq ha) (message_eq hb)
  exact eq_of_fields hp hf

/-- A call returns what it makes of the hash of its message. -/
theorem run_eq (hmacSha256 : Bytes → Bytes → Bytes) {seed : Bytes} (hseed : seed.length = 32)
    (a : Call) : a.run hmacSha256 seed = a.message.bind fun m => a.finish (hmacSha256 seed m) := by
  have hprf : ∀ purpose fields, prf hmacSha256 seed purpose fields
      = (Keys.message purpose fields).map (hmacSha256 seed) := fun purpose fields => by
    unfold prf
    rw [if_neg (not_not.mpr hseed)]
  have hscalar : ∀ purpose fields, scalar hmacSha256 seed purpose fields
      = (Keys.message purpose fields).bind fun m =>
        if bytesToNat (hmacSha256 seed m) % groupOrder = 0 then
          .error s!"keys: derived {purpose} key is zero"
        else .ok (be32 (bytesToNat (hmacSha256 seed m) % groupOrder)) := fun purpose fields => by
    unfold scalar
    rw [hprf]
    cases Keys.message purpose fields <;> rfl
  cases a with
  | walletKey chain net =>
    show Keys.walletKey hmacSha256 seed chain net = _
    unfold Keys.walletKey message
    rw [hscalar]
    simp only [checked]
    cases check "chain" chain chains <;> cases check "net" net nets <;> rfl
  | swapKey swapId chain role =>
    show Keys.swapKey hmacSha256 seed swapId chain role = _
    unfold Keys.swapKey message
    rw [hscalar]
    simp only [checked]
    cases checkSwapId swapId <;> cases check "chain" chain chains <;>
      cases check "role" role roles <;> rfl
  | swapSecret swapId =>
    show Keys.swapSecret hmacSha256 seed swapId = _
    unfold Keys.swapSecret message
    rw [hprf]
    simp only [checked]
    cases checkSwapId swapId with
    | error err => rfl
    | ok _ =>
      show (Keys.message "swap-secret" [swapId]).map _ = (Keys.message "swap-secret" [swapId]).bind _
      cases Keys.message "swap-secret" [swapId] <;> rfl

end Call

/-! ## The taker's swap ids -/

variable {offerId offerId' takerPub otherPub id : String} {takeSeq otherSeq : ℕ}

theorem takeSwapId_ok (h : takeSwapId offerId takerPub takeSeq = .ok id) :
    id = Gavl.takeSwapId offerId takerPub takeSeq := by
  unfold takeSwapId at h
  split_ifs at h
  exact (Except.ok.inj h).symm

theorem takeSwapId_eq (offerId takerPub : String) (takeSeq : ℕ) :
    Gavl.takeSwapId offerId takerPub takeSeq = offerId ++ ":" ++ s!"{takerPub}:{takeSeq}" := by
  unfold Gavl.takeSwapId
  apply String.toList_injective
  simp only [String.toList_append, List.append_assoc]
  rfl

/-- A text of 64 characters, as 64 hex digits of either case are. -/
def Sized (s : String) : Prop := s.toList.length = 64

/-- A swap id reads back as the take it is of. -/
theorem takeSwapId_inj (ho : Sized offerId) (ho' : Sized offerId') (ht : Sized takerPub)
    (ht' : Sized otherPub)
    (h : Gavl.takeSwapId offerId takerPub takeSeq = Gavl.takeSwapId offerId' otherPub otherSeq) :
    offerId = offerId' ∧ takerPub = otherPub ∧ takeSeq = otherSeq := by
  rw [takeSwapId_eq, takeSwapId_eq] at h
  have hlists := congrArg String.toList h
  simp only [String.toList_append, List.append_assoc] at hlists
  obtain ⟨hoffer, hrest⟩ := List.append_inj hlists (ho.trans ho'.symm)
  obtain ⟨-, hrest⟩ := List.append_inj hrest rfl
  have htake : s!"{takerPub}:{takeSeq}" = s!"{otherPub}:{otherSeq}" := by
    apply String.toList_injective
    simpa only [String.toList_append, List.append_assoc] using hrest
  exact ⟨String.toList_injective hoffer, colon_injective (ht.trans ht'.symm) htake⟩

/-- A swap id is longer than a match id. -/
theorem not_sized_takeSwapId (ho : Sized offerId) :
    ¬ Sized (Gavl.takeSwapId offerId takerPub takeSeq) := by
  intro h
  rw [takeSwapId_eq] at h
  unfold Sized at h ho
  simp only [String.toList_append, List.length_append, ho] at h
  have hcolon : ":".toList.length = 1 := rfl
  omega

theorem exists_takeSwapId (ho : Sized offerId) (ht : Sized takerPub) (hseq : takeSeq ≤ maxSafe) :
    takeSwapId offerId takerPub takeSeq = .ok (Gavl.takeSwapId offerId takerPub takeSeq) := by
  have hne : ∀ {s : String}, Sized s → s ≠ "" := by
    rintro s hs rfl
    unfold Sized at hs
    exact absurd hs (by decide)
  unfold takeSwapId
  rw [if_neg (not_or.mpr ⟨hne ho, hne ht⟩), if_neg (not_lt.mpr hseq)]

/-! ## Matches -/

/-- A match whose ids and taker have 64 characters each. -/
structure SizedNames (m : Match) : Prop where
  id : Sized m.id
  offerId : Sized m.offerId
  taker : Sized m.taker

/-- Two matches are one as far as a use tells. -/
def Use.SameSwap (u : Use) (m m' : Match) : Prop :=
  match u with
  | makerKey => m.id = m'.id
  | takerKey | takerSecret => m.offerId = m'.offerId ∧ m.taker = m'.taker ∧ m.takeSeq = m'.takeSeq

/-- Equal derivations are for one use of one swap. -/
theorem use_eq {m m' : Match} (hm : SizedNames m) (hm' : SizedNames m') {u u' : Use}
    (h : u.call m = u'.call m') : u = u' ∧ u.SameSwap m m' := by
  have hroles : "maker" ≠ "taker" := by decide
  cases u <;> cases u' <;> simp only [Use.call, Call.swapKey.injEq, Call.swapSecret.injEq,
    reduceCtorEq] at h
  · exact ⟨rfl, h.1⟩
  · exact absurd h.2.2 hroles
  · exact absurd h.2.2.symm hroles
  · exact ⟨rfl, takeSwapId_inj hm.offerId hm'.offerId hm.taker hm'.taker h.1⟩
  · exact ⟨rfl, takeSwapId_inj hm.offerId hm'.offerId hm.taker hm'.taker h⟩

/-- **No swap key or secret is derived twice.** Calls that hash one message are one call with one set
of arguments; a taker's swap id names its take and is no match id; and in any two matches, the maker's
key, the taker's key and the taker's secret come from distinct messages. -/
theorem derivations_distinct :
    (∀ hmacSha256 seed, seed.length = 32 → ∀ a : Call, a.run hmacSha256 seed
      = a.message.bind fun data => a.finish (hmacSha256 seed data)) ∧
    (∀ a b : Call, ∀ data, a.message = .ok data → b.message = .ok data → a = b) ∧
    (∀ offerId takerPub takeSeq, Sized offerId → Sized takerPub → takeSeq ≤ maxSafe →
      ∃ id, takeSwapId offerId takerPub takeSeq = .ok id ∧ ¬ Sized id ∧
        ∀ offerId' takerPub' takeSeq', Sized offerId' → Sized takerPub' →
          takeSwapId offerId' takerPub' takeSeq' = .ok id →
            offerId' = offerId ∧ takerPub' = takerPub ∧ takeSeq' = takeSeq) ∧
    ∀ m m' : Match, SizedNames m → SizedNames m' → ∀ (u u' : Use) data,
      (u.call m).message = .ok data → (u'.call m').message = .ok data →
        u = u' ∧ u.SameSwap m m' := by
  refine ⟨fun hmacSha256 seed hseed a => Call.run_eq hmacSha256 hseed a,
    fun a b data ha hb => Call.message_inj ha hb, ?_, ?_⟩
  · intro offerId takerPub takeSeq ho ht hseq
    refine ⟨_, exists_takeSwapId ho ht hseq, not_sized_takeSwapId ho, ?_⟩
    intro offerId' takerPub' takeSeq' ho' ht' h'
    exact takeSwapId_inj ho' ho ht' ht (takeSwapId_ok h').symm
  · intro m m' hm hm' u u' data hu hu'
    exact use_eq hm hm' (Call.message_inj hu hu')

-- the two derivations of a taker differ in their purpose only
example : (Call.swapSecret "id").message ≠ (Call.swapKey "id" "bitcoin" "taker").message := by decide

end Keys

end Gavl
