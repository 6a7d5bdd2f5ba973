import Gavl.Consensus.AnchorTheorems
import Gavl.Det.CanonicalTheorems

/-!
# Ids bind bodies

With a collision-free hash an anchor's id determines every field of its body and its time
proof, and a state root determines the heads it commits to. The one thing an id does not bind
is an entry of the delta under the key `__proto__`, which the canonical encoding drops.
-/

namespace Gavl

open Json

variable {C : Crypto}

/-! ## State roots -/

theorem sortValue_headEntry (e : String × Head) :
    (Json.arr [.str e.1, .str e.2.id, .nat e.2.seq]).sortValue
      = .arr [.str e.1, .str e.2.id, .nat e.2.seq] := by
  rw [sortValue, sortItems_eq_map]
  simp

theorem headEntry_injective :
    Function.Injective (fun e : String × Head => Json.arr [.str e.1, .str e.2.id, .nat e.2.seq]) := by
  rintro ⟨w, ⟨i, n⟩⟩ ⟨w', ⟨i', n'⟩⟩ h
  simp only [arr.injEq, List.cons.injEq, str.injEq, and_true] at h
  obtain ⟨hw, hi, hn⟩ := h
  rw [hw, hi, nat_injective hn]

/-- The state root determines the heads. -/
theorem rootOfHeads_inj (hC : Function.Injective C.sha256) {h h' : Heads}
    (hroot : rootOfHeads C h = rootOfHeads C h') (w : String) : h.get? w = h'.get? w := by
  have hsort := sha256Hex_canonical_inj hC hroot
  unfold Heads.entriesJson at hsort
  rw [sortValue, sortValue, arr.injEq, sortItems_eq_map, sortItems_eq_map, List.map_map,
    List.map_map] at hsort
  have hcomp : sortValue ∘ (fun e : String × Head => Json.arr [.str e.1, .str e.2.id, .nat e.2.seq])
      = fun e => Json.arr [.str e.1, .str e.2.id, .nat e.2.seq] :=
    funext sortValue_headEntry
  rw [hcomp] at hsort
  have hentries := List.map_injective_iff.mpr headEntry_injective hsort
  unfold Heads.sortedEntries at hentries
  have hperm := List.perm_insertionSort (fun a b : String × Head => a.1 ≤ b.1) h.entries
  rw [hentries] at hperm
  have hsame := hperm.symm.trans (List.perm_insertionSort _ h'.entries)
  apply Option.ext
  intro v
  rw [OrderedMap.get?_eq_some_iff, OrderedMap.get?_eq_some_iff, hsame.mem_iff]

/-! ## Bodies -/

/-- Two bodies that agree in everything an id covers. -/
structure SameBody (b b' : AnchorBody) : Prop where
  height_eq : b.height = b'.height
  prev_eq : b.prev = b'.prev
  producer_eq : b.producer = b'.producer
  nonce_eq : b.nonce = b'.nonce
  difficulty_eq : b.difficulty = b'.difficulty
  stateRoot_eq : b.stateRoot = b'.stateRoot
  appRoot_eq : b.appRoot = b'.appRoot
  weight_eq : b.weight = b'.weight
  headsDelta_eq : ∀ w, w ≠ "__proto__" → b.headsDelta.get? w = b'.headsDelta.get? w

theorem heads_get?_of_sortValue_eq {h h' : Heads} (heq : h.toJson.sortValue = h'.toJson.sortValue)
    {w : String} (hw : w ≠ "__proto__") {v : Head} (hv : h.get? w = some v) :
    h'.get? w = some v := by
  have hmem := (OrderedMap.get?_eq_some_iff h w v).mp hv
  obtain ⟨x, hx, hsort⟩ := mem_of_sortValue_eq heq hw (List.mem_map.mpr ⟨(w, v), hmem, rfl⟩)
  obtain ⟨⟨w', v'⟩, hmem', hpair⟩ := List.mem_map.mp hx
  rw [Prod.mk.injEq] at hpair
  obtain ⟨rfl, rfl⟩ := hpair
  have hid := member_eq hsort (k := "id") (w := .str v.id) (by decide) (List.mem_cons_self)
    (fun x hx => by simpa using hx)
  have hseq := member_eq hsort (k := "seq") (w := .nat v.seq) (by decide)
    (List.mem_cons_of_mem _ List.mem_cons_self) (fun x hx => by simpa using hx)
  rw [sortValue_str, sortValue_str, str.injEq] at hid
  rw [sortValue_nat, sortValue_nat] at hseq
  rw [OrderedMap.get?_eq_some_iff]
  have hvv : v' = v := by
    cases v; cases v'
    simp only at hid hseq
    rw [hid, nat_injective hseq]
  exact hvv ▸ hmem'

theorem sameBody_of_sortValue_eq {b b' : AnchorBody}
    (h : b.toJson.sortValue = b'.toJson.sortValue) : SameBody b b' := by
  unfold AnchorBody.toJson at h
  have hheight := member_eq h (v := .nat b.height) (w := .nat b'.height) (k := "height") (by decide)
    (by simp) (fun x hx => by simpa using hx)
  have hprev := member_eq h (v := .nullable b.prev) (w := .nullable b'.prev) (k := "prev") (by decide)
    (by simp) (fun x hx => by simpa using hx)
  have hproducer := member_eq h (v := .str b.producer) (w := .str b'.producer) (k := "producer") (by decide)
    (by simp) (fun x hx => by simpa using hx)
  have hnonce := member_eq h (v := .nat b.nonce) (w := .nat b'.nonce) (k := "nonce") (by decide)
    (by simp) (fun x hx => by simpa using hx)
  have hdifficulty := member_eq h (v := .decimal b.difficulty) (w := .decimal b'.difficulty) (k := "difficulty") (by decide)
    (by simp) (fun x hx => by simpa using hx)
  have hstate := member_eq h (v := .str b.stateRoot) (w := .str b'.stateRoot) (k := "stateRoot") (by decide)
    (by simp) (fun x hx => by simpa using hx)
  have happ := member_eq h (v := .str b.appRoot) (w := .str b'.appRoot) (k := "appRoot") (by decide)
    (by simp) (fun x hx => by simpa using hx)
  have hweight := member_eq h (v := .decimal b.weight) (w := .decimal b'.weight) (k := "weight") (by decide)
    (by simp) (fun x hx => by simpa using hx)
  have hdelta := member_eq h (v := b.headsDelta.toJson) (w := b'.headsDelta.toJson) (k := "headsDelta") (by decide)
    (by simp) (fun x hx => by simpa using hx)
  simp only [sortValue_nat, sortValue_nullable, sortValue_str, sortValue_decimal, str.injEq]
    at hheight hprev hproducer hnonce hdifficulty hstate happ hweight
  refine ⟨(nat_injective hheight).symm, (nullable_injective hprev).symm, hproducer.symm,
    (nat_injective hnonce).symm, (decimal_injective hdifficulty).symm, hstate.symm, happ.symm,
    (decimal_injective hweight).symm, fun w hw => ?_⟩
  apply Option.ext
  intro v
  exact ⟨heads_get?_of_sortValue_eq hdelta.symm hw, heads_get?_of_sortValue_eq hdelta hw⟩

/-- **Ids bind bodies.** -/
theorem idOf_inj (hC : Function.Injective C.sha256) {b b' : AnchorBody} {t t' : TimeProof}
    (h : idOf C b t = idOf C b' t') : SameBody b b' := by
  have hsort := sha256Hex_canonical_inj hC h
  have hbody := member_eq hsort (v := b.toJson) (w := b'.toJson) (k := "body") (by decide)
    (by simp) (fun x hx => by simpa using hx)
  exact sameBody_of_sortValue_eq hbody.symm

/-- Digests being non-empty, ids are. -/
theorem idOf_ne_empty (hC : ∀ b, C.sha256 b ≠ []) (b : AnchorBody) (t : TimeProof) :
    idOf C b t ≠ "" := toHex_ne_empty (hC _)

end Gavl
