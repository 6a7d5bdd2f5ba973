import Gavl.Lib.Runs
import Gavl.Sync.Chunk

/-!
# Chunks are delivered exactly once

Whatever the order, the duplicates and the messages in between, the chunks of a message are put
together once, on the call that brings the last one missing. What a reassembler knows after some
calls is a function of which chunks they brought.
-/

namespace Gavl

open Runs

/-! ## Splitting and joining -/

theorem flatten_slices (s : List Char) (max n : ℕ) : (slices s max n).flatten = s.take (n * max) := by
  unfold slices
  induction n with
  | zero => simp
  | succ n ih =>
    rw [List.range_succ, List.map_append, List.flatten_append, ih, List.map_singleton,
      List.flatten_singleton, Nat.succ_mul, List.take_add]

theorem length_slices (s : List Char) (max n : ℕ) : (slices s max n).length = n := by
  unfold slices
  rw [List.length_map, List.length_range]

/-- The turns of the loop reach the end. -/
theorem le_ceil_mul {n max : ℕ} (hmax : 0 < max) : n ≤ (n + (max - 1)) / max * max := by
  have hmod := Nat.div_add_mod (n + (max - 1)) max
  have hlt := Nat.mod_lt (n + (max - 1)) hmax
  rw [Nat.mul_comm] at hmod
  omega

theorem joinPayload_of_flatten {json : List Char} {parts : List (List Char)}
    (h : parts.flatten = Base64.encode (utf8 json)) : joinPayload parts = json := by
  unfold joinPayload
  rw [h, Base64.decode_encode]
  exact Utf8.decode_encode json

/-- What splitting leaves: some parts, not too many, that join to the text. -/
theorem splitPayload_spec {json : List Char} {maxContent : ℕ} {parts : List (List Char)}
    (h : splitPayload json maxContent = .ok (some parts)) :
    1 ≤ parts.length ∧ parts.length ≤ maxParts ∧ joinPayload parts = json := by
  unfold splitPayload at h
  by_cases hfits : utf16Length json ≤ maxContent
  · rw [if_pos hfits] at h
    exact absurd h (by simp)
  rw [if_neg hfits] at h
  simp only at h
  split_ifs at h with hzero hmany
  obtain rfl := Option.some.inj (Except.ok.inj h)
  have hle := @le_ceil_mul (Base64.encode (utf8 json)).length maxContent (Nat.pos_of_ne_zero hzero)
  have hjoin := joinPayload_of_flatten ((flatten_slices _ _ _).trans (List.take_of_length_le hle))
  refine ⟨?_, ?_, hjoin⟩
  · apply Nat.pos_of_ne_zero
    intro h0
    rw [List.eq_nil_of_length_eq_zero h0] at hjoin
    obtain rfl : json = [] := hjoin.symm
    exact hfits (Nat.zero_le _)
  · rw [length_slices]
    exact not_lt.mp hmany

/-! ## Messages and their chunks -/

/-- A message that is sent in parts. -/
structure Message where
  sender : String
  id : String
  text : List Char
  maxContent : ℕ
  parts : List (List Char)
  pos : 1 ≤ maxContent
  split : splitPayload text maxContent = .ok (some parts)
  bar : '|' ∉ sender.toList
deriving DecidableEq

/-- A chunk of a message, at the time it comes in. -/
structure Chunk where
  message : Message
  index : ℕ
  «at» : ℤ
  lt : index < message.parts.length

namespace Message

variable (m : Message)

/-- The key of a completed message. -/
def key : String := s!"{m.sender}|{m.id}"

theorem length_pos : 0 < m.parts.length := (splitPayload_spec m.split).1

theorem length_le : m.parts.length ≤ maxParts := (splitPayload_spec m.split).2.1

theorem join_eq : joinPayload m.parts = m.text := (splitPayload_spec m.split).2.2

/-- A sender without a bar is read off the key. -/
theorem key_inj {m m' : Message} (h : m.key = m'.key) : m.sender = m'.sender ∧ m.id = m'.id := by
  have hkey : ∀ m : Message, m.key.toList = m.sender.toList ++ '|' :: m.id.toList := fun m => by
    show (m.sender ++ "|" ++ m.id).toList = _
    rw [String.toList_append, String.toList_append, List.append_assoc]
    rfl
  have hlist : m.sender.toList ++ '|' :: m.id.toList = m'.sender.toList ++ '|' :: m'.id.toList := by
    rw [← hkey, ← hkey, h]
  have hsplit : ∀ {a b c d : List Char}, '|' ∉ a → '|' ∉ c → a ++ '|' :: b = c ++ '|' :: d →
      a = c ∧ b = d := by
    intro a
    induction a with
    | nil =>
      intro b c d _ hc heq
      cases c with
      | nil => exact ⟨rfl, (List.cons.inj heq).2⟩
      | cons x c => exact absurd (List.mem_cons.mpr (Or.inl (List.cons.inj heq).1)) hc
    | cons x a ih =>
      intro b c d ha hc heq
      cases c with
      | nil => exact absurd (List.mem_cons.mpr (Or.inl (List.cons.inj heq).1.symm)) ha
      | cons y c =>
        obtain ⟨rfl, htail⟩ := List.cons.inj heq
        obtain ⟨rfl, rfl⟩ := ih (fun hmem => ha (List.mem_cons_of_mem _ hmem))
          (fun hmem => hc (List.mem_cons_of_mem _ hmem)) htail
        exact ⟨rfl, rfl⟩
  obtain ⟨hsender, hid⟩ := hsplit m.bar m'.bar hlist
  exact ⟨String.toList_injective hsender, String.toList_injective hid⟩

end Message

/-- The part a chunk carries. -/
def Chunk.part (c : Chunk) : List Char := c.message.parts.get ⟨c.index, c.lt⟩

/-- Some of the calls brought the chunk of `m` at `i`. -/
def Seen (t : List Chunk) (m : Message) (i : ℕ) : Prop := ∃ c ∈ t, c.message = m ∧ c.index = i

instance (t : List Chunk) (m : Message) (i : ℕ) : Decidable (Seen t m i) :=
  inferInstanceAs (Decidable (∃ c ∈ t, _))

/-- Every chunk of `m` came in. -/
def Complete (t : List Chunk) (m : Message) : Prop := ∀ i < m.parts.length, Seen t m i

instance (t : List Chunk) (m : Message) : Decidable (Complete t m) :=
  inferInstanceAs (Decidable (∀ i < m.parts.length, _))

/-- `c` brings the last chunk of its message that `t` is missing. -/
def LastMissing (t : List Chunk) (c : Chunk) : Prop :=
  ¬Complete t c.message ∧ Complete (t ++ [c]) c.message

instance (t : List Chunk) (c : Chunk) : Decidable (LastMissing t c) :=
  inferInstanceAs (Decidable (_ ∧ _))

variable {t : List Chunk} {c : Chunk} {m : Message} {i : ℕ}

theorem seen_append : Seen (t ++ [c]) m i ↔ Seen t m i ∨ (c.message = m ∧ c.index = i) := by
  unfold Seen
  simp only [List.mem_append, List.mem_singleton, or_and_right, exists_or, exists_eq_left]

theorem Complete.append (h : Complete t m) : Complete (t ++ [c]) m := fun i hi =>
  seen_append.mpr (Or.inl (h i hi))

theorem seen_append_of_ne (hne : c.message ≠ m) : Seen (t ++ [c]) m i ↔ Seen t m i := by
  rw [seen_append]
  exact or_iff_left fun h => hne h.1

theorem Complete.mono {t t' : List Chunk} (h : Complete t m) (hsub : t ⊆ t') : Complete t' m :=
  fun i hi => by
    obtain ⟨c, hc, hmi⟩ := h i hi
    exact ⟨c, hsub hc, hmi⟩

theorem complete_append_of_ne (hne : c.message ≠ m) : Complete (t ++ [c]) m ↔ Complete t m := by
  unfold Complete
  simp only [seen_append_of_ne hne]

/-- A complete message has one chunk that was missing last. -/
theorem existsUnique_lastMissing {calls : List Chunk} (h : Complete calls m) :
    ∃! k, ∃ c, calls[k]? = some c ∧ c.message = m ∧ LastMissing (calls.take k) c := by
  have hex : ∃ n, Complete (calls.take n) m := ⟨calls.length, by rw [List.take_length]; exact h⟩
  have hmin : ∀ {n}, n < Nat.find hex → ¬Complete (calls.take n) m := fun hn => Nat.find_min hex hn
  have hpos : Nat.find hex ≠ 0 := fun h0 => by
    have hc := Nat.find_spec hex
    rw [h0, List.take_zero] at hc
    obtain ⟨c, hmem, -⟩ := hc 0 m.length_pos
    exact absurd hmem List.not_mem_nil
  obtain ⟨k, hk⟩ := Nat.exists_eq_succ_of_ne_zero hpos
  have hnot : ¬Complete (calls.take k) m := hmin (by omega)
  have hdone : Complete (calls.take (k + 1)) m := by
    have hspec := Nat.find_spec hex
    rw [hk] at hspec
    exact hspec
  have hlt : k < calls.length := by
    by_contra hle
    rw [List.take_of_length_le (by omega)] at hdone hnot
    exact hnot hdone
  have hsucc : ∀ {j c}, calls[j]? = some c → calls.take (j + 1) = calls.take j ++ [c] := fun {j c} hj => by
    rw [List.take_add_one, hj]
    rfl
  have hget := List.getElem?_eq_getElem hlt
  rw [hsucc hget] at hdone
  have hm : calls[k].message = m := by
    by_contra hne
    exact hnot ((complete_append_of_ne hne).mp hdone)
  refine ⟨k, ⟨calls[k], hget, hm, ?_⟩, ?_⟩
  · unfold LastMissing
    rw [hm]
    exact ⟨hnot, hdone⟩
  · rintro j ⟨c, hj, rfl, hlast⟩
    rcases lt_trichotomy j k with hjk | hjk | hjk
    · have hj' := hlast.2
      rw [← hsucc hj] at hj'
      exact absurd hj' (hmin (by omega))
    · exact hjk
    · rw [← hsucc hget] at hdone
      exact absurd (hdone.mono (List.take_sublist_take_left (by omega)).subset) hlast.1

/-! ## What a partial holds -/

/-- The chunks of `m` in their places, as far as they came in. -/
def heldParts (t : List Chunk) (m : Message) : List (Option (List Char)) :=
  (List.range m.parts.length).map (fun i => if Seen t m i then m.parts[i]? else none)

theorem length_heldParts : (heldParts t m).length = m.parts.length := by
  unfold heldParts
  rw [List.length_map, List.length_range]

theorem getElem?_heldParts (hi : i < m.parts.length) :
    (heldParts t m)[i]? = some (if Seen t m i then m.parts[i]? else none) := by
  unfold heldParts
  rw [List.getElem?_map, List.getElem?_range hi]
  rfl

/-- A place is empty exactly when its chunk did not come in. -/
theorem heldParts_lacks (hi : i < m.parts.length) : (heldParts t m)[i]? = some none ↔ ¬Seen t m i := by
  rw [getElem?_heldParts hi]
  by_cases hs : Seen t m i
  · simp [hs, List.getElem?_eq_getElem hi]
  · simp [hs]

theorem heldParts_append_of_ne (hne : c.message ≠ m) : heldParts (t ++ [c]) m = heldParts t m := by
  unfold heldParts
  simp only [seen_append_of_ne hne]

theorem heldParts_append_of_seen (hs : Seen t c.message c.index) :
    heldParts (t ++ [c]) c.message = heldParts t c.message := by
  have hseen : ∀ i, Seen (t ++ [c]) c.message i ↔ Seen t c.message i := fun i => by
    rw [seen_append]
    constructor
    · rintro (h | ⟨-, rfl⟩)
      · exact h
      · exact hs
    · exact Or.inl
  unfold heldParts
  simp only [hseen]

theorem heldParts_append_set :
    heldParts (t ++ [c]) c.message = (heldParts t c.message).set c.index (some c.part) := by
  apply List.ext_getElem?
  intro i
  by_cases hi : i < c.message.parts.length
  · rw [getElem?_heldParts hi, List.getElem?_set]
    by_cases hic : c.index = i
    · subst hic
      have hseen : Seen (t ++ [c]) c.message c.index := seen_append.mpr (Or.inr ⟨rfl, rfl⟩)
      rw [if_pos hseen, if_pos rfl, if_pos (by rw [length_heldParts]; exact hi),
        List.getElem?_eq_getElem hi]
      rfl
    · have hseen : Seen (t ++ [c]) c.message i ↔ Seen t c.message i := by
        rw [seen_append]
        exact or_iff_left fun h => hic h.2
      rw [if_neg hic, getElem?_heldParts hi]
      simp only [hseen]
  · rw [List.getElem?_eq_none (by rw [length_heldParts]; omega),
      List.getElem?_eq_none (by rw [List.length_set, length_heldParts]; omega)]

/-- Everything came in: the places hold the parts. -/
theorem heldParts_of_complete (h : Complete t m) : heldParts t m = m.parts.map some := by
  apply List.ext_getElem?
  intro i
  by_cases hi : i < m.parts.length
  · rw [getElem?_heldParts hi, if_pos (h i hi), List.getElem?_map, List.getElem?_eq_getElem hi]
    rfl
  · rw [List.getElem?_eq_none (by rw [length_heldParts]; omega),
      List.getElem?_eq_none (by rw [List.length_map]; omega)]

theorem heldParts_of_unseen (h : ∀ i, ¬Seen t m i) :
    heldParts t m = List.replicate m.parts.length none := by
  apply List.ext_getElem?
  intro i
  by_cases hi : i < m.parts.length
  · rw [getElem?_heldParts hi, if_neg (h i), List.getElem?_replicate, if_pos hi]
  · rw [List.getElem?_eq_none (by rw [length_heldParts]; omega),
      List.getElem?_eq_none (by rw [List.length_replicate]; omega)]

/-- A message is complete exactly when no place is empty. -/
theorem countP_heldParts : (heldParts t m).countP Option.isSome = m.parts.length ↔ Complete t m := by
  rw [← @length_heldParts t m, List.countP_eq_length]
  constructor
  · intro h i hi
    by_contra hs
    have hmem := List.mem_of_getElem? ((heldParts_lacks hi).mpr hs)
    exact absurd (h none hmem) (by simp)
  · intro h x hx
    rw [heldParts_of_complete h] at hx
    obtain ⟨part, -, rfl⟩ := List.mem_map.mp hx
    rfl

/-- `p` holds the chunks of `m` that came in. -/
structure Partial.Holds (p : Partial) (t : List Chunk) (m : Message) : Prop where
  total_eq : p.total = m.parts.length
  parts_eq : p.parts = heldParts t m
  have_eq : p.have = p.parts.countP Option.isSome

namespace Partial.Holds

variable {p : Partial}

theorem empty (h : ∀ i, ¬Seen t m i) (now : ℤ) :
    Partial.Holds ⟨m.parts.length, List.replicate m.parts.length none, 0, 0, now⟩ t m := by
  refine ⟨rfl, (heldParts_of_unseen h).symm, ?_⟩
  show 0 = (List.replicate m.parts.length none).countP Option.isSome
  rw [List.countP_replicate]
  rfl

theorem lacks_iff (h : p.Holds t c.message) : p.lacks c.index = true ↔ ¬Seen t c.message c.index := by
  unfold Partial.lacks
  rw [decide_eq_true_eq, h.parts_eq, heldParts_lacks c.lt]

/-- Filling in a chunk records that it came in. -/
theorem fill (h : p.Holds t c.message) (now : ℤ) :
    (p.fill c.index c.part now).Holds (t ++ [c]) c.message := by
  unfold Partial.fill
  by_cases hs : Seen t c.message c.index
  · rw [if_neg (mt h.lacks_iff.mp (not_not.mpr hs))]
    exact ⟨h.total_eq, h.parts_eq.trans (heldParts_append_of_seen hs).symm, h.have_eq⟩
  · have hlacks := h.lacks_iff.mpr hs
    rw [if_pos hlacks]
    have hget : p.parts[c.index]? = some none := of_decide_eq_true hlacks
    obtain ⟨hlt, hnone⟩ := List.getElem?_eq_some_iff.mp hget
    refine ⟨h.total_eq, ?_, ?_⟩
    · rw [heldParts_append_set, ← h.parts_eq]
    · show p.have + 1 = (p.parts.set c.index (some c.part)).countP Option.isSome
      rw [List.countP_set hlt, hnone, h.have_eq]
      simp

theorem have_eq_total (h : p.Holds t m) : p.have = p.total ↔ Complete t m := by
  rw [h.have_eq, h.total_eq, h.parts_eq, countP_heldParts]

theorem join (h : p.Holds t m) (hc : Complete t m) :
    joinPayload (p.parts.map (fun part => part.getD [])) = m.text := by
  have hparts : p.parts.map (fun part => part.getD []) = m.parts := by
    rw [h.parts_eq, heldParts_of_complete hc, List.map_map]
    exact List.map_id' _
  rw [hparts, m.join_eq]

theorem append_of_ne (h : p.Holds t m) (hne : c.message ≠ m) : p.Holds (t ++ [c]) m :=
  ⟨h.total_eq, h.parts_eq.trans (heldParts_append_of_ne hne).symm, h.have_eq⟩

end Partial.Holds

/-! ## The reassembler -/

namespace Reassembler

variable {r : Reassembler} {sender id sender' id' : String} {p : Partial}

/-- No sender is kept without a partial. -/
def Tidy (r : Reassembler) : Prop :=
  ∀ sender msgs, r.bySender.get? sender = some msgs → msgs.size ≠ 0

theorem get?_ensure : (r.ensure sender).get? id = r.partial? sender id := by
  unfold ensure partial?
  cases r.bySender.get? sender <;> rfl

theorem size_ne_zero {msgs : OrderedMap String Partial} (h : msgs.get? id = some p) :
    msgs.size ≠ 0 := by
  intro h0
  rw [OrderedMap.eq_empty_of_entries (List.eq_nil_of_length_eq_zero h0)] at h
  exact absurd h (by simp)

theorem partial?_put (grown : ℕ) : (r.put sender id p grown).partial? sender' id' =
    if sender = sender' ∧ id = id' then some p else r.partial? sender' id' := by
  show ((r.bySender.set sender ((r.ensure sender).set id p)).get? sender').bind
    (fun m => m.get? id') = _
  rw [OrderedMap.get?_set]
  by_cases hs : sender = sender'
  · subst hs
    rw [if_pos rfl]
    show ((r.ensure sender).set id p).get? id' = _
    rw [OrderedMap.get?_set, get?_ensure]
    by_cases hid : id = id'
    · rw [if_pos hid, if_pos ⟨rfl, hid⟩]
    · rw [if_neg hid, if_neg fun h => hid h.2]
  · rw [if_neg hs, if_neg fun h => hs h.1]
    rfl

theorem partial?_put_self (grown : ℕ) :
    (r.put sender id p grown).partial? sender id = some p := by
  rw [partial?_put, if_pos ⟨rfl, rfl⟩]

theorem Tidy.put (h : r.Tidy) (grown : ℕ) : (r.put sender id p grown).Tidy := by
  intro s msgs hget
  have hget' : (r.bySender.set sender ((r.ensure sender).set id p)).get? s = some msgs := hget
  rw [OrderedMap.get?_set] at hget'
  split_ifs at hget' with hs
  · rw [← Option.some.inj hget']
    exact size_ne_zero (OrderedMap.get?_set_self (r.ensure sender) id p)
  · exact h s msgs hget'

theorem partial?_drop : (r.drop sender id p).partial? sender' id' =
    if sender = sender' ∧ id = id' then none else r.partial? sender' id' := by
  have hget : (r.drop sender id p).partial? sender' id' =
      if sender = sender' then ((r.ensure sender).delete id).get? id' else r.partial? sender' id' := by
    unfold drop partial?
    simp only
    by_cases hs : sender = sender'
    · subst hs
      rw [if_pos rfl]
      by_cases h0 : ((r.ensure sender).delete id).size = 0
      · rw [if_pos h0, OrderedMap.get?_delete, if_pos rfl,
          OrderedMap.eq_empty_of_entries (List.eq_nil_of_length_eq_zero h0)]
        rfl
      · rw [if_neg h0, OrderedMap.get?_set_self]
        rfl
    · rw [if_neg hs]
      by_cases h0 : ((r.ensure sender).delete id).size = 0
      · rw [if_pos h0, OrderedMap.get?_delete, if_neg hs]
      · rw [if_neg h0, OrderedMap.get?_set_of_ne _ _ hs]
  rw [hget]
  by_cases hs : sender = sender'
  · subst hs
    rw [if_pos rfl, OrderedMap.get?_delete, get?_ensure]
    by_cases hid : id = id'
    · rw [if_pos hid, if_pos ⟨rfl, hid⟩]
    · rw [if_neg hid, if_neg fun h => hid h.2]
  · rw [if_neg hs, if_neg fun h => hs h.1]

theorem Tidy.drop (h : r.Tidy) : (r.drop sender id p).Tidy := by
  intro s msgs hget
  unfold Reassembler.drop at hget
  simp only at hget
  split_ifs at hget with h0
  · rw [OrderedMap.get?_delete] at hget
    split_ifs at hget
    exact h s msgs hget
  · rw [OrderedMap.get?_set] at hget
    split_ifs at hget with hs
    · rw [← Option.some.inj hget]
      exact h0
    · exact h s msgs hget

theorem partial?_forget : (r.forget sender id).partial? sender' id' =
    if sender = sender' ∧ id = id' then none else r.partial? sender' id' := by
  unfold forget
  cases hp : r.partial? sender id with
  | some p => exact partial?_drop
  | none =>
    by_cases h : sender = sender' ∧ id = id'
    · obtain ⟨rfl, rfl⟩ := h
      rw [if_pos ⟨rfl, rfl⟩]
      exact hp
    · rw [if_neg h]

theorem partial?_forget_self : (r.forget sender id).partial? sender id = none := by
  rw [partial?_forget, if_pos ⟨rfl, rfl⟩]

theorem Tidy.forget (h : r.Tidy) : (r.forget sender id).Tidy := by
  unfold Reassembler.forget
  cases r.partial? sender id with
  | none => exact h
  | some p => exact h.drop

theorem forget_done : (r.forget sender id).done = r.done := by
  unfold forget
  cases r.partial? sender id <;> rfl

theorem forget_maxPartLen : (r.forget sender id).maxPartLen = r.maxPartLen := by
  unfold forget
  cases r.partial? sender id <;> rfl

theorem foldl_eq_self {α β : Type} {f : β → α → β} {b : β} {l : List α}
    (h : ∀ a ∈ l, f b a = b) : l.foldl f b = b := by
  induction l with
  | nil => rfl
  | cons a l ih =>
    rw [List.foldl_cons, h a List.mem_cons_self]
    exact ih fun a ha => h a (List.mem_cons_of_mem _ ha)

/-- Where nothing is old, sweeping does nothing. -/
theorem sweep_eq {now : ℤ} (htidy : r.Tidy)
    (hfresh : ∀ sender id p, r.partial? sender id = some p → now - p.at ≤ r.ttlMs)
    (hdone : ∀ k «at», r.done.get? k = some «at» → now - «at» ≤ r.ttlMs)
    (hfew : r.done.size ≤ 4096) : r.sweep now = r := by
  have hquiet : r.bySender.entries.foldl (fun r e =>
      let r := e.2.entries.foldl (fun r q =>
        if r.ttlMs < now - q.2.at then r.drop e.1 q.1 q.2 else r) r
      if (r.ensure e.1).size = 0 then { r with bySender := r.bySender.delete e.1 } else r) r = r := by
    apply foldl_eq_self
    rintro ⟨sender, msgs⟩ he
    have hmsgs : r.bySender.get? sender = some msgs := (OrderedMap.get?_eq_some_iff _ _ _).mpr he
    have hinner : msgs.entries.foldl (fun r q =>
        if r.ttlMs < now - q.2.at then r.drop sender q.1 q.2 else r) r = r := by
      apply foldl_eq_self
      rintro ⟨id, p⟩ hp
      have hpartial : r.partial? sender id = some p := by
        unfold partial?
        rw [hmsgs]
        exact (OrderedMap.get?_eq_some_iff _ _ _).mpr hp
      exact if_neg (not_lt.mpr (hfresh sender id p hpartial))
    simp only
    rw [hinner]
    have hensure : r.ensure sender = msgs := by
      unfold ensure
      rw [hmsgs]
      rfl
    rw [hensure, if_neg (htidy sender msgs hmsgs)]
  have hkeep : r.done.filter (fun _ «at» => decide (now - «at» ≤ r.ttlMs)) = r.done := by
    apply OrderedMap.ext_entries
    apply List.filter_eq_self.mpr
    rintro ⟨k, «at»⟩ he
    exact decide_eq_true (hdone k «at» ((OrderedMap.get?_eq_some_iff _ _ _).mpr he))
  unfold sweep
  simp only
  rw [hquiet, hkeep, Nat.sub_eq_zero_of_le hfew, List.take_zero]
  rfl

/-- Under the cap, nothing is shed. -/
theorem shed_eq (h : r.bytes ≤ r.maxBytes) : ∀ n, shed n r = r := by
  intro n
  cases n with
  | zero => rfl
  | succ n =>
    rw [shed, if_neg]
    exact fun h' => absurd h'.1 (not_lt.mpr h)

end Reassembler

/-! ## Calls -/

namespace Reassembler

variable {messages : List Message} {r r' : Reassembler}

/-- The call that brings `c`. -/
def give (r : Reassembler) (c : Chunk) : Reassembler × Option (List Char) :=
  r.accept c.message.sender c.message.id (some c.index) (some c.message.parts.length) c.part c.at

/-- What the calls answer, one after the other. -/
def answers : Reassembler → List Chunk → List (Option (List Char))
  | _, [] => []
  | r, c :: calls => (r.give c).2 :: answers (r.give c).1 calls

/-- Whether the chunk would be stored: its place is empty, or its message not known yet. -/
def lacks (r : Reassembler) (c : Chunk) : Bool :=
  ((r.partial? c.message.sender c.message.id).map (fun p => p.lacks c.index)).getD true

/-- Nothing expires at the call, and it hits no cap. -/
structure Unhindered (r : Reassembler) (c : Chunk) : Prop where
  fresh : ∀ sender id p, r.partial? sender id = some p → c.at - p.at ≤ r.ttlMs
  remembered : ∀ k «at», r.done.get? k = some «at» → c.at - «at» ≤ r.ttlMs
  room : r.partial? c.message.sender c.message.id = none → r.done.has c.message.key = false →
    (r.ensure c.message.sender).size < r.maxPartialPerSender
  under : r.done.has c.message.key = false →
    r.bytes + (if r.lacks c then utf16Length c.part else 0) ≤ r.maxBytes

/-- What a reassembler knows after the calls `t`. -/
structure Tracks (messages : List Message) (r : Reassembler) (t : List Chunk) : Prop where
  tidy : r.Tidy
  part_le : ∀ m ∈ messages, ∀ part ∈ m.parts, utf16Length part ≤ r.maxPartLen
  done_iff : ∀ m ∈ messages, r.done.has m.key = true ↔ Complete t m
  done_key : ∀ k, r.done.has k = true → ∃ m ∈ messages, m.key = k
  held : ∀ m ∈ messages, ∀ p, r.partial? m.sender m.id = some p → p.Holds t m
  absent : ∀ m ∈ messages, r.partial? m.sender m.id = none → Complete t m ∨ ∀ i, ¬Seen t m i

/-- `r'` knows what `r` knows of every message but `m`. -/
structure AgreeBut (messages : List Message) (m : Message) (r r' : Reassembler) : Prop where
  partLen : r'.maxPartLen = r.maxPartLen
  partial_eq : ∀ m' ∈ messages, m' ≠ m → r'.partial? m'.sender m'.id = r.partial? m'.sender m'.id
  has_eq : ∀ m' ∈ messages, m' ≠ m → r'.done.has m'.key = r.done.has m'.key
  key_of : ∀ k, r'.done.has k = true → r.done.has k = true ∨ k = m.key

/-- A call changes what is known of its own message. -/
theorem Tracks.call (h : Tracks messages r t) (hmem : c.message ∈ messages) (htidy : r'.Tidy)
    (hagree : AgreeBut messages c.message r r')
    (hdone : r'.done.has c.message.key = true ↔ Complete (t ++ [c]) c.message)
    (hheld : ∀ p, r'.partial? c.message.sender c.message.id = some p → p.Holds (t ++ [c]) c.message)
    (habsent : r'.partial? c.message.sender c.message.id = none → Complete (t ++ [c]) c.message) :
    Tracks messages r' (t ++ [c]) where
  tidy := htidy
  part_le := fun m hm part hpart => hagree.partLen ▸ h.part_le m hm part hpart
  done_iff := fun m hm => by
    by_cases hne : m = c.message
    · exact hne ▸ hdone
    · rw [hagree.has_eq m hm hne, h.done_iff m hm, complete_append_of_ne (Ne.symm hne)]
  done_key := fun k hk => by
    rcases hagree.key_of k hk with hk | rfl
    · exact h.done_key k hk
    · exact ⟨c.message, hmem, rfl⟩
  held := fun m hm p hp => by
    by_cases hne : m = c.message
    · subst hne
      exact hheld p hp
    · rw [hagree.partial_eq m hm hne] at hp
      exact (h.held m hm p hp).append_of_ne (Ne.symm hne)
  absent := fun m hm hp => by
    by_cases hne : m = c.message
    · subst hne
      exact Or.inl (habsent hp)
    · rw [hagree.partial_eq m hm hne] at hp
      rw [complete_append_of_ne (Ne.symm hne)]
      simp only [seen_append_of_ne (Ne.symm hne)]
      exact h.absent m hm hp

/-- Sender and id tell messages apart. -/
def Distinct (messages : List Message) : Prop := (messages.map (fun m => (m.sender, m.id))).Nodup

theorem Distinct.eq (h : Distinct messages) {m m' : Message} (hm : m ∈ messages) (hm' : m' ∈ messages)
    (hsender : m.sender = m'.sender) (hid : m.id = m'.id) : m = m' :=
  List.inj_on_of_nodup_map h hm hm' (Prod.ext hsender hid)

/-- Putting and forgetting a partial of `m` leaves the others alone. -/
theorem agreeBut_put (hdistinct : Distinct messages) (hm : m ∈ messages) {p : Partial} {grown : ℕ} :
    AgreeBut messages m r (r.put m.sender m.id p grown) where
  partLen := rfl
  partial_eq := fun m' hm' hne => by
    rw [partial?_put, if_neg]
    exact fun h => hne (hdistinct.eq hm' hm h.1.symm h.2.symm)
  has_eq := fun _ _ _ => rfl
  key_of := fun _ hk => Or.inl hk

theorem agreeBut_finish (hdistinct : Distinct messages) (hm : m ∈ messages) {p : Partial} {grown : ℕ}
    {now : ℤ} : AgreeBut messages m r { (r.put m.sender m.id p grown).forget m.sender m.id with
      done := ((r.put m.sender m.id p grown).forget m.sender m.id).done.set m.key now } where
  partLen := forget_maxPartLen
  partial_eq := fun m' hm' hne => by
    have hforget := @partial?_forget (r.put m.sender m.id p grown) m.sender m.id m'.sender m'.id
    have hput := (@agreeBut_put m messages r hdistinct hm p grown).partial_eq m' hm' hne
    rw [if_neg fun h => hne (hdistinct.eq hm' hm h.1.symm h.2.symm), hput] at hforget
    exact hforget
  has_eq := fun m' hm' hne => by
    have hkey : m.key ≠ m'.key := fun h => by
      obtain ⟨hsender, hid⟩ := Message.key_inj h
      exact hne (hdistinct.eq hm' hm hsender.symm hid.symm)
    unfold OrderedMap.has
    rw [OrderedMap.get?_set_of_ne _ _ hkey, forget_done]
    rfl
  key_of := fun k hk => by
    by_cases hkey : m.key = k
    · exact Or.inr hkey.symm
    · unfold OrderedMap.has at hk ⊢
      rw [OrderedMap.get?_set_of_ne _ _ hkey, forget_done] at hk
      exact Or.inl hk

/-- The partial a chunk goes into: what came in before, an empty one for a message not known. -/
theorem Tracks.opened_eq (h : Tracks messages r t) (hmem : c.message ∈ messages)
    (hu : Unhindered r c) (hdone : r.done.has c.message.key = false) :
    ∃ p, (r.reshaped c.message.sender c.message.id c.message.parts.length).opened c.message.sender
        c.message.id c.message.parts.length c.at = (r, p) ∧
      p.Holds t c.message ∧ p.lacks c.index = r.lacks c := by
  have hnot : ¬Complete t c.message := by
    rw [← h.done_iff _ hmem, hdone]
    decide
  unfold reshaped
  cases hp : r.partial? c.message.sender c.message.id with
  | some p =>
    have hholds := h.held _ hmem p hp
    refine ⟨p, ?_, hholds, ?_⟩
    · simp only
      rw [if_neg (not_not.mpr hholds.total_eq)]
      unfold opened
      rw [hp]
    · unfold lacks
      rw [hp]
      rfl
  | none =>
    have hunseen : ∀ i, ¬Seen t c.message i := (h.absent _ hmem hp).resolve_left hnot
    have hholds := Partial.Holds.empty hunseen c.at
    refine ⟨_, ?_, hholds, ?_⟩
    · simp only
      unfold opened
      rw [hp]
      simp only
      rw [if_neg (not_le.mpr (hu.room hp hdone))]
    · unfold lacks
      rw [hp, hholds.lacks_iff.mpr (hunseen c.index)]
      rfl

/-- **One call**: the message is given out on the chunk that was missing last. -/
theorem Tracks.give (h : Tracks messages r t) (hdistinct : Distinct messages)
    (hmem : c.message ∈ messages) (hu : Unhindered r c) (hfew : r.done.size ≤ 4096) :
    Tracks messages (r.give c).1 (t ++ [c]) ∧
      (r.give c).2 = if LastMissing t c then some c.message.text else none := by
  have htotal : ¬((c.message.parts.length : ℤ) < 1 ∨ (maxParts : ℤ) < c.message.parts.length) := by
    have := c.message.length_pos
    have := c.message.length_le
    omega
  have hindex : ¬((c.index : ℤ) < 0 ∨ (c.message.parts.length : ℤ) ≤ c.index) := by
    have := c.lt
    omega
  have hpart : ¬r.maxPartLen < utf16Length c.part :=
    not_lt.mpr (h.part_le _ hmem _ (List.get_mem _ _))
  have hgive : r.give c = if r.done.has c.message.key then (r, none)
      else r.receive c.message.sender c.message.id c.index c.message.parts.length c.part c.at := by
    unfold Reassembler.give accept
    simp only
    rw [if_neg htotal, if_neg hindex, if_neg hpart,
      sweep_eq h.tidy hu.fresh hu.remembered hfew, Int.toNat_natCast, Int.toNat_natCast]
    rfl
  rw [hgive]
  cases hdone : r.done.has c.message.key with
  | true =>
    -- an echo of a message that was given out
    have hcomplete := (h.done_iff _ hmem).mp hdone
    rw [if_pos rfl, if_neg fun hlast => hlast.1 hcomplete]
    refine ⟨h.call hmem h.tidy ⟨rfl, fun _ _ _ => rfl, fun _ _ _ => rfl, fun _ hk => Or.inl hk⟩ ?_ ?_ ?_, rfl⟩
    · exact iff_of_true hdone hcomplete.append
    · intro p hp
      have hholds := h.held _ hmem p hp
      exact ⟨hholds.total_eq,
        hholds.parts_eq.trans (heldParts_append_of_seen (hcomplete _ c.lt)).symm, hholds.have_eq⟩
    · exact fun _ => hcomplete.append
  | false =>
    have hnot : ¬Complete t c.message := by
      rw [← h.done_iff _ hmem, hdone]
      decide
    obtain ⟨p, hopened, hholds, hlacks⟩ := h.opened_eq hmem hu hdone
    have hfill := hholds.fill c.at
    rw [if_neg (by decide)]
    unfold receive
    rw [hopened]
    simp only
    rw [hlacks]
    have hput := @partial?_put_self r c.message.sender c.message.id
      (p.fill c.index c.part c.at) (if r.lacks c then utf16Length c.part else 0)
    have hunder : (r.put c.message.sender c.message.id (p.fill c.index c.part c.at)
        (if r.lacks c then utf16Length c.part else 0)).bytes ≤ r.maxBytes := by
      have := hu.under hdone
      unfold put
      simp only
      split_ifs at this ⊢ <;> exact this
    rw [shed_eq hunder]
    unfold complete
    rw [hput, if_neg (by simp)]
    by_cases hc : Complete (t ++ [c]) c.message
    · -- the last chunk missing
      have hlast : LastMissing t c := ⟨hnot, hc⟩
      rw [if_neg (not_not.mpr (hfill.have_eq_total.mpr hc)), if_pos hlast]
      refine ⟨h.call hmem (h.tidy.put _).forget (agreeBut_finish hdistinct hmem) ?_ ?_ fun _ => hc, ?_⟩
      · refine iff_of_true ?_ hc
        exact (OrderedMap.has_iff _ _).mpr ⟨_, OrderedMap.get?_set_self _ _ _⟩
      · exact fun q hq => absurd (partial?_forget_self.symm.trans hq) (by simp)
      · exact congrArg some (hfill.join hc)
    · have hlast : ¬LastMissing t c := fun hlast => hc hlast.2
      rw [if_pos (mt hfill.have_eq_total.mp hc), if_neg hlast]
      refine ⟨h.call hmem (h.tidy.put _) (agreeBut_put hdistinct hmem) ?_ ?_ ?_, rfl⟩
      · exact iff_of_false (by show ¬r.done.has c.message.key = true; rw [hdone]; decide) hc
      · intro q hq
        rw [hput] at hq
        exact Option.some.inj hq ▸ hfill
      · intro hnone
        rw [hput] at hnone
        exact absurd hnone (by simp)

theorem Tracks.new {opts : ReassemblerOptions}
    (hparts : ∀ m ∈ messages, ∀ part ∈ m.parts, utf16Length part ≤ opts.maxPartLen) :
    Tracks messages (new opts) [] where
  tidy := fun sender msgs h => absurd h (by simp [Reassembler.new])
  part_le := hparts
  done_iff := fun m _ => by
    refine iff_of_false (by simp [Reassembler.new, OrderedMap.has]) fun h => ?_
    obtain ⟨c, hc, -⟩ := h 0 m.length_pos
    exact absurd hc List.not_mem_nil
  done_key := fun k hk => absurd hk (by simp [Reassembler.new, OrderedMap.has])
  held := fun m _ p hp => absurd hp (by simp [Reassembler.new, partial?])
  absent := fun m _ _ => Or.inr fun i ⟨c, hc, _⟩ => absurd hc List.not_mem_nil

/-- Only whole messages are remembered as completed. -/
theorem Tracks.size_done_le (h : Tracks messages r t) :
    r.done.size ≤ (messages.filter (fun m => decide (Complete t m))).length := by
  have hsub : r.done.entries.map Prod.fst
      ⊆ (messages.filter (fun m => decide (Complete t m))).map Message.key := by
    intro k hk
    have hhas : r.done.has k = true := by
      rw [← Bool.not_eq_false, OrderedMap.not_has_iff]
      exact not_not.mpr hk
    obtain ⟨m, hm, rfl⟩ := h.done_key k hhas
    exact List.mem_map_of_mem
      (List.mem_filter.mpr ⟨hm, decide_eq_true ((h.done_iff m hm).mp hhas)⟩)
  have hle := (List.subperm_of_subset r.done.nodup hsub).length_le
  rw [List.length_map, List.length_map] at hle
  exact hle

/-- **A run of calls** answers each as the chunks before it and its own decide. -/
theorem Tracks.answers (hdistinct : Distinct messages) : ∀ {calls t : List Chunk} {r : Reassembler},
    Tracks messages r t → (∀ c ∈ calls, c.message ∈ messages) →
      Along (fun r c => (r.give c).1) Unhindered r calls →
        (messages.filter (fun m => decide (Complete (t ++ calls) m))).length ≤ 4096 →
          ∀ {k c}, calls[k]? = some c → (answers r calls)[k]?
            = some (if LastMissing (t ++ calls.take k) c then some c.message.text else none) := by
  intro calls
  induction calls with
  | nil =>
    intro t r _ _ _ _ k c hk
    exact absurd hk (by simp)
  | cons c₀ calls ih =>
    intro t r h hmem halong hfew k c hk
    obtain ⟨hc₀, hmem⟩ := List.forall_mem_cons.mp hmem
    obtain ⟨hu, halong⟩ := halong
    have hsize : r.done.size ≤ 4096 := by
      refine le_trans h.size_done_le (le_trans (List.Sublist.length_le ?_) hfew)
      refine List.monotone_filter_right _ fun m hm => ?_
      have hc : Complete t m := of_decide_eq_true hm
      exact decide_eq_true (hc.mono (List.subset_append_left _ _))
    obtain ⟨htracks, hanswer⟩ := h.give hdistinct hc₀ hu hsize
    cases k with
    | zero =>
      obtain rfl := Option.some.inj hk
      rw [List.take_zero, List.append_nil]
      exact congrArg some hanswer
    | succ k =>
      have hrest := ih htracks hmem halong (by rw [List.append_assoc]; exact hfew) hk
      rw [List.append_assoc] at hrest
      exact hrest

/-! ## When nothing is in the way, decidably -/

theorem mem_pending {sender id : String} {p : Partial} :
    ((sender, id), p) ∈ r.pending ↔ r.partial? sender id = some p := by
  unfold pending partial?
  simp only [List.mem_flatMap, List.mem_map, Prod.mk.injEq]
  constructor
  · rintro ⟨⟨s, msgs⟩, he, ⟨i, q⟩, hq, ⟨rfl, rfl⟩, rfl⟩
    rw [(OrderedMap.get?_eq_some_iff _ _ _).mpr he]
    exact (OrderedMap.get?_eq_some_iff _ _ _).mpr hq
  · intro h
    obtain ⟨msgs, hmsgs, hp⟩ := Option.bind_eq_some_iff.mp h
    exact ⟨(sender, msgs), (OrderedMap.get?_eq_some_iff _ _ _).mp hmsgs, (id, p),
      (OrderedMap.get?_eq_some_iff _ _ _).mp hp, ⟨rfl, rfl⟩, rfl⟩

theorem unhindered_iff : Unhindered r c ↔
    (∀ e ∈ r.pending, c.at - e.2.at ≤ r.ttlMs) ∧ (∀ e ∈ r.done.entries, c.at - e.2 ≤ r.ttlMs) ∧
    ((r.partial? c.message.sender c.message.id).isNone = true → r.done.has c.message.key = false →
      (r.ensure c.message.sender).size < r.maxPartialPerSender) ∧
    (r.done.has c.message.key = false →
      r.bytes + (if r.lacks c then utf16Length c.part else 0) ≤ r.maxBytes) := by
  constructor
  · intro h
    refine ⟨fun e he => h.fresh e.1.1 e.1.2 e.2 (mem_pending.mp he), fun e he => ?_, fun hp => ?_, h.under⟩
    · exact h.remembered e.1 e.2 ((OrderedMap.get?_eq_some_iff _ _ _).mpr he)
    · exact h.room (Option.isNone_iff_eq_none.mp hp)
  · rintro ⟨hfresh, hdone, hroom, hunder⟩
    refine ⟨fun s i p hp => hfresh ((s, i), p) (mem_pending.mpr hp), fun k «at» hk => ?_, fun hp => ?_, hunder⟩
    · exact hdone (k, «at») ((OrderedMap.get?_eq_some_iff _ _ _).mp hk)
    · exact hroom (Option.isNone_iff_eq_none.mpr hp)

instance (r : Reassembler) (c : Chunk) : Decidable (Unhindered r c) :=
  decidable_of_iff _ unhindered_iff.symm

end Reassembler

open Reassembler in
/-- **Every message is delivered exactly once, byte-exact.** However the chunks of some messages come
in, in any order and any number of times, where nothing expires and no cap is hit: the call that
brings the last missing chunk of a message returns its text, every other call nothing. -/
theorem delivered_exactly_once (opts : ReassemblerOptions) (messages : List Message)
    (calls : List Chunk) (hdistinct : Distinct messages)
    (hparts : ∀ m ∈ messages, ∀ part ∈ m.parts, utf16Length part ≤ opts.maxPartLen)
    (hcalls : ∀ c ∈ calls, c.message ∈ messages)
    (hcalm : Along (fun r c => (r.give c).1) Unhindered (Reassembler.new opts) calls)
    (hfew : (messages.filter (fun m => decide (Complete calls m))).length ≤ 4096) :
    (∀ k c, calls[k]? = some c → (answers (Reassembler.new opts) calls)[k]?
      = some (if LastMissing (calls.take k) c then some c.message.text else none)) ∧
    ∀ m ∈ messages, Complete calls m → ∃! k : ℕ, ∃ c : Chunk, calls[k]? = some c ∧ c.message = m ∧
      (answers (Reassembler.new opts) calls)[k]? = some (some m.text) := by
  have hrun : ∀ k c, calls[k]? = some c → (answers (Reassembler.new opts) calls)[k]?
      = some (if LastMissing (calls.take k) c then some c.message.text else none) := fun k c hk =>
    (Tracks.new hparts).answers hdistinct hcalls hcalm hfew hk
  refine ⟨hrun, fun m _ hc => ?_⟩
  have hlast : ∀ {k : ℕ} {c : Chunk}, calls[k]? = some c → c.message = m →
      ((answers (Reassembler.new opts) calls)[k]? = some (some m.text) ↔
        LastMissing (calls.take k) c) := fun {k c} hk hm => by
    rw [hrun k c hk, hm]
    by_cases hl : LastMissing (calls.take k) c
    · simp [hl]
    · simp [hl]
  obtain ⟨k, ⟨c, hk, hm, hl⟩, hunique⟩ := existsUnique_lastMissing hc
  refine ⟨k, ⟨c, hk, hm, (hlast hk hm).mpr hl⟩, ?_⟩
  rintro j ⟨c', hj, hm', hj'⟩
  exact hunique j ⟨c', hj, hm', (hlast hj hm').mp hj'⟩

namespace Echoes

def greeting : Message where
  sender := "peer"
  id := "m1"
  text := ['h', 'é', 'y', 'o']
  maxContent := 3
  parts := [['a', 'M', 'O'], ['p', 'e', 'W'], ['8', '=']]
  pos := by decide
  split := by decide +kernel
  bar := by decide

def answer : Message where
  sender := "peer"
  id := "m2"
  text := ['n', 'o']
  maxContent := 1
  parts := [['b'], ['m'], ['8'], ['=']]
  pos := by decide
  split := by decide +kernel
  bar := by decide

/-- Both messages out of order, one within the other, with echoes before and after the last chunk. -/
def calls : List Chunk :=
  [⟨greeting, 2, 10, by decide⟩, ⟨answer, 0, 11, by decide⟩, ⟨answer, 3, 11, by decide⟩,
    ⟨greeting, 0, 12, by decide⟩, ⟨greeting, 0, 13, by decide⟩, ⟨greeting, 1, 9, by decide⟩,
    ⟨greeting, 2, 14, by decide⟩, ⟨answer, 2, 15, by decide⟩, ⟨answer, 1, 15, by decide⟩]

end Echoes

open Echoes Reassembler in
theorem delivered_exactly_once_echoes :
    ∃! k : ℕ, ∃ c : Chunk, calls[k]? = some c ∧ c.message = greeting ∧
      (answers (Reassembler.new {}) calls)[k]? = some (some greeting.text) := by
  have h := delivered_exactly_once {} [greeting, answer] calls (by unfold Distinct; decide +kernel)
    (by decide +kernel) (by decide +kernel) (by decide +kernel) (by decide +kernel)
  exact h.2 greeting (by simp) (by decide +kernel)

end Gavl
