import Gavl.Det.CanonicalTheorems
import Gavl.Det.Shape
import Gavl.Lib.OrderedMap
import Gavl.Lib.StableSort

/-!
# What the canonical text forgets

Two values have the same canonical text exactly when they agree up to the order of object keys and
up to members under the key `__proto__`, which the sorted copy drops.
-/

namespace Gavl

namespace Json

mutual

/-- The keys of every object differ, as in what `JSON.parse` yields. -/
def Wf : Json → Prop
  | .arr items => WfItems items
  | .obj fields => (fields.map Prod.fst).Nodup ∧ WfFields fields
  | _ => True

def WfItems : List Json → Prop
  | [] => True
  | v :: vs => v.Wf ∧ WfItems vs

def WfFields : List (String × Json) → Prop
  | [] => True
  | (_, v) :: fs => v.Wf ∧ WfFields fs

end

mutual

/-- Equal up to the order of object keys, and apart from members under a key in `drop`. -/
def Agree (drop : String → Bool) : Json → Json → Prop
  | .null, .null => True
  | .bool x, .bool y => x = y
  | .num m, .num n => m = n
  | .str s, .str t => s = t
  | .arr vs, .arr ws => AgreeItems drop vs ws
  | .obj fs, .obj gs =>
    AgreeFields drop fs gs ∧
      ∀ k ∈ gs.map Prod.fst, drop k = false → k ∈ fs.map Prod.fst
  | _, _ => False

def AgreeItems (drop : String → Bool) : List Json → List Json → Prop
  | [], [] => True
  | v :: vs, w :: ws => Agree drop v w ∧ AgreeItems drop vs ws
  | _, _ => False

def AgreeFields (drop : String → Bool) : List (String × Json) → List (String × Json) → Prop
  | [], _ => True
  | (k, v) :: fs, gs =>
    (drop k = true ∨ ∃ w, (k, w) ∈ gs ∧ Agree drop v w) ∧ AgreeFields drop fs gs

end

/-- Equal up to the order of object keys. -/
def Same (a b : Json) : Prop := Agree (fun _ => false) a b

/-- Equal but for members under `__proto__`. -/
def SameButProto (a b : Json) : Prop := Agree (fun k => decide (k = "__proto__")) a b

/-- Differing in members under `__proto__`, and in nothing else. -/
def DifferInProto (a b : Json) : Prop := a.SameButProto b ∧ ¬ a.Same b

variable {drop : String → Bool} {fs gs : List (String × Json)} {vs ws : List Json} {k : String}
  {v w : Json}

theorem wfItems_iff : WfItems vs ↔ ∀ v ∈ vs, v.Wf := by
  induction vs with
  | nil => simp [WfItems]
  | cons v vs ih => rw [WfItems, ih, List.forall_mem_cons]

theorem wfFields_iff : WfFields fs ↔ ∀ e ∈ fs, e.2.Wf := by
  induction fs with
  | nil => simp [WfFields]
  | cons e fs ih => rw [WfFields, ih, List.forall_mem_cons]

theorem wf_obj : (obj fs).Wf ↔ (fs.map Prod.fst).Nodup ∧ ∀ e ∈ fs, e.2.Wf := by
  rw [Wf, wfFields_iff]

theorem wf_arr : (arr vs).Wf ↔ ∀ v ∈ vs, v.Wf := by rw [Wf, wfItems_iff]

theorem agreeItems_iff : AgreeItems drop vs ws ↔ List.Forall₂ (Agree drop) vs ws := by
  induction vs generalizing ws with
  | nil =>
    cases ws with
    | nil => simp [AgreeItems]
    | cons w ws => simp [AgreeItems]
  | cons v vs ih =>
    cases ws with
    | nil => simp [AgreeItems]
    | cons w ws => rw [AgreeItems, ih, List.forall₂_cons]

theorem agreeFields_iff : AgreeFields drop fs gs ↔
    ∀ k v, (k, v) ∈ fs → drop k = false → ∃ w, (k, w) ∈ gs ∧ Agree drop v w := by
  induction fs with
  | nil => simp [AgreeFields]
  | cons e fs ih =>
    obtain ⟨k, v⟩ := e
    rw [AgreeFields, ih]
    constructor
    · rintro ⟨hhead, hrest⟩ k' v' hmem hkeep
      obtain heq | hmem := List.mem_cons.mp hmem
      · rw [Prod.mk.injEq] at heq
        obtain ⟨rfl, rfl⟩ := heq
        exact hhead.resolve_left (by rw [hkeep]; simp)
      · exact hrest k' v' hmem hkeep
    · intro h
      refine ⟨?_, fun k' v' hmem => h k' v' (List.mem_cons_of_mem _ hmem)⟩
      cases hdrop : drop k with
      | true => exact .inl rfl
      | false => exact .inr (h k v List.mem_cons_self hdrop)

/-- Two objects agree when each member of one is found in the other. -/
theorem agree_obj : Agree drop (obj fs) (obj gs) ↔
    (∀ k v, (k, v) ∈ fs → drop k = false → ∃ w, (k, w) ∈ gs ∧ Agree drop v w) ∧
      ∀ k ∈ gs.map Prod.fst, drop k = false → k ∈ fs.map Prod.fst := by
  rw [Agree, agreeFields_iff]

/-! ## Agreement is an equivalence -/

mutual

theorem Agree.trans : ∀ {a b c : Json}, Agree drop a b → Agree drop b c → Agree drop a c
  | .null, b, c, hab, hbc => by
    cases b <;> cases c <;> simp_all [Agree]
  | .bool x, b, c, hab, hbc => by
    cases b <;> cases c <;> simp_all [Agree]
  | .num n, b, c, hab, hbc => by
    cases b <;> cases c <;> simp_all [Agree]
  | .str s, b, c, hab, hbc => by
    cases b <;> cases c <;> simp_all [Agree]
  | .arr vs, b, c, hab, hbc => by
    cases b with
    | arr ws =>
      cases c with
      | arr us => exact AgreeItems.trans hab hbc
      | _ => simp [Agree] at hbc
    | _ => simp [Agree] at hab
  | .obj fs, b, c, hab, hbc => by
    cases b with
    | obj gs =>
      cases c with
      | obj hs =>
        have hgs := agree_obj.mp hbc
        refine ⟨AgreeFields.trans hab.1 hgs.1, fun k hk hkeep => ?_⟩
        exact hab.2 k (hgs.2 k hk hkeep) hkeep
      | _ => simp [Agree] at hbc
    | _ => simp [Agree] at hab

theorem AgreeItems.trans : ∀ {vs ws us : List Json}, AgreeItems drop vs ws →
    AgreeItems drop ws us → AgreeItems drop vs us
  | [], ws, us, hab, hbc => by
    cases ws <;> cases us <;> simp_all [AgreeItems]
  | v :: vs, ws, us, hab, hbc => by
    cases ws with
    | nil => simp [AgreeItems] at hab
    | cons w ws =>
      cases us with
      | nil => simp [AgreeItems] at hbc
      | cons u us => exact ⟨Agree.trans hab.1 hbc.1, AgreeItems.trans hab.2 hbc.2⟩

theorem AgreeFields.trans : ∀ {fs gs hs : List (String × Json)}, AgreeFields drop fs gs →
    (∀ k w, (k, w) ∈ gs → drop k = false → ∃ x, (k, x) ∈ hs ∧ Agree drop w x) →
      AgreeFields drop fs hs
  | [], _, _, _, _ => trivial
  | (k, v) :: fs, gs, hs, hab, hbc => by
    refine ⟨?_, AgreeFields.trans hab.2 hbc⟩
    cases hdrop : drop k with
    | true => exact .inl rfl
    | false =>
      obtain ⟨w, hw, hvw⟩ := hab.1.resolve_left (by rw [hdrop]; simp)
      obtain ⟨x, hx, hwx⟩ := hbc k w hw hdrop
      exact .inr ⟨x, hx, Agree.trans hvw hwx⟩

end

mutual

theorem Agree.symm : ∀ {a b : Json}, Agree drop a b → b.Wf → Agree drop b a
  | .null, b, hab, _ => by
    cases b <;> simp_all [Agree]
  | .bool x, b, hab, _ => by
    cases b <;> simp_all [Agree]
  | .num n, b, hab, _ => by
    cases b <;> simp_all [Agree]
  | .str s, b, hab, _ => by
    cases b <;> simp_all [Agree]
  | .arr vs, b, hab, hb => by
    cases b with
    | arr ws => exact AgreeItems.symm hab (wf_arr.mp hb)
    | _ => simp [Agree] at hab
  | .obj fs, b, hab, hb => by
    cases b with
    | obj gs =>
      obtain ⟨hgs, hgwf⟩ := wf_obj.mp hb
      have hback := AgreeFields.symm hab.1 hgwf
      refine agree_obj.mpr ⟨fun k w hw hkeep => ?_, fun k hk hkeep => ?_⟩
      · obtain ⟨⟨l, v⟩, hv, rfl⟩ := List.mem_map.mp (hab.2 k (List.mem_map_of_mem hw) hkeep)
        obtain ⟨w', hw', hagree⟩ := hback l v hv hkeep
        have heq := List.inj_on_of_nodup_map hgs hw hw' rfl
        rw [Prod.mk.injEq] at heq
        exact ⟨v, hv, heq.2 ▸ hagree⟩
      · obtain ⟨⟨l, v⟩, hv, rfl⟩ := List.mem_map.mp hk
        obtain ⟨w, hw, -⟩ := hback l v hv hkeep
        exact List.mem_map.mpr ⟨(l, w), hw, rfl⟩
    | _ => simp [Agree] at hab

theorem AgreeItems.symm : ∀ {vs ws : List Json}, AgreeItems drop vs ws → (∀ w ∈ ws, w.Wf) →
    AgreeItems drop ws vs
  | [], ws, hab, _ => by
    cases ws <;> simp_all [AgreeItems]
  | v :: vs, ws, hab, hws => by
    cases ws with
    | nil => simp [AgreeItems] at hab
    | cons w ws =>
      exact ⟨Agree.symm hab.1 (hws w List.mem_cons_self),
        AgreeItems.symm hab.2 fun x hx => hws x (List.mem_cons_of_mem _ hx)⟩

theorem AgreeFields.symm : ∀ {fs gs : List (String × Json)}, AgreeFields drop fs gs →
    (∀ e ∈ gs, e.2.Wf) → ∀ k v, (k, v) ∈ fs → drop k = false → ∃ w, (k, w) ∈ gs ∧ Agree drop w v
  | [], _, _, _, _, _, hv, _ => absurd hv List.not_mem_nil
  | (l, x) :: fs, gs, hab, hgwf, k, v, hv, hkeep => by
    obtain heq | hmem := List.mem_cons.mp hv
    · rw [Prod.mk.injEq] at heq
      obtain ⟨rfl, rfl⟩ := heq
      obtain ⟨w, hw, hvw⟩ := hab.1.resolve_left (by rw [hkeep]; simp)
      exact ⟨w, hw, Agree.symm hvw (hgwf _ hw)⟩
    · exact AgreeFields.symm hab.2 hgwf k v hmem hkeep

end

/-! ## The order of keys -/

theorem utf16_injective : Function.Injective utf16 := by
  have hunits : ∀ (c d : Char) (l m : List ℕ),
      (if c.toNat < 0x10000 then [c.toNat]
        else [0xD800 + (c.toNat - 0x10000) / 0x400, 0xDC00 + (c.toNat - 0x10000) % 0x400]) ++ l
      = (if d.toNat < 0x10000 then [d.toNat]
        else [0xD800 + (d.toNat - 0x10000) / 0x400, 0xDC00 + (d.toNat - 0x10000) % 0x400]) ++ m →
      c = d ∧ l = m := by
    intro c d l m h
    have hc : c.toNat < 0xD800 ∨ 0xDFFF < c.toNat ∧ c.toNat < 0x110000 := c.valid
    have hd : d.toNat < 0xD800 ∨ 0xDFFF < d.toNat ∧ d.toNat < 0x110000 := d.valid
    split_ifs at h with h1 h2 h2
    · obtain ⟨heq, hrest⟩ := List.cons.inj h
      exact ⟨Char.toNat_inj.mp heq, hrest⟩
    · -- a surrogate is not a character
      have := (List.cons.inj h).1
      omega
    · have := (List.cons.inj h).1
      omega
    · obtain ⟨hhigh, hrest⟩ := List.cons.inj h
      obtain ⟨hlow, hrest⟩ := List.cons.inj hrest
      exact ⟨Char.toNat_inj.mp (by omega), hrest⟩
  have key : ∀ cs ds : List Char, utf16 (String.ofList cs) = utf16 (String.ofList ds) → cs = ds := by
    intro cs
    induction cs with
    | nil =>
      intro ds h
      cases ds with
      | nil => rfl
      | cons d ds =>
        unfold utf16 at h
        rw [String.toList_ofList, String.toList_ofList, List.flatMap_nil, List.flatMap_cons] at h
        split_ifs at h <;> simp at h
    | cons c cs ih =>
      intro ds h
      cases ds with
      | nil =>
        unfold utf16 at h
        rw [String.toList_ofList, String.toList_ofList, List.flatMap_nil, List.flatMap_cons] at h
        split_ifs at h <;> simp at h
      | cons d ds =>
        unfold utf16 at h ih
        simp only [String.toList_ofList, List.flatMap_cons] at h ih
        obtain ⟨hcd, hrest⟩ := hunits _ _ _ _ h
        rw [hcd, ih ds hrest]
  intro s t h
  rw [← String.ofList_toList (s := s), ← String.ofList_toList (s := t)] at h
  exact String.toList_inj.mp (key _ _ h)

theorem toList_of_arrayIndex? {n : ℕ} (h : arrayIndex? k = some n) :
    k.toList = Nat.toDigits 10 n := by
  unfold arrayIndex? at h
  split_ifs at h with hk
  rw [← Option.some.inj h]
  exact hk.2.1

theorem keyRank_injective : Function.Injective keyRank := by
  intro k l h
  unfold keyRank at h
  cases hk : arrayIndex? k with
  | some m =>
    cases hl : arrayIndex? l with
    | some n =>
      rw [hk, hl] at h
      simp only [List.cons.injEq, true_and, and_true] at h
      subst h
      exact String.toList_inj.mp ((toList_of_arrayIndex? hk).trans (toList_of_arrayIndex? hl).symm)
    | none =>
      rw [hk, hl] at h
      simp at h
  | none =>
    cases hl : arrayIndex? l with
    | some n =>
      rw [hk, hl] at h
      simp at h
    | none =>
      rw [hk, hl] at h
      exact utf16_injective (List.cons.inj h).2

/-- Sorting forgets the order of members under different keys, and nothing else. -/
theorem insertionSort_keyLe_eq_iff (hfs : (fs.map Prod.fst).Nodup) :
    fs.insertionSort keyLe = gs.insertionSort keyLe ↔ fs.Perm gs := by
  constructor
  · intro h
    have hperm := List.perm_insertionSort keyLe fs
    rw [h] at hperm
    exact hperm.symm.trans (List.perm_insertionSort keyLe gs)
  · intro h
    refine StableSort.insertionSort_eq_of_perm ⟨fun a _ b _ => ?_, fun a _ b _ c _ => ?_⟩
      (fun a ha b hb hab hba => ?_) h
    · exact le_total (keyRank a.1) (keyRank b.1)
    · exact le_trans
    · exact List.inj_on_of_nodup_map hfs ha hb (keyRank_injective (le_antisymm hab hba))

/-! ## Sorting and agreement -/

/-- The members of a sorted copy, before they are sorted. -/
def kept (fs : List (String × Json)) : List (String × Json) :=
  (sortFields fs).filter (fun e => decide (e.1 ≠ "__proto__"))

theorem mem_kept {x : Json} :
    (k, x) ∈ kept fs ↔ k ≠ "__proto__" ∧ ∃ v, (k, v) ∈ fs ∧ v.sortValue = x := by
  unfold kept
  rw [List.mem_filter, sortFields_eq_map, List.mem_map, decide_eq_true_eq, and_comm]
  refine and_congr_right fun _ => ⟨?_, ?_⟩
  · rintro ⟨⟨l, v⟩, hmem, heq⟩
    rw [Prod.mk.injEq] at heq
    obtain ⟨rfl, rfl⟩ := heq
    exact ⟨v, hmem, rfl⟩
  · rintro ⟨v, hmem, rfl⟩
    exact ⟨(k, v), hmem, rfl⟩

theorem nodup_kept (hfs : (fs.map Prod.fst).Nodup) : ((kept fs).map Prod.fst).Nodup := by
  have hsub : ((kept fs).map Prod.fst).Sublist (fs.map Prod.fst) := by
    have hkeys : (sortFields fs).map Prod.fst = fs.map Prod.fst := by
      rw [sortFields_eq_map, List.map_map]
      rfl
    rw [← hkeys]
    exact List.filter_sublist.map Prod.fst
  exact hfs.sublist hsub

/-- Two objects sort to the same value when they keep the same members. -/
theorem sortValue_obj_eq_iff (hfs : (fs.map Prod.fst).Nodup) (hgs : (gs.map Prod.fst).Nodup) :
    (obj fs).sortValue = (obj gs).sortValue ↔ ∀ e, e ∈ kept fs ↔ e ∈ kept gs := by
  rw [sortValue, sortValue, obj.injEq]
  show (kept fs).insertionSort keyLe = (kept gs).insertionSort keyLe ↔ _
  rw [insertionSort_keyLe_eq_iff (nodup_kept hfs),
    List.perm_ext_iff_of_nodup (nodup_kept hfs).of_map (nodup_kept hgs).of_map]

theorem eq_of_mem (hfs : (fs.map Prod.fst).Nodup) (hv : (k, v) ∈ fs) (hw : (k, w) ∈ fs) :
    v = w := congrArg Prod.snd (List.inj_on_of_nodup_map hfs hv hw rfl)

/-- Two objects sort to the same value when their members do, apart from `__proto__`. -/
theorem sortValue_obj_eq_iff_agree (hfs : (fs.map Prod.fst).Nodup) (hgs : (gs.map Prod.fst).Nodup)
    (ih : ∀ k v w, (k, v) ∈ fs → (k, w) ∈ gs → (v.sortValue = w.sortValue ↔ v.SameButProto w)) :
    (obj fs).sortValue = (obj gs).sortValue ↔ (obj fs).SameButProto (obj gs) := by
  unfold SameButProto at ih ⊢
  rw [sortValue_obj_eq_iff hfs hgs, agree_obj]
  simp only [decide_eq_false_iff_not]
  constructor
  · intro h
    refine ⟨fun k v hv hk => ?_, fun k hkey hk => ?_⟩
    · obtain ⟨-, w, hw, heq⟩ := mem_kept.mp ((h _).mp (mem_kept.mpr ⟨hk, v, hv, rfl⟩))
      exact ⟨w, hw, (ih k v w hv hw).mp heq.symm⟩
    · obtain ⟨⟨l, w⟩, hw, rfl⟩ := List.mem_map.mp hkey
      obtain ⟨-, v, hv, -⟩ := mem_kept.mp ((h _).mpr (mem_kept.mpr ⟨hk, w, hw, rfl⟩))
      exact List.mem_map.mpr ⟨(l, v), hv, rfl⟩
  · rintro ⟨hmembers, hkeys⟩ ⟨k, x⟩
    rw [mem_kept, mem_kept]
    refine and_congr_right fun hk => ⟨?_, ?_⟩
    · rintro ⟨v, hv, rfl⟩
      obtain ⟨w, hw, hagree⟩ := hmembers k v hv hk
      exact ⟨w, hw, ((ih k v w hv hw).mpr hagree).symm⟩
    · rintro ⟨w, hw, rfl⟩
      obtain ⟨⟨l, v⟩, hv, hl⟩ := List.mem_map.mp (hkeys k (List.mem_map_of_mem hw) hk)
      simp only at hl
      subst hl
      obtain ⟨w', hw', hagree⟩ := hmembers l v hv hk
      obtain rfl := eq_of_mem hgs hw hw'
      exact ⟨v, hv, (ih l v w hv hw).mpr hagree⟩

mutual

/-- Two values sort to the same one when they agree up to `__proto__`. -/
theorem sortValue_eq_iff : ∀ (a b : Json), a.Wf → b.Wf →
    (a.sortValue = b.sortValue ↔ a.SameButProto b)
  | .null, b, _, _ => by
    cases b <;> simp [SameButProto, Agree, sortValue]
  | .bool x, b, _, _ => by
    cases b <;> simp [SameButProto, Agree, sortValue]
  | .num n, b, _, _ => by
    cases b <;> simp [SameButProto, Agree, sortValue]
  | .str s, b, _, _ => by
    cases b <;> simp [SameButProto, Agree, sortValue]
  | .arr vs, b, ha, hb => by
    cases b with
    | arr ws =>
      rw [sortValue, sortValue, arr.injEq, SameButProto, Agree, agreeItems_iff]
      exact sortItems_eq_iff vs ws (wf_arr.mp ha) (wf_arr.mp hb)
    | _ => simp [SameButProto, Agree, sortValue]
  | .obj fs, b, ha, hb => by
    cases b with
    | obj gs =>
      obtain ⟨hfs, hfwf⟩ := wf_obj.mp ha
      obtain ⟨hgs, hgwf⟩ := wf_obj.mp hb
      exact sortValue_obj_eq_iff_agree hfs hgs fun k v w hv hw =>
        sortField_eq_iff fs k v hv w (hfwf _ hv) (hgwf _ hw)
    | _ => simp [SameButProto, Agree, sortValue]

theorem sortItems_eq_iff : ∀ (vs ws : List Json), (∀ v ∈ vs, v.Wf) → (∀ w ∈ ws, w.Wf) →
    (sortItems vs = sortItems ws ↔ List.Forall₂ SameButProto vs ws)
  | [], ws, _, _ => by
    cases ws <;> simp [sortItems]
  | v :: vs, [], _, _ => by simp [sortItems]
  | v :: vs, w :: ws, hvs, hws => by
    rw [sortItems, sortItems, List.cons.injEq, List.forall₂_cons,
      sortValue_eq_iff v w (hvs v List.mem_cons_self) (hws w List.mem_cons_self),
      sortItems_eq_iff vs ws (fun x hx => hvs x (List.mem_cons_of_mem _ hx))
        fun x hx => hws x (List.mem_cons_of_mem _ hx)]

theorem sortField_eq_iff : ∀ (fs : List (String × Json)) (k : String) (v : Json), (k, v) ∈ fs →
    ∀ w : Json, v.Wf → w.Wf → (v.sortValue = w.sortValue ↔ v.SameButProto w)
  | [], _, _, hv, _, _, _ => absurd hv List.not_mem_nil
  | (l, x) :: fs, k, v, hv, w, hvwf, hwwf => by
    obtain heq | hmem := List.mem_cons.mp hv
    · rw [Prod.mk.injEq] at heq
      obtain ⟨rfl, rfl⟩ := heq
      exact sortValue_eq_iff v w hvwf hwwf
    · exact sortField_eq_iff fs k v hmem w hvwf hwwf

end

/-! ## Equal up to the order of keys -/

variable {a b : Json}

theorem mem_of_get? (h : (obj fs).get? k = some v) : (k, v) ∈ fs := by
  obtain ⟨e, he, rfl⟩ := Option.map_eq_some_iff.mp h
  have hk := List.find?_some he
  rw [decide_eq_true_eq] at hk
  subst hk
  exact List.mem_of_find?_eq_some he

theorem get?_of_mem (hfs : (fs.map Prod.fst).Nodup) (h : (k, v) ∈ fs) :
    (obj fs).get? k = some v := by
  show (fs.find? (fun f => decide (f.1 = k))).map Prod.snd = some v
  rw [OrderedMap.find?_of_mem hfs h]
  rfl

/-- The values under a key agree. -/
theorem Same.get? (h : a.Same b) (ha : a.Wf) (hb : b.Wf) (k : String) :
    Option.Rel (fun v w => v.Same w ∧ v.Wf ∧ w.Wf) (a.get? k) (b.get? k) := by
  unfold Same at h ⊢
  cases a with
  | obj fs =>
    cases b with
    | obj gs =>
      rw [agree_obj] at h
      obtain ⟨hmembers, hkeys⟩ := h
      obtain ⟨hfs, hfwf⟩ := wf_obj.mp ha
      obtain ⟨hgs, hgwf⟩ := wf_obj.mp hb
      cases hget : (obj fs).get? k with
      | some v =>
        have hv := mem_of_get? hget
        obtain ⟨w, hw, hagree⟩ := hmembers k v hv rfl
        rw [get?_of_mem hgs hw]
        exact .some ⟨hagree, hfwf _ hv, hgwf _ hw⟩
      | none =>
        cases hget' : (obj gs).get? k with
        | none => exact .none
        | some w =>
          have hkey := hkeys k (List.mem_map.mpr ⟨(k, w), mem_of_get? hget', rfl⟩) rfl
          obtain ⟨⟨l, v⟩, hv, rfl⟩ := List.mem_map.mp hkey
          rw [get?_of_mem hfs hv] at hget
          simp at hget
    | _ => simp [Agree] at h
  | _ => cases b <;> first | exact .none | simp [Agree] at h

/-- What a member is read as, when what its value is read as depends on no order of keys. -/
theorem Same.get?_bind {α : Type} {f : Json → Option α} (h : a.Same b) (ha : a.Wf) (hb : b.Wf)
    (hf : ∀ v w, v.Same w → v.Wf → w.Wf → f v = f w) (k : String) :
    (a.get? k).bind f = (b.get? k).bind f := by
  have hget := h.get? ha hb k
  generalize a.get? k = v, b.get? k = w at hget ⊢
  cases hget with
  | none => rfl
  | some hvw => exact hf _ _ hvw.1 hvw.2.1 hvw.2.2

theorem Same.asString? (h : a.Same b) : a.asString? = b.asString? := by
  unfold Same at h
  cases a <;> cases b <;> simp_all [Agree, Json.asString?]

theorem Same.asNat? (h : a.Same b) (max : ℕ) : a.asNat? max = b.asNat? max := by
  unfold Same at h
  cases a <;> cases b <;> simp_all [Agree, Json.asNat?]

theorem Same.string? (h : a.Same b) (ha : a.Wf) (hb : b.Wf) (k : String) :
    a.string? k = b.string? k := h.get?_bind ha hb (fun _ _ hvw _ _ => hvw.asString?) k

/-- Neither is an object, or both are, with the same keys in some order. -/
theorem Same.keys (h : a.Same b) (ha : a.Wf) (hb : b.Wf) :
    Option.Rel List.Perm a.keys? b.keys? := by
  unfold Same at h
  cases a with
  | obj fs =>
    cases b with
    | obj gs =>
      rw [agree_obj] at h
      refine .some ((List.perm_ext_iff_of_nodup (wf_obj.mp ha).1 (wf_obj.mp hb).1).mpr fun k => ?_)
      refine ⟨fun hk => ?_, fun hk => h.2 k hk rfl⟩
      obtain ⟨⟨l, v⟩, hv, rfl⟩ := List.mem_map.mp hk
      obtain ⟨w, hw, -⟩ := h.1 l v hv rfl
      exact List.mem_map.mpr ⟨(l, w), hw, rfl⟩
    | _ => simp [Agree] at h
  | _ => cases b <;> first | exact .none | simp [Agree] at h

theorem Same.exact (h : a.Same b) (ha : a.Wf) (hb : b.Wf) (required optional : List String) :
    a.exact required optional = b.exact required optional := by
  unfold Json.exact
  have hkeys := h.keys ha hb
  generalize a.keys? = ks, b.keys? = ls at hkeys ⊢
  cases hkeys with
  | none => rfl
  | @some ks ls hperm =>
    have hmem : ∀ k, decide (k ∈ ks) = decide (k ∈ ls) := fun k =>
      decide_eq_decide.mpr hperm.mem_iff
    have hall : ∀ p : String → Bool, ks.all p = ls.all p := fun p => by
      rw [Bool.eq_iff_iff, List.all_eq_true, List.all_eq_true]
      exact forall_congr' fun k => by rw [hperm.mem_iff]
    simp only [hmem, hall]

theorem joinedKeys_perm {ks ls : List String} (h : ks.Perm ls) : joinedKeys ks = joinedKeys ls := by
  unfold joinedKeys
  rw [StableSort.insertionSort_eq_of_perm ⟨fun a _ b _ => le_total a b, fun a _ b _ c _ => le_trans⟩
    (fun a _ b _ => le_antisymm) h]

end Json

/-- Two values have the same canonical text exactly when they agree up to the order of object keys
and up to members under `__proto__`. -/
theorem canonicalize_eq_iff {a b : Json} (ha : a.Wf) (hb : b.Wf) :
    canonicalize a = canonicalize b ↔ a.SameButProto b := by
  rw [← Json.sortValue_eq_iff a b ha hb]
  exact ⟨fun h => Json.stringify_injective h, fun h => congrArg Json.stringify h⟩

end Gavl
