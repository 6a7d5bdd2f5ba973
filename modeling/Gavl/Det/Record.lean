import Gavl.Det.Agreement

/-!
# Objects as records

An object literal with its members in a fixed order, some of them `undefined`, against an object
that was parsed.
-/

namespace Gavl

namespace Json

/-- What reading a property gives: a value, or `undefined`. -/
abbrev Field := Option Json

/-- An object literal. Members that are `undefined` have no encoding. -/
def ofFields (fields : List (String × Field)) : Json :=
  .obj (fields.filterMap (fun e => e.2.map (fun v => (e.1, v))))

variable {drop : String → Bool} {fs gs : List (String × Json)} {l : List (String × Field)}
  {k : String} {v w : Json} {f g : Field}

/-! ## Agreement is reflexive -/

mutual

theorem Agree.refl : ∀ v : Json, Agree drop v v
  | .null => trivial
  | .bool _ => rfl
  | .num _ => rfl
  | .str _ => rfl
  | .arr vs => AgreeItems.refl vs
  | .obj fs => agree_obj.mpr ⟨fun k v hv _ => ⟨v, hv, AgreeFields.refl fs k v hv⟩, fun _ hk _ => hk⟩

theorem AgreeItems.refl : ∀ vs : List Json, AgreeItems drop vs vs
  | [] => trivial
  | v :: vs => ⟨Agree.refl v, AgreeItems.refl vs⟩

theorem AgreeFields.refl : ∀ (fs : List (String × Json)) (k : String) (v : Json), (k, v) ∈ fs →
    Agree drop v v
  | [], _, _, hv => absurd hv List.not_mem_nil
  | (l, x) :: fs, k, v, hv => by
    obtain heq | hmem := List.mem_cons.mp hv
    · rw [Prod.mk.injEq] at heq
      rw [heq.2]
      exact Agree.refl x
    · exact AgreeFields.refl fs k v hmem

end

theorem Agree.refl_field (f : Field) : Option.Rel (Agree drop) f f := by
  cases f with
  | none => exact .none
  | some v => exact .some (Agree.refl v)

/-! ## Literals -/

theorem mem_ofFields : (k, v) ∈ l.filterMap (fun e => e.2.map (fun v => (e.1, v))) ↔
    (k, some v) ∈ l := by
  rw [List.mem_filterMap]
  constructor
  · rintro ⟨⟨k', f⟩, hmem, heq⟩
    obtain ⟨x, rfl, hx⟩ := Option.map_eq_some_iff.mp heq
    rw [Prod.mk.injEq] at hx
    rw [← hx.1, ← hx.2]
    exact hmem
  · intro hmem
    exact ⟨(k, some v), hmem, rfl⟩

theorem keys_ofFields_sublist (l : List (String × Field)) :
    ((l.filterMap (fun e => e.2.map (fun v => (e.1, v)))).map Prod.fst).Sublist (l.map Prod.fst) := by
  induction l with
  | nil => exact List.Sublist.slnil
  | cons e l ih =>
    obtain ⟨k, f⟩ := e
    cases f with
    | none =>
      rw [List.filterMap_cons_none (by rfl)]
      exact ih.trans (List.sublist_cons_self _ _)
    | some v =>
      rw [List.filterMap_cons_some (by rfl)]
      exact ih.cons_cons k

theorem wf_ofFields (hl : (l.map Prod.fst).Nodup) (hwf : ∀ e ∈ l, ∀ v, e.2 = some v → v.Wf) :
    (ofFields l).Wf := by
  refine wf_obj.mpr ⟨hl.sublist (keys_ofFields_sublist l), ?_⟩
  rintro ⟨k, v⟩ hmem
  exact hwf _ (mem_ofFields.mp hmem) v rfl

/-- Reading back a member of a literal. -/
theorem get?_ofFields (hl : (l.map Prod.fst).Nodup) (hmem : (k, f) ∈ l) :
    (ofFields l).get? k = f := by
  have hfs := hl.sublist (keys_ofFields_sublist l)
  cases f with
  | some v => exact get?_of_mem hfs (mem_ofFields.mpr hmem)
  | none =>
    cases hget : (ofFields l).get? k with
    | none => rfl
    | some v =>
      have hv := mem_ofFields.mp (mem_of_get? hget)
      exact congrArg Prod.snd (List.inj_on_of_nodup_map hl hv hmem rfl)

/-- A literal agrees with an object that has its members, and none beside them. -/
theorem agree_ofFields (hl : (l.map Prod.fst).Nodup) (hkept : ∀ k ∈ l.map Prod.fst, drop k = false)
    (hv : v.Wf) : Agree drop (ofFields l) v ↔
      ∃ fs, v = .obj fs ∧ (∀ k ∈ fs.map Prod.fst, drop k = true ∨ k ∈ l.map Prod.fst) ∧
        ∀ e ∈ l, Option.Rel (Agree drop) e.2 (v.get? e.1) := by
  cases v with
  | obj fs =>
    have hfs := (wf_obj.mp hv).1
    unfold ofFields
    rw [agree_obj]
    constructor
    · rintro ⟨hmembers, hkeys⟩
      refine ⟨fs, rfl, fun k hk => ?_, fun e he => ?_⟩
      · cases hdrop : drop k with
        | true => exact Or.inl rfl
        | false => exact Or.inr ((keys_ofFields_sublist l).subset (hkeys k hk hdrop))
      · obtain ⟨k, f⟩ := e
        have hdrop : drop k = false := hkept k (List.mem_map_of_mem he)
        cases f with
        | some x =>
          obtain ⟨w, hw, hagree⟩ := hmembers k x (mem_ofFields.mpr he) hdrop
          rw [get?_of_mem hfs hw]
          exact .some hagree
        | none =>
          cases hget : (obj fs).get? k with
          | none => exact .none
          | some w =>
            have hkey : k ∈ fs.map Prod.fst := List.mem_map.mpr ⟨(k, w), mem_of_get? hget, rfl⟩
            obtain ⟨⟨k', x⟩, hx, hk'⟩ := List.mem_map.mp (hkeys k hkey hdrop)
            have heq := List.inj_on_of_nodup_map hl (mem_ofFields.mp hx) he hk'
            exact absurd (congrArg Prod.snd heq) (by simp)
    · rintro ⟨fs', heq, hkeys, hmembers⟩
      obtain rfl := obj.inj heq
      refine ⟨fun k x hx hdrop => ?_, fun k hk hdrop => ?_⟩
      · have hrel := hmembers (k, some x) (mem_ofFields.mp hx)
        cases hget : (obj fs).get? k with
        | none =>
          rw [hget] at hrel
          cases hrel
        | some w =>
          rw [hget] at hrel
          cases hrel with
          | some hagree => exact ⟨w, mem_of_get? hget, hagree⟩
      · have hk' : k ∈ l.map Prod.fst := (hkeys k hk).resolve_left (by rw [hdrop]; simp)
        obtain ⟨⟨k', f⟩, hf, rfl⟩ := List.mem_map.mp hk'
        obtain ⟨⟨k'', w⟩, hw, hkk⟩ := List.mem_map.mp hk
        simp only at hkk
        subst hkk
        have hrel := hmembers _ hf
        rw [get?_of_mem hfs hw] at hrel
        cases hrel with
        | @some x _ _ => exact List.mem_map.mpr ⟨(k'', x), mem_ofFields.mpr hf, rfl⟩
  | _ =>
    refine iff_of_false (fun h => ?_) fun ⟨fs, heq, _⟩ => absurd heq (by simp)
    simp [ofFields, Agree] at h

/-- The values under a key that is not dropped agree. -/
theorem Agree.get? (h : Agree drop v w) (hv : v.Wf) (hw : w.Wf) (hk : drop k = false) :
    Option.Rel (Agree drop) (v.get? k) (w.get? k) := by
  cases v with
  | obj fs =>
    cases w with
    | obj gs =>
      obtain ⟨hmembers, hkeys⟩ := agree_obj.mp h
      cases hget : (obj fs).get? k with
      | some x =>
        obtain ⟨y, hy, hagree⟩ := hmembers k x (mem_of_get? hget) hk
        rw [get?_of_mem (wf_obj.mp hw).1 hy]
        exact .some hagree
      | none =>
        cases hget' : (obj gs).get? k with
        | none => exact .none
        | some y =>
          have hkey := hkeys k (List.mem_map.mpr ⟨(k, y), mem_of_get? hget', rfl⟩) hk
          obtain ⟨⟨l, x⟩, hx, rfl⟩ := List.mem_map.mp hkey
          rw [get?_of_mem (wf_obj.mp hv).1 hx] at hget
          exact absurd hget (by simp)
    | _ => exact absurd h (by simp [Agree])
  | _ => cases w <;> first | exact .none | exact absurd h (by simp [Agree])

/-! ## Records -/

/-- An object with the members of the list, each of its type. -/
def Shaped (fields : List (String × (Json → Prop))) (v : Json) : Prop :=
  ∃ fs, v = .obj fs ∧ (fs.map Prod.fst).Perm (fields.map Prod.fst) ∧
    ∀ e ∈ fields, ∃ x, v.get? e.1 = some x ∧ e.2 x

/-- An object with no members but those of the list and dropped ones, which need not be there. -/
def Loose (drop : String → Bool) (fields : List (String × (Field → Prop))) (v : Json) : Prop :=
  ∃ fs, v = .obj fs ∧ (∀ k ∈ fs.map Prod.fst, drop k = true ∨ k ∈ fields.map Prod.fst) ∧
    ∀ e ∈ fields, e.2 (v.get? e.1)

theorem Loose.of_agree {shape : List (String × (Field → Prop))} (h : Loose drop shape v)
    (hagree : Agree drop v w) (hv : v.Wf) (hw : w.Wf) (hkept : ∀ e ∈ shape, drop e.1 = false)
    (hshape : ∀ e ∈ shape, Option.Rel (Agree drop) (v.get? e.1) (w.get? e.1) →
      e.2 (v.get? e.1) → e.2 (w.get? e.1)) : Loose drop shape w := by
  obtain ⟨fs, rfl, hkeys, hmembers⟩ := h
  cases w with
  | obj gs =>
    refine ⟨gs, rfl, fun k hk => ?_, fun e he => ?_⟩
    · cases hdrop : drop k with
      | true => exact Or.inl rfl
      | false =>
        refine Or.inr ((hkeys k ((agree_obj.mp hagree).2 k hk hdrop)).resolve_left ?_)
        rw [hdrop]
        simp
    · exact hshape e he (hagree.get? hv hw (hkept e he)) (hmembers e he)
  | _ => exact absurd hagree (by simp [Agree])

theorem Shaped.of_same {fields : List (String × (Json → Prop))} (h : Shaped fields w)
    (hsame : v.Same w) (hv : v.Wf) (hw : w.Wf)
    (hfields : ∀ e ∈ fields, ∀ x y : Json, x.Same y → x.Wf → y.Wf → e.2 y → e.2 x) :
    Shaped fields v := by
  obtain ⟨gs, rfl, hkeys, hmembers⟩ := h
  have hperm := hsame.keys hv hw
  cases v with
  | obj fs =>
    cases hperm with
    | some hfs =>
      refine ⟨fs, rfl, hfs.trans hkeys, fun e he => ?_⟩
      obtain ⟨y, hy, hey⟩ := hmembers e he
      have hrel := hsame.get? hv hw e.1
      rw [hy] at hrel
      cases hget : (obj fs).get? e.1 with
      | none =>
        rw [hget] at hrel
        cases hrel
      | some x =>
        rw [hget] at hrel
        cases hrel with
        | some hxy => exact ⟨x, rfl, hfields e he x y hxy.1 hxy.2.1 hxy.2.2 hey⟩
  | _ => cases hperm

theorem Shaped.wf {fields : List (String × (Json → Prop))} (h : Shaped fields v)
    (hnodup : (fields.map Prod.fst).Nodup) (hfields : ∀ e ∈ fields, ∀ x, e.2 x → x.Wf) : v.Wf := by
  obtain ⟨fs, rfl, hkeys, hmembers⟩ := h
  have hfs : (fs.map Prod.fst).Nodup := hkeys.nodup_iff.mpr hnodup
  refine wf_obj.mpr ⟨hfs, ?_⟩
  rintro ⟨k, x⟩ hx
  obtain ⟨e, he, rfl⟩ := List.mem_map.mp (hkeys.mem_iff.mp (List.mem_map_of_mem hx))
  obtain ⟨y, hy, hey⟩ := hmembers e he
  rw [get?_of_mem hfs hx] at hy
  rw [Option.some.inj hy]
  exact hfields e he y hey

/-- A record has nothing that a loose one may not have. -/
theorem Shaped.loose {fields : List (String × (Json → Prop))} {shape : List (String × (Field → Prop))}
    (h : Shaped fields v) (hshape : List.Forall₂ (fun e e' => e.1 = e'.1 ∧ ∀ x, e.2 x → e'.2 (some x))
      fields shape) : Loose drop shape v := by
  obtain ⟨fs, rfl, hkeys, hmembers⟩ := h
  have hsame : fields.map Prod.fst = shape.map Prod.fst := by
    clear hkeys hmembers
    induction hshape with
    | nil => rfl
    | cons hhead _ ih => rw [List.map_cons, List.map_cons, hhead.1, ih]
  refine ⟨fs, rfl, fun k hk => Or.inr (hsame ▸ hkeys.mem_iff.mp hk), ?_⟩
  clear hkeys hsame
  induction hshape with
  | nil => simp
  | cons hhead _ ih =>
    rw [List.forall_mem_cons] at hmembers ⊢
    obtain ⟨⟨x, hx, hex⟩, hrest⟩ := hmembers
    refine ⟨?_, ih hrest⟩
    rw [← hhead.1, hx]
    exact hhead.2 x hex

/-- A literal whose members are all there, each of its type. -/
theorem shaped_ofFields {fields : List (String × (Json → Prop))} (hl : (l.map Prod.fst).Nodup)
    (hkeys : l.map Prod.fst = fields.map Prod.fst)
    (hmembers : ∀ e ∈ fields, ∃ x, (e.1, some x) ∈ l ∧ e.2 x) : Shaped fields (ofFields l) := by
  refine ⟨_, rfl, ?_, fun e he => ?_⟩
  · have hfs := hl.sublist (keys_ofFields_sublist l)
    refine (List.perm_ext_iff_of_nodup hfs (hkeys ▸ hl)).mpr fun k => ⟨fun hk => ?_, fun hk => ?_⟩
    · exact hkeys ▸ (keys_ofFields_sublist l).subset hk
    · obtain ⟨e, he, rfl⟩ := List.mem_map.mp hk
      obtain ⟨x, hx, -⟩ := hmembers e he
      exact List.mem_map.mpr ⟨(e.1, x), mem_ofFields.mpr hx, rfl⟩
  · obtain ⟨x, hx, hex⟩ := hmembers e he
    exact ⟨x, get?_ofFields hl hx, hex⟩

end Json

end Gavl
