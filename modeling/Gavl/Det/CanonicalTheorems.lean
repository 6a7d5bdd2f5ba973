import Gavl.Det.Canonical

/-!
# The canonical text determines the value

Every piece of the JSON text can be split off the front of a longer text in one way only, so
`canonicalize` is injective up to what `sortValue` forgets: the order of object keys, and the
key `__proto__`. With a collision-free hash the id of an encoded value binds its fields.
-/

namespace Gavl

/-! ## Bytes and hex -/

theorem utf8_injective : Function.Injective utf8 := by
  intro l m h
  have henc : ∀ cs : List Char, (String.ofList cs).toByteArray = (utf8 cs).toByteArray :=
    fun cs => rfl
  have hbytes : (String.ofList l).toByteArray = (String.ofList m).toByteArray := by
    rw [henc, henc, h]
  exact String.ofList_injective (String.toByteArray_inj.mp hbytes)

theorem hexDigit?_hexChar {n : ℕ} (hn : n < 16) : hexDigit? (hexChar n) = some n := by
  have hall : ∀ n : Fin 16, hexDigit? (hexChar n) = some n.val := by decide
  exact hall ⟨n, hn⟩

theorem hexChar_inj {m n : ℕ} (hm : m < 16) (hn : n < 16) (h : hexChar m = hexChar n) : m = n := by
  have hd := congrArg hexDigit? h
  rw [hexDigit?_hexChar hm, hexDigit?_hexChar hn] at hd
  exact Option.some.inj hd

theorem toHex_injective : Function.Injective toHex := by
  intro x y h
  have hl : x.flatMap hexByte = y.flatMap hexByte := String.ofList_injective h
  clear h
  induction x generalizing y with
  | nil =>
    cases y with
    | nil => rfl
    | cons b y => simp [hexByte] at hl
  | cons a x ih =>
    cases y with
    | nil => simp [hexByte] at hl
    | cons b y =>
      simp only [List.flatMap_cons, hexByte, List.cons_append, List.nil_append,
        List.cons.injEq] at hl
      obtain ⟨h1, h2, h3⟩ := hl
      have ha := a.toNat_lt
      have hb := b.toNat_lt
      have hhi := hexChar_inj (by omega) (by omega) h1
      have hlo := hexChar_inj (by omega) (by omega) h2
      have hab : a = b := UInt8.toNat_inj.mp (by omega)
      rw [hab, ih h3]

theorem fromHex_toHex (b : Bytes) : fromHex (toHex b) = b := by
  unfold fromHex toHex
  rw [String.toList_ofList]
  induction b with
  | nil => rfl
  | cons x b ih =>
    have hx := x.toNat_lt
    have hhi : hexDigit? (hexChar (x.toNat / 16)) = some (x.toNat / 16) :=
      hexDigit?_hexChar (by omega)
    have hlo : hexDigit? (hexChar (x.toNat % 16)) = some (x.toNat % 16) :=
      hexDigit?_hexChar (by omega)
    have hbyte : UInt8.ofNat (16 * (x.toNat / 16) + x.toNat % 16) = x := by
      apply UInt8.toNat_inj.mp
      rw [UInt8.toNat_ofNat']
      omega
    rw [List.flatMap_cons, hexByte, List.cons_append, List.cons_append, List.nil_append,
      fromHexChars, hhi, hlo, ih]
    show UInt8.ofNat (16 * (x.toNat / 16) + x.toNat % 16) :: b = x :: b
    rw [hbyte]

theorem toHex_ne_empty {b : Bytes} (h : b ≠ []) : toHex b ≠ "" := by
  intro he
  exact h (toHex_injective (he.trans rfl))

theorem hexDigits_toNat? : ∀ (l : List Char), (∀ c ∈ l, (hexDigit? c).isSome) → ∀ acc : ℕ,
    ∃ n, l.foldl (fun acc c => do return 16 * (← acc) + (← hexDigit? c)) (some acc) = some n
  | [], _, acc => ⟨acc, rfl⟩
  | c :: l, h, acc => by
    obtain ⟨d, hd⟩ := Option.isSome_iff_exists.mp (h c List.mem_cons_self)
    have hstep : (do return 16 * (← some acc) + (← hexDigit? c) : Option ℕ) = some (16 * acc + d) := by
      rw [hd]
      rfl
    rw [List.foldl_cons, hstep]
    exact hexDigits_toNat? l (fun c hc => h c (List.mem_cons_of_mem _ hc)) _

/-- Encoded bytes can be read as a number. -/
theorem hexToNat?_toHex (b : Bytes) : ∃ n, hexToNat? (toHex b) = some n := by
  unfold hexToNat? toHex
  rw [String.toList_ofList]
  refine hexDigits_toNat? _ (fun c hc => ?_) 0
  obtain ⟨x, -, hx⟩ := List.mem_flatMap.mp hc
  have hlt := x.toNat_lt
  simp only [hexByte, List.mem_cons, List.not_mem_nil, or_false] at hx
  obtain rfl | rfl := hx
  · rw [hexDigit?_hexChar (by omega)]
    rfl
  · rw [hexDigit?_hexChar (by omega)]
    rfl

namespace Json

/-! ## String literals -/

/-- The character an escape stands for, read after its backslash, with the text after it. -/
def unescapeRest : List Char → Option (Char × List Char)
  | 'u' :: '0' :: '0' :: a :: b :: s =>
    match hexDigit? a, hexDigit? b with
    | some x, some y => some (Char.ofNat (16 * x + y), s)
    | _, _ => none
  | 'b' :: s => some (Char.ofNat 8, s)
  | 't' :: s => some (Char.ofNat 9, s)
  | 'n' :: s => some (Char.ofNat 10, s)
  | 'f' :: s => some (Char.ofNat 12, s)
  | 'r' :: s => some (Char.ofNat 13, s)
  | c :: s => some (c, s)
  | [] => none

/-- One character of a literal read back, with the text after it. -/
def unescape : List Char → Option (Char × List Char)
  | [] => none
  | c :: s => if c = '\\' then unescapeRest s else some (c, s)

theorem unescape_escapeChar (c : Char) (s : List Char) :
    unescape (escapeChar c ++ s) = some (c, s) := by
  unfold escapeChar
  split_ifs with h1 h2 h3 h4 h5 h6 h7 h8
  · rw [h1]; rfl
  · rw [h2]; rfl
  · rw [← Char.ofNat_toNat c, h3]; rfl
  · rw [← Char.ofNat_toNat c, h4]; rfl
  · rw [← Char.ofNat_toNat c, h5]; rfl
  · rw [← Char.ofNat_toNat c, h6]; rfl
  · rw [← Char.ofNat_toNat c, h7]; rfl
  · have hx := hexDigit?_hexChar (n := c.toNat / 16) (by omega)
    have hy := hexDigit?_hexChar (n := c.toNat % 16) (by omega)
    simp only [unicodeEscape, List.cons_append, List.nil_append, unescape, if_true, unescapeRest,
      hx, hy]
    have hsum : 16 * (c.toNat / 16) + c.toNat % 16 = c.toNat := by omega
    rw [hsum, Char.ofNat_toNat]
  · rw [List.singleton_append, unescape, if_neg h2]

theorem escapeChar_append_inj {c d : Char} {s t : List Char}
    (h : escapeChar c ++ s = escapeChar d ++ t) : c = d ∧ s = t := by
  have hu := congrArg unescape h
  rw [unescape_escapeChar, unescape_escapeChar, Option.some.injEq, Prod.mk.injEq] at hu
  exact hu

theorem escapeChar_head_ne {c : Char} {s t : List Char} : '"' :: s ≠ escapeChar c ++ t := by
  intro h
  have hu := congrArg unescape h
  rw [unescape_escapeChar, unescape, if_neg (by decide), Option.some.injEq, Prod.mk.injEq] at hu
  rw [← hu.1] at h
  exact absurd h (by simp [escapeChar])

/-- The characters of a literal end at the first quote that is not escaped. -/
theorem literal_append_inj {cs : List Char} : ∀ {ds s t : List Char},
    cs.flatMap escapeChar ++ '"' :: s = ds.flatMap escapeChar ++ '"' :: t → cs = ds ∧ s = t := by
  induction cs with
  | nil =>
    intro ds s t h
    cases ds with
    | nil => exact ⟨rfl, (List.cons.inj h).2⟩
    | cons d ds =>
      rw [List.flatMap_cons, List.append_assoc] at h
      exact absurd h escapeChar_head_ne
  | cons c cs ih =>
    intro ds s t h
    cases ds with
    | nil =>
      rw [List.flatMap_cons, List.append_assoc] at h
      exact absurd h.symm escapeChar_head_ne
    | cons d ds =>
      rw [List.flatMap_cons, List.flatMap_cons, List.append_assoc, List.append_assoc] at h
      obtain ⟨hcd, hrest⟩ := escapeChar_append_inj h
      obtain ⟨hcs, hst⟩ := ih hrest
      exact ⟨by rw [hcd, hcs], hst⟩

theorem quote_append_inj {k l : String} {s t : List Char} (h : quote k ++ s = quote l ++ t) :
    k = l ∧ s = t := by
  unfold quote at h
  simp only [List.cons_append, List.append_assoc, List.cons.injEq, true_and,
    List.nil_append] at h
  obtain ⟨hkl, hst⟩ := literal_append_inj h
  exact ⟨String.toList_inj.mp hkl, hst⟩

/-! ## Values -/

/-- The text does not begin with a character that could continue a number. -/
def Stops (s : List Char) : Prop := ∀ c rest, s = c :: rest → isNumberChar c = false

theorem stops_cons {c : Char} {s : List Char} (h : isNumberChar c = false) : Stops (c :: s) :=
  fun _ _ he => (List.cons.inj he).1 ▸ h

theorem stops_nil : Stops [] := fun _ _ he => absurd he (by simp)

/-- A number is the longest run of its characters. -/
theorem number_append_inj {m n : JsNum} {s t : List Char} (hs : Stops s) (ht : Stops t)
    (h : m.text ++ s = n.text ++ t) : m = n ∧ s = t := by
  have htake : ∀ (k : JsNum) (r : List Char), Stops r →
      (k.text ++ r).takeWhile isNumberChar = k.text := by
    intro k r hr
    have hall : ∀ c ∈ k.text, isNumberChar c = true := List.all_eq_true.mp k.wf.2
    rw [List.takeWhile_append_of_pos hall]
    cases r with
    | nil => simp
    | cons c r => rw [List.takeWhile_cons, hr c r rfl]; simp
  have htext : m.text = n.text := by
    rw [← htake m s hs, h, htake n t ht]
  refine ⟨by cases m; cases n; simp only at htext; subst htext; rfl, ?_⟩
  rw [htext] at h
  exact List.append_cancel_left h

/-- What the first character of a text says about its value. -/
def charTag (c : Char) : Char := if isNumberChar c then '0' else c

def tag : Json → Char
  | .null => 'n'
  | .bool true => 't'
  | .bool false => 'f'
  | .num _ => '0'
  | .str _ => '"'
  | .arr _ => '['
  | .obj _ => '{'

theorem stringify_head (v : Json) : ∃ c rest, v.stringify = c :: rest ∧ charTag c = v.tag := by
  cases v with
  | null => exact ⟨'n', _, rfl, by decide⟩
  | bool b =>
    cases b with
    | true => exact ⟨'t', _, rfl, by decide⟩
    | false => exact ⟨'f', _, rfl, by decide⟩
  | num n =>
    obtain ⟨hne, hall⟩ := n.wf
    cases htext : n.text with
    | nil => exact absurd htext hne
    | cons c rest =>
      rw [htext, List.all_cons, Bool.and_eq_true] at hall
      exact ⟨c, rest, by rw [stringify, htext], by rw [charTag, if_pos hall.1, tag]⟩
  | str s => exact ⟨'"', _, by rw [stringify, quote]; rfl, (by decide : charTag '"' = '"')⟩
  | arr items => exact ⟨'[', _, by rw [stringify]; rfl, (by decide : charTag '[' = '[')⟩
  | obj fields => exact ⟨'{', _, by rw [stringify]; rfl, (by decide : charTag '{' = '{')⟩

/-- Two texts that agree begin values of the same kind. -/
theorem tag_eq_of_append {a b : Json} {s t : List Char}
    (h : a.stringify ++ s = b.stringify ++ t) : a.tag = b.tag := by
  obtain ⟨c, r, hc, htag⟩ := stringify_head a
  obtain ⟨d, r', hd, htag'⟩ := stringify_head b
  rw [hc, hd, List.cons_append, List.cons_append] at h
  rw [← htag, ← htag', (List.cons.inj h).1]

theorem tag_ne_close (v : Json) : v.tag ≠ ']' ∧ v.tag ≠ '}' := by
  cases v with
  | bool b => cases b <;> simp [tag]
  | _ => simp [tag]

/-- No value's text begins with a closing bracket. -/
theorem stringify_head_ne {v : Json} {s t : List Char} : ']' :: s ≠ v.stringify ++ t := by
  intro h
  obtain ⟨d, r, hd, htag⟩ := stringify_head v
  rw [hd, List.cons_append] at h
  rw [← (List.cons.inj h).1] at htag
  exact (tag_ne_close v).1 htag.symm

theorem stringifyItems_cons (v : Json) (vs : List Json) :
    stringifyItems (v :: vs) = v.stringify ++ match vs with
      | [] => []
      | w :: ws => ',' :: stringifyItems (w :: ws) := by
  cases vs with
  | nil => rw [stringifyItems, List.append_nil]
  | cons w ws => rw [stringifyItems]

theorem stringifyFields_cons (k : String) (v : Json) (fs : List (String × Json)) :
    stringifyFields ((k, v) :: fs) = quote k ++ ':' :: (v.stringify ++ match fs with
      | [] => []
      | f :: fs => ',' :: stringifyFields (f :: fs)) := by
  cases fs with
  | nil => rw [stringifyFields, List.append_nil]
  | cons f fs => rw [stringifyFields]; simp only [List.append_assoc, List.cons_append]

/-- No member's text begins with a closing brace. -/
theorem quote_head_ne {k : String} {s t : List Char} : '}' :: s ≠ quote k ++ t := by
  intro h
  unfold quote at h
  rw [List.cons_append, List.cons_append] at h
  exact absurd (List.cons.inj h).1 (by decide)

theorem stops_close {s : List Char} : Stops (']' :: s) := stops_cons (by decide)

theorem stops_brace {s : List Char} : Stops ('}' :: s) := stops_cons (by decide)

theorem stops_comma {s : List Char} : Stops (',' :: s) := stops_cons (by decide)

mutual

/-- A value's text can be split off the front of a longer one in one way only. -/
theorem stringify_append_inj : ∀ (a b : Json) {s t : List Char}, Stops s → Stops t →
    a.stringify ++ s = b.stringify ++ t → a = b ∧ s = t
  | .null, b, s, t, hs, ht, h => by
    have htag := tag_eq_of_append h
    cases b with
    | null => exact ⟨rfl, List.append_cancel_left h⟩
    | bool b => cases b <;> exact absurd htag (by simp [tag])
    | _ => exact absurd htag (by simp [tag])
  | .bool x, b, s, t, hs, ht, h => by
    have htag := tag_eq_of_append h
    cases b with
    | bool y =>
      cases x <;> cases y
      · exact ⟨rfl, List.append_cancel_left h⟩
      · exact absurd htag (by simp [tag])
      · exact absurd htag (by simp [tag])
      · exact ⟨rfl, List.append_cancel_left h⟩
    | _ => cases x <;> exact absurd htag (by simp [tag])
  | .num m, b, s, t, hs, ht, h => by
    have htag := tag_eq_of_append h
    cases b with
    | num n =>
      rw [stringify, stringify] at h
      obtain ⟨rfl, hst⟩ := number_append_inj hs ht h
      exact ⟨rfl, hst⟩
    | bool b => cases b <;> exact absurd htag (by simp [tag])
    | _ => exact absurd htag (by simp [tag])
  | .str k, b, s, t, hs, ht, h => by
    have htag := tag_eq_of_append h
    cases b with
    | str l =>
      rw [stringify, stringify] at h
      obtain ⟨rfl, hst⟩ := quote_append_inj h
      exact ⟨rfl, hst⟩
    | bool b => cases b <;> exact absurd htag (by simp [tag])
    | _ => exact absurd htag (by simp [tag])
  | .arr as, b, s, t, hs, ht, h => by
    have htag := tag_eq_of_append h
    cases b with
    | arr bs =>
      rw [stringify, stringify, List.cons_append, List.cons_append, List.append_assoc,
        List.append_assoc] at h
      obtain ⟨rfl, hst⟩ := stringifyItems_append_inj as bs (List.cons.inj h).2
      exact ⟨rfl, hst⟩
    | bool b => cases b <;> exact absurd htag (by simp [tag])
    | _ => exact absurd htag (by simp [tag])
  | .obj fs, b, s, t, hs, ht, h => by
    have htag := tag_eq_of_append h
    cases b with
    | obj gs =>
      rw [stringify, stringify, List.cons_append, List.cons_append, List.append_assoc,
        List.append_assoc] at h
      obtain ⟨rfl, hst⟩ := stringifyFields_append_inj fs gs (List.cons.inj h).2
      exact ⟨rfl, hst⟩
    | bool b => cases b <;> exact absurd htag (by simp [tag])
    | _ => exact absurd htag (by simp [tag])

/-- The items of an array end at its bracket. -/
theorem stringifyItems_append_inj : ∀ (as bs : List Json) {s t : List Char},
    stringifyItems as ++ ']' :: s = stringifyItems bs ++ ']' :: t → as = bs ∧ s = t
  | [], [], s, t, h => ⟨rfl, (List.cons.inj h).2⟩
  | [], w :: ws, s, t, h => by
    rw [stringifyItems_cons, List.append_assoc] at h
    exact absurd h stringify_head_ne
  | v :: vs, [], s, t, h => by
    rw [stringifyItems_cons, List.append_assoc] at h
    exact absurd h.symm stringify_head_ne
  | [v], [w], s, t, h => by
    obtain ⟨rfl, hst⟩ := stringify_append_inj v w stops_close stops_close h
    exact ⟨rfl, (List.cons.inj hst).2⟩
  | [v], w :: w' :: ws, s, t, h => by
    rw [stringifyItems_cons w, List.append_assoc] at h
    obtain ⟨-, hst⟩ := stringify_append_inj v w stops_close stops_comma h
    exact absurd (List.cons.inj hst).1 (by decide)
  | v :: v' :: vs, [w], s, t, h => by
    rw [stringifyItems_cons v, List.append_assoc] at h
    obtain ⟨-, hst⟩ := stringify_append_inj v w stops_comma stops_close h
    exact absurd (List.cons.inj hst).1 (by decide)
  | v :: v' :: vs, w :: w' :: ws, s, t, h => by
    rw [stringifyItems_cons v, stringifyItems_cons w, List.append_assoc, List.append_assoc] at h
    obtain ⟨rfl, hst⟩ := stringify_append_inj v w stops_comma stops_comma h
    obtain ⟨hrest, hst⟩ := stringifyItems_append_inj (v' :: vs) (w' :: ws) (List.cons.inj hst).2
    exact ⟨by rw [hrest], hst⟩

/-- The members of an object end at its brace. -/
theorem stringifyFields_append_inj : ∀ (fs gs : List (String × Json)) {s t : List Char},
    stringifyFields fs ++ '}' :: s = stringifyFields gs ++ '}' :: t → fs = gs ∧ s = t
  | [], [], s, t, h => ⟨rfl, (List.cons.inj h).2⟩
  | [], (l, w) :: gs, s, t, h => by
    rw [stringifyFields_cons, List.append_assoc] at h
    exact absurd h quote_head_ne
  | (k, v) :: fs, [], s, t, h => by
    rw [stringifyFields_cons, List.append_assoc] at h
    exact absurd h.symm quote_head_ne
  | [(k, v)], [(l, w)], s, t, h => by
    rw [stringifyFields, stringifyFields, List.append_assoc, List.append_assoc] at h
    obtain ⟨rfl, hv⟩ := quote_append_inj h
    obtain ⟨rfl, hst⟩ := stringify_append_inj v w stops_brace stops_brace (List.cons.inj hv).2
    exact ⟨rfl, (List.cons.inj hst).2⟩
  | [(k, v)], (l, w) :: g :: gs, s, t, h => by
    rw [stringifyFields, stringifyFields_cons l, List.append_assoc, List.append_assoc] at h
    obtain ⟨rfl, hv⟩ := quote_append_inj h
    rw [List.cons_append, List.cons_append, List.append_assoc] at hv
    obtain ⟨-, hst⟩ := stringify_append_inj v w stops_brace stops_comma (List.cons.inj hv).2
    exact absurd (List.cons.inj hst).1 (by decide)
  | (k, v) :: f :: fs, [(l, w)], s, t, h => by
    rw [stringifyFields, stringifyFields_cons k, List.append_assoc, List.append_assoc] at h
    obtain ⟨rfl, hv⟩ := quote_append_inj h
    rw [List.cons_append, List.cons_append, List.append_assoc] at hv
    obtain ⟨-, hst⟩ := stringify_append_inj v w stops_comma stops_brace (List.cons.inj hv).2
    exact absurd (List.cons.inj hst).1 (by decide)
  | (k, v) :: f :: fs, (l, w) :: g :: gs, s, t, h => by
    rw [stringifyFields_cons k, stringifyFields_cons l, List.append_assoc, List.append_assoc] at h
    obtain ⟨rfl, hv⟩ := quote_append_inj h
    rw [List.cons_append, List.cons_append, List.append_assoc, List.append_assoc] at hv
    obtain ⟨rfl, hst⟩ := stringify_append_inj v w stops_comma stops_comma (List.cons.inj hv).2
    obtain ⟨hrest, hst⟩ := stringifyFields_append_inj (f :: fs) (g :: gs) (List.cons.inj hst).2
    exact ⟨by rw [hrest], hst⟩

end

/-- `JSON.stringify` is injective on values with ordered members. -/
theorem stringify_injective : Function.Injective stringify := fun a b h =>
  (stringify_append_inj a b stops_nil stops_nil (by rw [h])).1

/-! ## Sorting -/

theorem sortFields_eq_map (fs : List (String × Json)) :
    sortFields fs = fs.map (fun e => (e.1, e.2.sortValue)) := by
  induction fs with
  | nil => rw [sortFields, List.map_nil]
  | cons e fs ih => rw [sortFields, List.map_cons, ih]

theorem sortItems_eq_map (vs : List Json) : sortItems vs = vs.map sortValue := by
  induction vs with
  | nil => rw [sortItems, List.map_nil]
  | cons v vs ih => rw [sortItems, List.map_cons, ih]

/-- Two objects that sort to the same value have the same members, `__proto__` apart. -/
theorem mem_of_sortValue_eq {fs gs : List (String × Json)} {k : String} {v : Json}
    (h : (obj fs).sortValue = (obj gs).sortValue) (hk : k ≠ "__proto__") (hv : (k, v) ∈ fs) :
    ∃ w, (k, w) ∈ gs ∧ w.sortValue = v.sortValue := by
  rw [sortValue, sortValue, obj.injEq, sortFields_eq_map, sortFields_eq_map] at h
  have hperm := List.perm_insertionSort keyLe
    ((fs.map (fun e => (e.1, e.2.sortValue))).filter (fun e => decide (e.1 ≠ "__proto__")))
  rw [h] at hperm
  have hsame := hperm.symm.trans (List.perm_insertionSort keyLe _)
  have hmem : (k, v.sortValue) ∈ (fs.map (fun e => (e.1, e.2.sortValue))).filter
      (fun e => decide (e.1 ≠ "__proto__")) :=
    List.mem_filter.mpr ⟨List.mem_map.mpr ⟨(k, v), hv, rfl⟩, by simpa using hk⟩
  obtain ⟨hmap, -⟩ := List.mem_filter.mp (hsame.mem_iff.mp hmem)
  obtain ⟨⟨k', w⟩, hw, heq⟩ := List.mem_map.mp hmap
  rw [Prod.mk.injEq] at heq
  exact ⟨w, heq.1 ▸ hw, heq.2⟩

/-- A member of one of two equal objects, found in the other. -/
theorem member_eq {fs gs : List (String × Json)} {k : String} {v w : Json}
    (h : (obj fs).sortValue = (obj gs).sortValue) (hk : k ≠ "__proto__") (hv : (k, v) ∈ fs)
    (hgs : ∀ x, (k, x) ∈ gs → x = w) : w.sortValue = v.sortValue := by
  obtain ⟨x, hx, heq⟩ := mem_of_sortValue_eq h hk hv
  rw [← hgs x hx, heq]

@[simp] theorem sortValue_str (s : String) : (str s).sortValue = str s := by rw [sortValue]

@[simp] theorem sortValue_num (n : JsNum) : (num n).sortValue = num n := by rw [sortValue]

@[simp] theorem sortValue_null : Json.null.sortValue = .null := by rw [sortValue]

@[simp] theorem sortValue_nat (n : ℕ) : (nat n).sortValue = nat n := sortValue_num _

@[simp] theorem sortValue_decimal (n : ℕ) : (decimal n).sortValue = decimal n := sortValue_str _

@[simp] theorem sortValue_nullable (s : Option String) :
    (nullable s).sortValue = nullable s := by
  cases s with
  | none => exact sortValue_null
  | some s => exact sortValue_str s

theorem toDigits_injective : Function.Injective (Nat.toDigits 10) := by
  intro m n h
  have hd := congrArg (fun l => Nat.ofDigitChars 10 l 0) h
  simpa using hd

theorem nat_injective : Function.Injective nat := by
  intro m n h
  unfold nat JsNum.ofNat at h
  rw [num.injEq, JsNum.mk.injEq] at h
  exact toDigits_injective h

theorem decimal_injective : Function.Injective decimal := by
  intro m n h
  unfold decimal at h
  rw [str.injEq] at h
  exact toDigits_injective (String.ofList_injective h)

theorem nullable_injective : Function.Injective nullable := by
  intro a b h
  cases a <;> cases b <;> simp_all [nullable]

end Json

/-- Values with the same canonical bytes differ in the order of their keys at most. -/
theorem canonicalBytes_inj {a b : Json} (h : canonicalBytes a = canonicalBytes b) :
    a.sortValue = b.sortValue :=
  Json.stringify_injective (utf8_injective h)

/-- Under a collision-free hash the digest of a value binds it. -/
theorem sha256Hex_canonical_inj {C : Crypto} (hC : Function.Injective C.sha256) {a b : Json}
    (h : C.sha256Hex (canonicalBytes a) = C.sha256Hex (canonicalBytes b)) :
    a.sortValue = b.sortValue :=
  canonicalBytes_inj (hC (toHex_injective h))

end Gavl
