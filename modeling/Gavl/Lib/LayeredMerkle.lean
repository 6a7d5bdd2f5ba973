import Mathlib.Data.Nat.Bitwise
import Mathlib.Data.Set.Function
import Mathlib.Tactic

/-!
# Merkle trees built layer by layer

Neighbours are hashed together until one node is left; a last node without a neighbour is hashed with
itself. The siblings on the way up lead every leaf to the root. Over `2 ^ k` leaves that are hashes
themselves, no other siblings and no other number of them do, unless two messages collide.
-/

namespace LayeredMerkle

universe u v

variable {μ : Type u} {δ : Type v}

/-- Neighbours, a last one without a neighbour paired with itself. -/
def pairs : List δ → List (δ × δ)
  | [] => []
  | [x] => [(x, x)]
  | x :: y :: rest => (x, y) :: pairs rest

theorem length_pairs : ∀ xs : List δ, (pairs xs).length = (xs.length + 1) / 2
  | [] => by simp [pairs]
  | [_] => by simp [pairs]
  | _ :: _ :: rest => by
    rw [pairs, List.length_cons, length_pairs rest, List.length_cons, List.length_cons]
    omega

theorem getElem?_pairs : ∀ (xs : List δ) (i : ℕ),
    (pairs xs)[i]? = xs[2 * i]?.map fun x => (x, xs[2 * i + 1]?.getD x)
  | [], i => by simp [pairs]
  | [x], 0 => rfl
  | [x], i + 1 => by simp [pairs, Nat.mul_succ]
  | x :: y :: rest, 0 => rfl
  | x :: y :: rest, i + 1 => by
    have hindex : 2 * (i + 1) = 2 * i + 2 := by ring
    rw [pairs, List.getElem?_cons_succ, getElem?_pairs rest i, hindex]
    rfl

section
variable (hash : μ → δ) (join : δ → δ → μ)

/-- The layer above. -/
def up (xs : List δ) : List δ := (pairs xs).map fun p => hash (join p.1 p.2)

theorem length_up (xs : List δ) : (up hash join xs).length = (xs.length + 1) / 2 := by
  rw [up, List.length_map, length_pairs]

theorem getElem?_up (xs : List δ) (i : ℕ) : (up hash join xs)[i]?
    = xs[2 * i]?.map fun x => hash (join x (xs[2 * i + 1]?.getD x)) := by
  rw [up, List.getElem?_map, getElem?_pairs, Option.map_map]
  rfl

/-- The layers, from the leaves to the root. -/
def layers (xs : List δ) : List (List δ) :=
  if 1 < xs.length then xs :: layers (up hash join xs) else [xs]
termination_by xs.length
decreasing_by
  rw [length_up]
  omega

/-- The node the layers end with. -/
def root (layers : List (List δ)) : Option δ := layers.getLast?.bind List.head?

/-- The siblings on the way from a leaf to the root; a node without one stands in for it. -/
def siblings : List (List δ) → ℕ → Option (List δ)
  | layer :: above :: rest, i => do
    let s ← layer[i ^^^ 1]?.or layer[i]?
    let path ← siblings (above :: rest) (i / 2)
    return s :: path
  | _, _ => some []

/-- What is hashed when a node meets a sibling. -/
def step (h : δ) (i : ℕ) (s : δ) : μ := if i % 2 = 1 then join s h else join h s

/-- The node some siblings lead to. -/
def climb : δ → ℕ → List δ → δ
  | h, _, [] => h
  | h, i, s :: path => climb (hash (step join h i s)) (i / 2) path

/-- Everything hashed on the way from a node up some siblings. -/
def climbMessages : δ → ℕ → List δ → List μ
  | _, _, [] => []
  | h, i, s :: path => step join h i s :: climbMessages (hash (step join h i s)) (i / 2) path

/-- Everything hashed to build the layers. -/
def treeMessages (xs : List δ) : List μ :=
  (layers hash join xs).dropLast.flatMap fun layer => (pairs layer).map fun p => join p.1 p.2

end

variable {hash : μ → δ} {join : δ → δ → μ} {xs : List δ} {h x : δ} {i : ℕ}

/-! ## Layers -/

theorem layers_of_lt (hlen : 1 < xs.length) :
    layers hash join xs = xs :: layers hash join (up hash join xs) := by
  rw [layers, if_pos hlen]

theorem layers_of_le (hlen : xs.length ≤ 1) : layers hash join xs = [xs] := by
  rw [layers, if_neg (not_lt.mpr hlen)]

theorem layers_ne_nil (xs : List δ) : layers hash join xs ≠ [] := by
  rw [layers]
  split_ifs <;> simp

theorem layers_eq_cons (hash : μ → δ) (join : δ → δ → μ) (xs : List δ) : ∃ rest, layers hash join xs = xs :: rest := by
  rw [layers]
  split_ifs
  · exact ⟨_, rfl⟩
  · exact ⟨[], rfl⟩

theorem root_layers_up (hlen : 1 < xs.length) :
    root (layers hash join xs) = root (layers hash join (up hash join xs)) := by
  unfold root
  rw [layers_of_lt hlen, List.getLast?_cons_of_ne_nil (layers_ne_nil _)]

theorem siblings_layers (hlen : 1 < xs.length) : siblings (layers hash join xs) i = do
    let s ← xs[i ^^^ 1]?.or xs[i]?
    let path ← siblings (layers hash join (up hash join xs)) (i / 2)
    return s :: path := by
  obtain ⟨rest, hrest⟩ := layers_eq_cons hash join (up hash join xs)
  rw [layers_of_lt hlen, hrest, siblings]

theorem treeMessages_of_lt (hlen : 1 < xs.length) : treeMessages hash join xs
    = ((pairs xs).map fun p => join p.1 p.2) ++ treeMessages hash join (up hash join xs) := by
  unfold treeMessages
  rw [layers_of_lt hlen, List.dropLast_cons_of_ne_nil (layers_ne_nil _), List.flatMap_cons]

/-! ## Every leaf is led to the root -/

/-- A node and its sibling are hashed to the node above them. -/
theorem getElem?_up_half (hash : μ → δ) (join : δ → δ → μ) {s : δ} (hx : xs[i]? = some x)
    (hs : xs[i ^^^ 1]?.or xs[i]? = some s) :
    (up hash join xs)[i / 2]? = some (hash (step join x i s)) := by
  rw [getElem?_up, step]
  rcases Nat.even_or_odd i with heven | hodd
  · have hmod := Nat.even_iff.mp heven
    have hdouble : 2 * (i / 2) = i := by omega
    rw [Nat.xor_one_of_even heven] at hs
    rw [if_neg (by omega), hdouble, hx, Option.map_some]
    cases hnext : xs[i + 1]? with
    | none =>
      rw [hnext, hx, Option.none_or] at hs
      obtain rfl := Option.some.inj hs
      rfl
    | some y =>
      rw [hnext, Option.some_or] at hs
      obtain rfl := Option.some.inj hs
      rfl
  · have hmod := Nat.odd_iff.mp hodd
    have hdouble : 2 * (i / 2) = i - 1 := by omega
    have hnext : i - 1 + 1 = i := by omega
    obtain ⟨y, hy⟩ : ∃ y, xs[i - 1]? = some y := by
      obtain ⟨hlt, -⟩ := List.getElem?_eq_some_iff.mp hx
      exact ⟨xs[i - 1], List.getElem?_eq_getElem (by omega)⟩
    rw [Nat.xor_one_of_odd hodd, hy, Option.some_or] at hs
    obtain rfl := Option.some.inj hs
    rw [if_pos hmod, hdouble, hy, Option.map_some, hnext, hx, Option.getD_some]

theorem exists_sibling (hx : xs[i]? = some x) : ∃ s, xs[i ^^^ 1]?.or xs[i]? = some s := by
  cases xs[i ^^^ 1]? with
  | none => exact ⟨x, hx⟩
  | some s => exact ⟨s, rfl⟩

/-- **Completeness**: a leaf and its siblings lead to the root. -/
theorem climb_siblings (hash : μ → δ) (join : δ → δ → μ) (hx : xs[i]? = some x) :
    ∃ r path, root (layers hash join xs) = some r ∧
      siblings (layers hash join xs) i = some path ∧ climb hash join x i path = r := by
  induction hn : xs.length using Nat.strong_induction_on generalizing xs i x with
  | _ n ih =>
    subst hn
    obtain ⟨hi, -⟩ := List.getElem?_eq_some_iff.mp hx
    by_cases hlen : 1 < xs.length
    · obtain ⟨s, hs⟩ := exists_sibling hx
      have hup := getElem?_up_half hash join hx hs
      obtain ⟨r, path, hroot, hpath, hclimb⟩ :=
        ih _ (by rw [length_up]; omega) hup rfl
      refine ⟨r, s :: path, (root_layers_up hlen).trans hroot, ?_, hclimb⟩
      rw [siblings_layers hlen, hs, hpath]
      rfl
    · obtain rfl : i = 0 := by omega
      refine ⟨x, [], ?_, ?_, rfl⟩
      · rw [layers_of_le (by omega), root, List.getLast?_singleton, Option.bind_some,
          List.head?_eq_getElem?, hx]
      · rw [layers_of_le (by omega)]
        rfl

/-! ## Nothing else is -/

/-- Joined nodes can be told apart, and no two of some messages have one hash. -/
structure Binding (hash : μ → δ) (join : δ → δ → μ) (nodes : Set δ) (messages : Set μ) : Prop where
  mem : ∀ m, hash m ∈ nodes
  join_inj : ∀ {a b c d}, a ∈ nodes → b ∈ nodes → c ∈ nodes → d ∈ nodes → join a b = join c d →
    a = c ∧ b = d
  injOn : Set.InjOn hash messages

variable {nodes : Set δ} {messages : Set μ} {path : List δ} {k : ℕ}

/-- In a full layer both neighbours are there. -/
theorem exists_pair (hash : μ → δ) (join : δ → δ → μ) (hlen : xs.length = 2 ^ (k + 1))
    (hi : i < 2 ^ k) :
    ∃ a b, xs[2 * i]? = some a ∧ xs[2 * i + 1]? = some b ∧
      (up hash join xs)[i]? = some (hash (join a b)) ∧
        join a b ∈ (pairs xs).map fun p => join p.1 p.2 := by
  rw [pow_succ] at hlen
  have ha : xs[2 * i]? = some (xs[2 * i]) := List.getElem?_eq_getElem (by omega)
  have hb : xs[2 * i + 1]? = some (xs[2 * i + 1]) := List.getElem?_eq_getElem (by omega)
  have hpair : (pairs xs)[i]? = some (xs[2 * i], xs[2 * i + 1]) := by
    rw [getElem?_pairs, ha, hb]
    rfl
  refine ⟨_, _, ha, hb, ?_, List.mem_map.mpr ⟨_, List.mem_of_getElem? hpair, rfl⟩⟩
  rw [up, List.getElem?_map, hpair]
  rfl

/-- As many siblings as there are layers are the tree's own, and lead from its own leaf. -/
theorem siblings_of_climb (hb : Binding hash join nodes messages) {r : δ} : ∀ {k : ℕ} {xs : List δ}
    {path : List δ} {h : δ} {i : ℕ}, xs.length = 2 ^ k → path.length = k → (∀ x ∈ xs, x ∈ nodes) →
      (∀ s ∈ path, s ∈ nodes) → h ∈ nodes →
        (∀ m ∈ treeMessages hash join xs ++ climbMessages hash join h i path, m ∈ messages) →
          root (layers hash join xs) = some r → climb hash join h i path = r →
            xs[i % 2 ^ k]? = some h ∧ siblings (layers hash join xs) (i % 2 ^ k) = some path := by
  intro k
  induction k with
  | zero =>
    intro xs path h i hlen hpath hxs hpathn hh hm hroot hclimb
    obtain rfl := List.length_eq_zero_iff.mp hpath
    obtain ⟨x, rfl⟩ := List.length_eq_one_iff.mp hlen
    rw [layers_of_le (by simp)] at hroot ⊢
    have hx : x = r := Option.some.inj hroot
    rw [pow_zero, Nat.mod_one]
    exact ⟨by rw [hx, ← hclimb]; rfl, rfl⟩
  | succ k ih =>
    intro xs path h i hlen hpath hxs hpathn hh hm hroot hclimb
    cases path with
    | nil => exact absurd hpath (by simp)
    | cons s path =>
      obtain ⟨hs, hpathn'⟩ := List.forall_mem_cons.mp hpathn
      have hlt : 1 < xs.length := by
        rw [hlen]
        exact Nat.one_lt_two_pow (by omega)
      rw [treeMessages_of_lt hlt, climbMessages] at hm
      simp only [List.mem_append, List.mem_cons] at hm
      have hup : (up hash join xs).length = 2 ^ k := by
        rw [length_up, hlen, pow_succ]
        omega
      obtain ⟨hnode, hrest⟩ := ih hup (by simpa using hpath)
        (fun x hx => by
          obtain ⟨p, -, rfl⟩ := List.mem_map.mp hx
          exact hb.mem _)
        hpathn' (hb.mem _)
        (fun m hmem => hm m (by rcases List.mem_append.mp hmem with ht | hc <;> tauto))
        ((root_layers_up hlt).symm.trans hroot) hclimb
      -- the node above is the hash of both, so both are the tree's
      obtain ⟨a, b, ha, hbx, hab, hmem⟩ := exists_pair hash join hlen
        (Nat.mod_lt (i / 2) (Nat.two_pow_pos k))
      have hstep : step join h i s = join a b := by
        refine hb.injOn (hm _ (by tauto)) (hm _ (by tauto)) ?_
        exact Option.some.inj (hnode.symm.trans hab)
      have hmod : i % 2 ^ (k + 1) = i % 2 + 2 * (i / 2 % 2 ^ k) := by
        rw [pow_succ', Nat.mod_mul]
      have han : a ∈ nodes := hxs a (List.mem_of_getElem? ha)
      have hbn : b ∈ nodes := hxs b (List.mem_of_getElem? hbx)
      have hhalf : i % 2 ^ (k + 1) / 2 = i / 2 % 2 ^ k := by omega
      rw [siblings_layers hlt, hhalf, hrest]
      unfold step at hstep
      by_cases hodd : i % 2 = 1
      · rw [if_pos hodd] at hstep
        obtain ⟨rfl, rfl⟩ := hb.join_inj hs hh han hbn hstep
        have hindex : i % 2 ^ (k + 1) = 2 * (i / 2 % 2 ^ k) + 1 := by omega
        have hxor : i % 2 ^ (k + 1) ^^^ 1 = 2 * (i / 2 % 2 ^ k) := by
          rw [Nat.xor_one_of_odd (Nat.odd_iff.mpr (by omega))]
          omega
        rw [hxor, hindex, ha, hbx]
        exact ⟨rfl, rfl⟩
      · rw [if_neg hodd] at hstep
        obtain ⟨rfl, rfl⟩ := hb.join_inj hh hs han hbn hstep
        have hindex : i % 2 ^ (k + 1) = 2 * (i / 2 % 2 ^ k) := by omega
        have hxor : i % 2 ^ (k + 1) ^^^ 1 = 2 * (i / 2 % 2 ^ k) + 1 := by
          rw [Nat.xor_one_of_even (Nat.even_iff.mpr (by omega))]
          omega
        rw [hxor, hindex, ha, hbx]
        exact ⟨rfl, rfl⟩

/-! ## Paths of another length -/

theorem climb_append (hash : μ → δ) (join : δ → δ → μ) (h : δ) (i : ℕ) (p q : List δ) :
    climb hash join h i (p ++ q) = climb hash join (climb hash join h i p) (i / 2 ^ p.length) q := by
  induction p generalizing h i with
  | nil => simp [climb]
  | cons s p ih =>
    rw [List.cons_append, climb, ih, climb, List.length_cons, pow_succ', Nat.div_div_eq_div_mul]

theorem climbMessages_append (hash : μ → δ) (join : δ → δ → μ) (h : δ) (i : ℕ) (p q : List δ) :
    climbMessages hash join h i (p ++ q) = climbMessages hash join h i p ++
      climbMessages hash join (climb hash join h i p) (i / 2 ^ p.length) q := by
  induction p generalizing h i with
  | nil => simp [climb, climbMessages]
  | cons s p ih =>
    rw [List.cons_append, climbMessages, ih, climbMessages, climb, List.length_cons, pow_succ',
      Nat.div_div_eq_div_mul, List.cons_append]

/-- A message that is no two nodes joined. -/
def Unjoined (join : δ → δ → μ) (nodes : Set δ) (m : μ) : Prop :=
  ∀ a ∈ nodes, ∀ b ∈ nodes, join a b ≠ m

/-- A node led to by some siblings is the hash of two nodes. -/
theorem exists_join_of_climb (hb : Binding hash join nodes messages) (hne : path ≠ [])
    (hh : h ∈ nodes) (hpath : ∀ s ∈ path, s ∈ nodes) : ∃ a ∈ nodes, ∃ b ∈ nodes,
      climb hash join h i path = hash (join a b) ∧ join a b ∈ climbMessages hash join h i path := by
  induction path generalizing h i with
  | nil => exact absurd rfl hne
  | cons s path ih =>
    obtain ⟨hs, hpath'⟩ := List.forall_mem_cons.mp hpath
    by_cases hnil : path = []
    · subst hnil
      have hjoin : ∃ a ∈ nodes, ∃ b ∈ nodes, step join h i s = join a b := by
        unfold step
        split_ifs
        · exact ⟨s, hs, h, hh, rfl⟩
        · exact ⟨h, hh, s, hs, rfl⟩
      obtain ⟨a, ha, b, hbn, hstep⟩ := hjoin
      refine ⟨a, ha, b, hbn, ?_, ?_⟩
      · rw [climb, climb, hstep]
      · rw [climbMessages, hstep]
        exact List.mem_cons_self
    · obtain ⟨a, ha, b, hbn, hclimb, hmem⟩ := ih (i := i / 2) hnil (hb.mem _) hpath'
      exact ⟨a, ha, b, hbn, hclimb, List.mem_cons_of_mem _ hmem⟩

/-- A layer inside a full tree: the rest of the tree is built on it, and its nodes are hashes of two
nodes. -/
theorem exists_layer (hb : Binding hash join nodes messages) : ∀ {k n : ℕ} {xs : List δ},
    xs.length = 2 ^ k → n < k → (∀ x ∈ xs, x ∈ nodes) → ∃ ys : List δ, ys.length = 2 ^ n ∧
      root (layers hash join ys) = root (layers hash join xs) ∧
        (∀ m ∈ treeMessages hash join ys, m ∈ treeMessages hash join xs) ∧
          ∀ y ∈ ys, ∃ a ∈ nodes, ∃ b ∈ nodes, y = hash (join a b) ∧
            join a b ∈ treeMessages hash join xs := by
  intro k
  induction k with
  | zero => exact fun _ hn => absurd hn (by omega)
  | succ k ih =>
    intro n xs hlen hn hxs
    have hlt : 1 < xs.length := by
      rw [hlen]
      exact Nat.one_lt_two_pow (by omega)
    have hup : (up hash join xs).length = 2 ^ k := by
      rw [length_up, hlen, pow_succ]
      omega
    have hsub : ∀ m ∈ treeMessages hash join (up hash join xs), m ∈ treeMessages hash join xs :=
      fun m hm => by
        rw [treeMessages_of_lt hlt]
        exact List.mem_append_right _ hm
    by_cases heq : n = k
    · subst heq
      refine ⟨up hash join xs, hup, (root_layers_up hlt).symm, hsub, fun y hy => ?_⟩
      obtain ⟨j, hj⟩ := List.mem_iff_getElem?.mp hy
      obtain ⟨hjlt, -⟩ := List.getElem?_eq_some_iff.mp hj
      obtain ⟨a, b, ha, hbx, hab, hmem⟩ := exists_pair hash join hlen
        (by omega : j < 2 ^ n)
      refine ⟨a, hxs a (List.mem_of_getElem? ha), b, hxs b (List.mem_of_getElem? hbx), ?_, ?_⟩
      · exact Option.some.inj (hj.symm.trans hab)
      · rw [treeMessages_of_lt hlt]
        exact List.mem_append_left _ hmem
    · obtain ⟨ys, hys, hroot, hmsgs, hjoins⟩ := ih hup (by omega : n < k)
        (fun x hx => by
          obtain ⟨p, -, rfl⟩ := List.mem_map.mp hx
          exact hb.mem _)
      refine ⟨ys, hys, hroot.trans (root_layers_up hlt).symm, fun m hm => hsub m (hmsgs m hm),
        fun y hy => ?_⟩
      obtain ⟨a, ha, b, hbn, hy', hmem⟩ := hjoins y hy
      exact ⟨a, ha, b, hbn, hy', hsub _ hmem⟩

/-- **Soundness**: over `2 ^ k` leaves that are hashes of no two nodes, whatever leads such a hash to
the root are `k` siblings, the tree's own. -/
theorem climb_unique (hb : Binding hash join nodes messages) {r : δ} (hlen : xs.length = 2 ^ k)
    (hxs : ∀ x ∈ xs, ∃ m ∈ messages, Unjoined join nodes m ∧ hash m = x)
    (hleaf : ∃ m ∈ messages, Unjoined join nodes m ∧ hash m = h) (hpath : ∀ s ∈ path, s ∈ nodes)
    (hm : ∀ m ∈ treeMessages hash join xs ++ climbMessages hash join h i path, m ∈ messages)
    (hroot : root (layers hash join xs) = some r) (hclimb : climb hash join h i path = r) :
    path.length = k ∧ xs[i % 2 ^ k]? = some h ∧
      siblings (layers hash join xs) (i % 2 ^ k) = some path := by
  have hxsn : ∀ x ∈ xs, x ∈ nodes := fun x hx => by
    obtain ⟨m, -, -, rfl⟩ := hxs x hx
    exact hb.mem m
  obtain ⟨m₀, hm₀, hun₀, rfl⟩ := hleaf
  rcases lt_trichotomy path.length k with hlt | heq | hgt
  · -- too short: the leaf would be a node above the leaves
    obtain ⟨ys, hys, hroot', hmsgs, hjoins⟩ := exists_layer hb hlen hlt hxsn
    have hysn : ∀ y ∈ ys, y ∈ nodes := fun y hy => by
      obtain ⟨a, -, b, -, rfl, -⟩ := hjoins y hy
      exact hb.mem _
    obtain ⟨hget, -⟩ := siblings_of_climb hb hys rfl hysn hpath (hb.mem m₀) (fun m hmem => hm m (by
      rcases List.mem_append.mp hmem with ht | hc
      · exact List.mem_append_left _ (hmsgs m ht)
      · exact List.mem_append_right _ hc)) (hroot'.trans hroot) hclimb
    obtain ⟨a, ha, b, hbn, hhash, hjoin⟩ := hjoins _ (List.mem_of_getElem? hget)
    exact absurd (hb.injOn hm₀ (hm _ (List.mem_append_left _ hjoin)) hhash).symm (hun₀ a ha b hbn)
  · exact ⟨heq, siblings_of_climb hb hlen heq hxsn hpath (hb.mem m₀) hm hroot hclimb⟩
  · -- too long: a leaf would be a node above a leaf
    have hsplit := List.take_append_drop (path.length - k) path
    have htake : (path.take (path.length - k)).length = path.length - k := by
      rw [List.length_take]
      omega
    have hdrop : (path.drop (path.length - k)).length = k := by
      rw [List.length_drop]
      omega
    rw [← hsplit, climb_append] at hclimb
    rw [← hsplit, climbMessages_append] at hm
    simp only [List.mem_append] at hm
    have hpretake : ∀ s ∈ path.take (path.length - k), s ∈ nodes :=
      fun s hs => hpath s (List.mem_of_mem_take hs)
    have hne : path.take (path.length - k) ≠ [] := by
      rw [← List.length_pos_iff, htake]
      omega
    obtain ⟨a, ha, b, hbn, htop, hjoin⟩ := exists_join_of_climb (i := i) hb hne (hb.mem m₀) hpretake
    obtain ⟨hget, -⟩ := siblings_of_climb hb hlen hdrop hxsn
      (fun s hs => hpath s (List.mem_of_mem_drop hs)) (htop ▸ hb.mem _)
      (fun m hmem => hm m (by rcases List.mem_append.mp hmem with ht | hc <;> tauto)) hroot hclimb
    obtain ⟨m, hmm, hun, hhash⟩ := hxs _ (List.mem_of_getElem? hget)
    exact absurd (hb.injOn (hm _ (by tauto)) hmm (htop.symm.trans hhash.symm)) (hun a ha b hbn)

end LayeredMerkle
