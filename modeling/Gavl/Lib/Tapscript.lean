import Mathlib.Tactic

/-!
# A fragment of tapscript

Script-path spends of a taproot output, for scripts made of pushes, a hash lock, a signature
check and a relative lock. Signatures, the sequence check and the commitment of a control block
are oracles.
-/

namespace Tapscript

/-- An opcode of the fragment. -/
inductive Op where
  | push (data : List UInt8)
  | sha256
  | equalVerify
  | checkSig
  | checkSequenceVerify
  | drop
deriving DecidableEq

/-- What validation asks outside the script. -/
structure Env where
  sha256 : List UInt8 → List UInt8
  /-- A signature is valid under a key. -/
  checkSig : List UInt8 → List UInt8 → Bool
  /-- The input's sequence satisfies a relative lock. -/
  checkSequence : List UInt8 → Bool
  /-- A control block commits the output to a script. -/
  commits : List UInt8 → List UInt8 → Bool

/-! ## Encoding -/

/-- A number that has an opcode of its own is pushed by it. -/
def encodePush (data : List UInt8) : List UInt8 :=
  match data with
  | [n] => if 1 ≤ n.toNat ∧ n.toNat ≤ 16 then [n + 0x50] else [1, n]
  | _ => UInt8.ofNat data.length :: data

def Op.encode : Op → List UInt8
  | push data => encodePush data
  | sha256 => [0xa8]
  | equalVerify => [0x88]
  | checkSig => [0xac]
  | checkSequenceVerify => [0xb2]
  | drop => [0x75]

def encode (ops : List Op) : List UInt8 := ops.flatMap Op.encode

/-- The opcodes that are a single byte. -/
def opOf? (b : UInt8) : Option Op :=
  if b = 0x00 then some (.push [])
  else if 0x51 ≤ b.toNat ∧ b.toNat ≤ 0x60 then some (.push [b - 0x50])
  else if b = 0xa8 then some .sha256
  else if b = 0x88 then some .equalVerify
  else if b = 0xac then some .checkSig
  else if b = 0xb2 then some .checkSequenceVerify
  else if b = 0x75 then some .drop
  else none

/-- Read a script, an opcode for each unit of fuel. -/
def parseFrom : ℕ → List UInt8 → Option (List Op)
  | _, [] => some []
  | 0, _ :: _ => none
  | n + 1, b :: rest =>
    if 1 ≤ b.toNat ∧ b.toNat ≤ 75 then
      if rest.length < b.toNat then none
      else (parseFrom n (rest.drop b.toNat)).map (fun ops => .push (rest.take b.toNat) :: ops)
    else (opOf? b).bind (fun op => (parseFrom n rest).map (fun ops => op :: ops))

/-- The opcodes of a script; `none` outside the fragment. -/
def parse (script : List UInt8) : Option (List Op) := parseFrom script.length script

/-! ## Execution -/

/-- One opcode on a stack, top first. -/
def Op.run (E : Env) : Op → List (List UInt8) → Option (List (List UInt8))
  | push data, st => some (data :: st)
  | sha256, x :: st => some (E.sha256 x :: st)
  | equalVerify, a :: b :: st => if a = b then some st else none
  | checkSig, key :: sig :: st =>
    if key = [] then none
    else if sig = [] then some ([] :: st)
    -- keys of another size are left to later upgrades and pass
    else if key.length = 32 ∧ E.checkSig key sig = false then none
    else some ([1] :: st)
  | checkSequenceVerify, n :: st => if E.checkSequence n then some (n :: st) else none
  | drop, _ :: st => some st
  | _, _ => none

def exec (E : Env) : List Op → List (List UInt8) → Option (List (List UInt8))
  | [], st => some st
  | op :: ops, st => (op.run E st).bind (exec E ops)

/-- The truth of a stack element: not zero, nor negative zero. -/
def truthy : List UInt8 → Bool
  | [] => false
  | [x] => decide (x ≠ 0) && decide (x ≠ 0x80)
  | x :: y :: xs => decide (x ≠ 0) || truthy (y :: xs)

/-! ## Spending -/

/-- Largest stack element. -/
def maxElement : ℕ := 520

/-- A last witness element that starts with 0x50 is an annex and not part of the spend. -/
def dropAnnex (witness : List (List UInt8)) : List (List UInt8) :=
  if 2 ≤ witness.length ∧ (witness.getLast?.bind List.head?) = some 0x50 then witness.dropLast
  else witness

/-- The tapscript leaf version of a control block. -/
def isTapscript (control : List UInt8) : Bool :=
  match control with
  | [] => false
  | b :: _ => decide (b = 0xc0 ∨ b = 0xc1)

/-- A witness spends the output through a script of the fragment. -/
def accepts (E : Env) (witness : List (List UInt8)) : Bool :=
  match (dropAnnex witness).reverse with
  | control :: script :: stack =>
    isTapscript control && E.commits control script &&
      stack.all (fun x => decide (x.length ≤ maxElement)) &&
      (match (parse script).bind (fun ops => exec E ops stack) with
        | some [top] => truthy top
        | _ => false)
  | _ => false

/-! ## Scripts read back -/

/-- A push short enough for its length to be its opcode. -/
def Op.Direct : Op → Prop
  | push data => data.length ≤ 75
  | _ => True

variable {ops : List Op}

theorem encodePush_ne_nil (data : List UInt8) : encodePush data ≠ [] := by
  unfold encodePush
  split
  · split_ifs <;> simp
  · simp

theorem Op.encode_ne_nil (op : Op) : op.encode ≠ [] := by
  cases op with
  | push data => exact encodePush_ne_nil data
  | _ => simp [Op.encode]

theorem parseFrom_push {data : List UInt8} (h : data.length ≤ 75) (n : ℕ) (rest : List UInt8) :
    parseFrom (n + 1) (encodePush data ++ rest)
      = (parseFrom n rest).map (fun ops => .push data :: ops) := by
  unfold encodePush
  split
  · rename_i b
    split_ifs with hsmall
    · have hb : (b + 0x50).toNat = b.toNat + 0x50 := by
        rw [UInt8.toNat_add]
        have : (0x50 : UInt8).toNat = 80 := rfl
        omega
      have hback : b + 0x50 - 0x50 = b := by simp
      rw [List.singleton_append, parseFrom, if_neg (by omega)]
      unfold opOf?
      rw [if_neg (fun hz => by rw [hz] at hb; have : (0 : UInt8).toNat = 0 := rfl; omega),
        if_pos (by omega), Option.bind_some, hback]
    · rw [List.cons_append, List.singleton_append, parseFrom, if_pos (by decide),
        if_neg (by simp)]
      simp
  · have hlen : (UInt8.ofNat data.length).toNat = data.length := by
      rw [UInt8.toNat_ofNat']
      exact Nat.mod_eq_of_lt (by omega)
    rw [List.cons_append, parseFrom, hlen]
    by_cases hzero : data = []
    · subst hzero
      simp [opOf?]
    · have hpos : 0 < data.length := List.length_pos_iff.mpr hzero
      rw [if_pos (by omega), if_neg (by simp), List.take_left, List.drop_left]

theorem parseFrom_op (op : Op) (h : op.Direct) (n : ℕ) (rest : List UInt8) :
    parseFrom (n + 1) (op.encode ++ rest) = (parseFrom n rest).map (fun ops => op :: ops) := by
  cases op with
  | push data => exact parseFrom_push h n rest
  | _ => simp [Op.encode, parseFrom, opOf?]

theorem parseFrom_encode (h : ∀ op ∈ ops, op.Direct) {n : ℕ} (hn : ops.length ≤ n) :
    parseFrom n (encode ops) = some ops := by
  induction ops generalizing n with
  | nil => simp [encode, parseFrom]
  | cons op ops ih =>
    obtain ⟨m, rfl⟩ : ∃ m, n = m + 1 := ⟨n - 1, by rw [List.length_cons] at hn; omega⟩
    have hrest := ih (fun o ho => h o (List.mem_cons_of_mem op ho)) (n := m)
      (by rw [List.length_cons] at hn; omega)
    unfold encode at hrest ⊢
    rw [List.flatMap_cons, parseFrom_op op (h op List.mem_cons_self), hrest, Option.map_some]

/-- An encoded script reads back. -/
theorem parse_encode (h : ∀ op ∈ ops, op.Direct) : parse (encode ops) = some ops := by
  refine parseFrom_encode h ?_
  unfold encode
  rw [List.length_flatMap]
  induction ops with
  | nil => simp
  | cons op ops ih =>
    have hpos := List.length_pos_iff.mpr op.encode_ne_nil
    have := ih (fun o ho => h o (List.mem_cons_of_mem op ho))
    rw [List.map_cons, List.sum_cons, List.length_cons]
    omega

end Tapscript
