import LightQuery.Lib.CommonPrefix

/-!
# LightQuery.Memory

Reads that may leave their object.

Every function of the model that reads a key buffer takes `past`, which says
what a read past the end of a buffer yields: a byte of whatever memory follows
(`Past.lenient`), or a fault (`Past.strict`).  A result proved for every `past`
is a result about code that stays inside its buffers; a result proved for every
lenient `past` holds whatever the stray read returns.
-/

namespace LightQuery

open CommonPrefix

/-- What stops an execution: undefined behaviour or a failed assertion. -/
inductive Fault where
  /-- byte `i` of a key buffer is read, past its end -/
  | pastEnd (i : Nat)
  /-- a NULL `art_node*` is dereferenced -/
  | nullNode
  /-- a tagged leaf pointer is dereferenced as an inner node -/
  | leafAsNode
  /-- `next[i]` of an `op_code_tree` node is read out of range -/
  | opCodeIndex
  /-- a NULL `code_t*` is dereferenced -/
  | nullCode
  /-- the address of an operator is shorter than an operator id -/
  | assertScopeLen
  /-- `_ds_len` does not fit a message's address field -/
  | assertDsLen
  /-- `handle_child_termination` is called for an actor that is not in the tree -/
  | assertSearch
  /-- a message is put in a NULL child's mailbox -/
  | nullChild
  /-- a deleted actor is used -/
  | dangling
  /-- `do_work` is called with a NULL payload -/
  | nullPayload
deriving DecidableEq, Repr

/-- What reading byte `i` past the end of a key buffer yields. -/
abbrev Past := Nat → Except Fault UInt8

/-- Reads past the end return the bytes that happen to be there. -/
def Past.lenient (mem : Nat → UInt8) : Past := fun i => .ok (mem i)

/-- Reads past the end are caught. -/
def Past.strict : Past := fun i => .error (.pastEnd i)

/-- `key[i]`. -/
def readByte (past : Past) (key : List UInt8) (i : Nat) : Except Fault UInt8 :=
  match key[i]? with
  | some b => .ok b
  | none => past i

theorem readByte_lt (past : Past) {key : List UInt8} {i : Nat} (h : i < key.length) :
    readByte past key i = .ok key[i] := by
  simp [readByte, h]

theorem readByte_ge (past : Past) {key : List UInt8} {i : Nat} (h : key.length ≤ i) :
    readByte past key i = past i := by
  simp [readByte, h]

/-- A lenient read yields a byte of the buffer or of the memory after it. -/
theorem readByte_lenient (mem : Nat → UInt8) (key : List UInt8) (i : Nat) :
    readByte (Past.lenient mem) key i = .ok ((key[i]?).getD (mem i)) := by
  unfold readByte
  cases key[i]? <;> rfl

/-- Bytes `off .. off + n` of a buffer, as `memcpy` reads them. -/
def readBytes (past : Past) (key : List UInt8) (off : Nat) : (n : Nat) → Except Fault (List UInt8)
  | 0 => .ok []
  | n + 1 => do
      let b ← readByte past key off
      let bs ← readBytes past key (off + 1) n
      .ok (b :: bs)

/-- A copy that stays inside the buffer. -/
theorem readBytes_eq (past : Past) (key : List UInt8) (off n : Nat) (h : off + n ≤ key.length) :
    readBytes past key off n = .ok ((key.drop off).take n) := by
  induction n generalizing off with
  | zero => simp [readBytes]
  | succ n ih =>
      have hoff : off < key.length := by omega
      rw [readBytes, readByte_lt past hoff, ih _ (by omega), List.drop_eq_getElem_cons hoff,
        List.take_succ_cons]
      rfl

/-- A strict copy that succeeds stays inside the buffer. -/
theorem le_of_readBytes_strict {key bytes : List UInt8} {off n : Nat} (hn : 0 < n)
    (h : readBytes Past.strict key off n = .ok bytes) : off + n ≤ key.length := by
  induction n generalizing off bytes with
  | zero => exact absurd hn (Nat.lt_irrefl 0)
  | succ n ih =>
      have hoff : off < key.length := by
        by_contra hge
        rw [readBytes, readByte_ge Past.strict (Nat.le_of_not_lt hge)] at h
        cases h
      rcases Nat.eq_zero_or_pos n with rfl | hpos
      · exact hoff
      · rw [readBytes, readByte_lt Past.strict hoff] at h
        cases hrest : readBytes Past.strict key (off + 1) n with
        | error e => simp [hrest, bind, Except.bind] at h
        | ok bytes' =>
            have := ih hpos hrest
            omega

/-- A lenient copy always succeeds. -/
theorem exists_readBytes_lenient (mem : Nat → UInt8) (key : List UInt8) (off n : Nat) :
    ∃ bytes, readBytes (Past.lenient mem) key off n = .ok bytes := by
  induction n generalizing off with
  | zero => exact ⟨[], rfl⟩
  | succ n ih =>
      obtain ⟨bytes, h⟩ := ih (off + 1)
      rw [readBytes, readByte_lenient, h]
      exact ⟨_, rfl⟩

/-- `!memcmp(a, b, n)`. -/
def memcmpEq (past : Past) (a b : List UInt8) (n : Nat) : Except Fault Bool := do
  let idx ← mismatch (readByte past a) (readByte past b) 0 n
  .ok (idx == n)

/-- Comparing `n` bytes that both buffers have. -/
theorem memcmpEq_eq (past : Past) {a b : List UInt8} {n : Nat} (ha : n ≤ a.length)
    (hb : n ≤ b.length) : memcmpEq past a b n = .ok (decide (a.take n = b.take n)) := by
  have hm : mismatch (readByte past a) (readByte past b) 0 n = .ok (0 + min n (lcp a b)) :=
    mismatch_eq _ _ ha hb (fun i hi => by rw [Nat.zero_add]; exact readByte_lt past (by omega))
      (fun i hi => by rw [Nat.zero_add]; exact readByte_lt past (by omega))
  rw [memcmpEq, hm]
  simp only [bind, Except.bind, Nat.zero_add]
  congr 1
  rw [Bool.eq_iff_iff, beq_iff_eq, decide_eq_true_iff]
  have hlen : (a.take n).length = n := by rw [List.length_take]; omega
  have hlen' : (b.take n).length = n := by rw [List.length_take]; omega
  have hiff : min n (lcp a b) = n ↔ a.take n <+: b.take n := by
    rw [← length_le_lcp_iff, lcp_take_left, lcp_take_right, hlen]
    omega
  rw [hiff]
  exact ⟨fun h => h.eq_of_length (by rw [hlen, hlen']), fun h => h ▸ List.prefix_rfl⟩

end LightQuery
