import LightQuery.Art.Tree

/-!
# LightQuery.Art.Search

The two read-only descents, `art_search` and `art_lookup`, and the prefix
comparisons that all descents share.

Both descents compare at most ten bytes of a compressed path and check the
whole key at the leaf, so they end at the only leaf whose key may be a prefix
of the searched one (`findLeaf_of_prefix`) or at a leaf that does not match.
`artSearch_eq` and `artLookup_eq` state the results through `locate`.
-/

namespace LightQuery

open CArray CommonPrefix PrefixFamily

variable {V : Type} {n : Header} {keys : Nat → UInt8} {children : Nat → ArtNode V}

/-! ## comparing prefixes -/

/-- `art_tree`.  `size` is a `uint64_t`; it is an integer here, so that a
decrement below zero shows. -/
structure ArtTree (V : Type) where
  root : ArtNode V
  size : Int

/-- `art_tree_init`. -/
def ArtTree.init : ArtTree V := ⟨.null, 0⟩

/-- `check_prefix`. -/
def checkPrefix (past : Past) (n : Header) (key : List UInt8) (depth : Nat) : Except Fault Nat :=
  mismatch (fun idx => .ok (n.partialBytes idx)) (fun idx => readByte past key (depth + idx)) 0
    (min (min n.partialLen maxPrefixLen) (key.length - depth))

/-- `if (n->partial_len) { … if (prefix_len != min(MAX_PREFIX_LEN, n->partial_len)) … }`:
whether a descent goes on below the node. -/
def prefixPasses (past : Past) (n : Header) (key : List UInt8) (depth : Nat) :
    Except Fault Bool :=
  if n.partialLen = 0 then .ok true
  else do
    let prefixLen ← checkPrefix past n key depth
    .ok (prefixLen == min maxPrefixLen n.partialLen)

/-- `prefix_mismatch`; the node is `.node n keys children`. -/
def prefixMismatch (past : Past) (n : Header) (keys : Nat → UInt8) (children : Nat → ArtNode V)
    (key : List UInt8) (depth : Nat) : Except Fault Nat := do
  let maxCmp := min (min maxPrefixLen n.partialLen) (key.length - depth)
  let idx ← mismatch (fun idx => .ok (n.partialBytes idx))
    (fun idx => readByte past key (depth + idx)) 0 maxCmp
  if idx < maxCmp then .ok idx
  -- the path is longer than what was checked: find a leaf
  else if n.partialLen > maxPrefixLen then
    match minimum (.node n keys children) with
    | none => .error .nullNode
    | some l =>
        mismatch (fun idx => readByte past l.key (idx + depth))
          (fun idx => readByte past key (depth + idx)) idx
          (min l.keyLen key.length - depth - idx)
  else .ok idx

/-- `!leaf_matches(n, key, key_len, depth)`. -/
def leafMatches (past : Past) (l : ArtLeaf V) (key : List UInt8) : Except Fault Bool :=
  if l.keyLen ≠ key.length then .ok false
  else memcmpEq past l.key key key.length

/-- `active_leaf_prefix_matches`: the code and what is stored in `*ret_ptr`. -/
def activeLeafPrefixMatches (past : Past) (l : ArtLeaf V) (key : List UInt8) :
    Except Fault (Int × Option V) :=
  match l.value with
  | some v => do
      let same ← memcmpEq past l.key key (min key.length l.keyLen)
      .ok (if same && l.keyLen == key.length then (1, some v) else (0, none))
  | none =>
      if l.keyLen < key.length then do
        let same ← memcmpEq past l.key key (min key.length l.keyLen)
        .ok (if same then (-1, none) else (0, none))
      else .ok (0, none)

/-- The loop of `art_search`. -/
def searchLoop (past : Past) (key : List UInt8) : ArtNode V → (depth : Nat) →
    Except Fault (Option V)
  | .null, _ => .ok none
  | .leaf l, _ => do
      let same ← leafMatches past l key
      .ok (if same then l.value else none)
  | .node n keys children, depth => do
      if ← prefixPasses past n key depth then
        let c ← readByte past key (depth + n.partialLen)
        match findChild n keys children c with
        | some i => searchLoop past key (children i) (depth + n.partialLen + 1)
        | none => .ok none
      else .ok none

/-- `art_search`. -/
def artSearch (past : Past) (t : ArtTree V) (key : List UInt8) : Except Fault (Option V) :=
  searchLoop past key t.root 0

/-- The loop of `art_lookup`. -/
def lookupLoop (past : Past) (key : List UInt8) : ArtNode V → (depth : Nat) →
    Except Fault (Int × Option V)
  | .null, _ => .ok (0, none)
  | .leaf l, _ => activeLeafPrefixMatches past l key
  | .node n keys children, depth => do
      if ← prefixPasses past n key depth then
        let c ← readByte past key (depth + n.partialLen)
        match findChild n keys children c with
        | some i => lookupLoop past key (children i) (depth + n.partialLen + 1)
        | none => .ok (0, none)
      else .ok (0, none)

/-- `art_lookup`. -/
def artLookup (past : Past) (t : ArtTree V) (key : List UInt8) : Except Fault (Int × Option V) :=
  lookupLoop past key t.root 0

/-! ## what the comparisons compute -/

/-- Byte by byte, the stored path bytes are those of `partial`. -/
theorem stored_read (n : Header) (i : Nat) (h : i < n.stored.length) :
    (Except.ok (n.partialBytes (0 + i)) : Except Fault UInt8) = .ok n.stored[i] := by
  rw [Nat.zero_add, getElem_stored h]

theorem key_read (past : Past) (key : List UInt8) (depth i : Nat)
    (h : i < (key.drop depth).length) :
    readByte past key (depth + (0 + i)) = .ok (key.drop depth)[i] := by
  rw [List.length_drop] at h
  rw [Nat.zero_add, readByte_lt past (by omega), List.getElem_drop]

theorem checkPrefix_eq (past : Past) (n : Header) (key : List UInt8) (depth : Nat) :
    checkPrefix past n key depth = .ok (lcp n.stored (key.drop depth)) := by
  have hs := length_stored n
  have hd : (key.drop depth).length = key.length - depth := List.length_drop ..
  rw [checkPrefix, mismatch_eq n.stored (key.drop depth) (by omega) (by omega)
    (fun i hi => stored_read n i (by omega)) (fun i hi => key_read past key depth i (by omega))]
  have := lcp_le_left n.stored (key.drop depth)
  have := lcp_le_right n.stored (key.drop depth)
  congr 1
  omega

/-- The descents go on exactly where the stored path bytes match. -/
theorem prefixPasses_eq (past : Past) (n : Header) (key : List UInt8) (depth : Nat) :
    prefixPasses past n key depth = .ok (decide (n.stored <+: key.drop depth)) := by
  have hs := length_stored n
  unfold prefixPasses
  split
  · have hnil : n.stored = [] := List.eq_nil_of_length_eq_zero (by omega)
    simp [hnil]
  · rw [checkPrefix_eq]
    simp only [bind, Except.bind]
    congr 1
    rw [Bool.eq_iff_iff, beq_iff_eq, decide_eq_true_iff, ← lcp_eq_length_iff, hs]

/-- The loop over the stored bytes of a compressed path `c`. -/
theorem stored_mismatch_eq (past : Past) {c : List UInt8} (hlen : c.length = n.partialLen)
    (hstored : n.stored = c.take maxPrefixLen) (key : List UInt8) (depth : Nat) :
    mismatch (fun idx => .ok (n.partialBytes idx)) (fun idx => readByte past key (depth + idx)) 0
      (min (min maxPrefixLen n.partialLen) (key.length - depth)) =
      .ok (min maxPrefixLen (lcp c (key.drop depth))) := by
  have hs := length_stored n
  have hd : (key.drop depth).length = key.length - depth := List.length_drop ..
  have hle := lcp_le_right c (key.drop depth)
  have hle' := lcp_le_left c (key.drop depth)
  rw [mismatch_eq n.stored (key.drop depth) (by omega) (by omega)
    (fun i hi => stored_read n i (by omega)) (fun i hi => key_read past key depth i (by omega)),
    hstored, lcp_take_left]
  congr 1
  omega

theorem bytes_length {l : ArtLeaf V} (hbuf : l.keyLen ≤ l.key.length) :
    l.bytes.length = l.keyLen := by
  rw [ArtLeaf.bytes, List.length_take]; omega

/-- The bytes of a leaf's key are read from its buffer. -/
theorem readByte_of_bytes (past : Past) {l : ArtLeaf V} {i : Nat} {b : UInt8}
    (h : l.bytes[i]? = some b) : readByte past l.key i = .ok b := by
  rw [ArtLeaf.bytes, List.getElem?_take] at h
  split at h
  · rw [readByte, h]
  · cases h

/-- The loop over the bytes of a leaf, from position `depth + idx` on. -/
theorem leaf_mismatch_from (past : Past) {l : ArtLeaf V} (hbuf : l.keyLen ≤ l.key.length)
    {key : List UInt8} {depth idx : Nat} :
    mismatch (fun idx => readByte past l.key (idx + depth))
      (fun idx => readByte past key (depth + idx)) idx (min l.keyLen key.length - depth - idx) =
      .ok (idx + lcp (l.bytes.drop (depth + idx)) (key.drop (depth + idx))) := by
  have hbl := bytes_length hbuf
  have hrest : (key.drop (depth + idx)).length = key.length - (depth + idx) := List.length_drop ..
  have hrest' : (l.bytes.drop (depth + idx)).length = l.keyLen - (depth + idx) := by
    rw [List.length_drop, hbl]
  have hle := lcp_le_left (l.bytes.drop (depth + idx)) (key.drop (depth + idx))
  have hle' := lcp_le_right (l.bytes.drop (depth + idx)) (key.drop (depth + idx))
  rw [mismatch_eq (l.bytes.drop (depth + idx)) (key.drop (depth + idx)) (by omega)
    (by omega) ?_ ?_]
  · congr 1
    omega
  · intro i hi
    rw [readByte_lt past (by omega)]
    congr 1
    simp only [ArtLeaf.bytes, List.getElem_drop, List.getElem_take]
    congr 1
    omega
  · intro i hi
    rw [readByte_lt past (by omega)]
    congr 1
    simp only [List.getElem_drop]
    congr 1
    omega

/-- Two lists that agree in their first `idx` elements share the rest of their
common prefix after them. -/
theorem lcp_drop_add (xs ys : List UInt8) {idx : Nat} (h : idx ≤ lcp xs ys) :
    lcp xs ys = idx + lcp (xs.drop idx) (ys.drop idx) := by
  have htake : xs.take idx = ys.take idx := by
    have h2 := congrArg (List.take idx) (take_lcp xs ys)
    rwa [List.take_take, List.take_take, Nat.min_eq_left h] at h2
  have hle := lcp_le_right xs ys
  conv_lhs => rw [← List.take_append_drop idx xs, ← List.take_append_drop idx ys, htake,
    lcp_append_append]
  rw [List.length_take]
  omega

/-- `prefix_mismatch`, cut to `partial_len`, measures how much of the rest of
the key the compressed path shares. -/
theorem prefixMismatch_spec (past : Past) (key : List UInt8) {path c : List UInt8}
    (hlen : c.length = n.partialLen) (hstored : n.stored = c.take maxPrefixLen)
    {l : ArtLeaf V} (hmin : minimum (.node n keys children) = some l)
    (hbuf : l.keyLen ≤ l.key.length) (hpath : path ++ c <+: l.bytes) :
    ∃ r, prefixMismatch past n keys children key path.length = .ok r ∧
      min r n.partialLen = lcp c (key.drop path.length) ∧ r ≤ key.length - path.length := by
  set depth := path.length with hdepth
  have hd : (key.drop depth).length = key.length - depth := List.length_drop ..
  have hle := lcp_le_right c (key.drop depth)
  have hle' := lcp_le_left c (key.drop depth)
  rw [prefixMismatch, stored_mismatch_eq past hlen hstored]
  simp only [bind, Except.bind, hmin]
  split
  · exact ⟨_, rfl, by omega, by omega⟩
  · split
    · -- the leaf's own bytes continue the comparison
      rw [leaf_mismatch_from past hbuf]
      set idx := min maxPrefixLen (lcp c (key.drop depth)) with hidx
      have hcl : c <+: l.bytes.drop depth := by
        obtain ⟨t, ht⟩ := hpath
        rw [← ht, List.append_assoc, List.drop_left]
        exact List.prefix_append _ _
      have hlcp := lcp_of_prefix hcl (key.drop depth)
      have hagree := lcp_drop_add (l.bytes.drop depth) (key.drop depth)
        (show idx ≤ _ by omega)
      rw [List.drop_drop, List.drop_drop] at hagree
      have hright := lcp_le_right (l.bytes.drop depth) (key.drop depth)
      exact ⟨_, rfl, by omega, by omega⟩
    · exact ⟨_, rfl, by omega, by omega⟩

theorem leafMatches_eq (past : Past) {l : ArtLeaf V} (hbuf : l.keyLen ≤ l.key.length)
    (key : List UInt8) : leafMatches past l key = .ok (decide (l.bytes = key)) := by
  have hbl := bytes_length hbuf
  unfold leafMatches
  split
  · congr 1
    rw [eq_comm, decide_eq_false_iff_not]
    rintro rfl
    omega
  · rw [memcmpEq_eq past (by omega) (Nat.le_refl _), List.take_length, ArtLeaf.bytes]
    have : key.length = l.keyLen := by omega
    rw [this]

/-- The answer that an entry whose key is a prefix of the searched one gives. -/
def answer (key : List UInt8) : Option (List UInt8 × Option V) → Int × Option V
  | none => (0, none)
  | some (q, some v) => if q = key then (1, some v) else (0, none)
  | some (q, none) => if q = key then (0, none) else (-1, none)

theorem activeLeafPrefixMatches_eq (past : Past) {l : ArtLeaf V} (hbuf : l.keyLen ≤ l.key.length)
    (key : List UInt8) : activeLeafPrefixMatches past l key =
      .ok (answer key (if l.bytes <+: key then some l.entry else none)) := by
  have hbl := bytes_length hbuf
  have hcmp := memcmpEq_eq past (a := l.key) (b := key) (n := min key.length l.keyLen) (by omega)
    (by omega)
  unfold activeLeafPrefixMatches
  by_cases hp : l.bytes <+: key
  · have hle := hp.length_le
    rw [hbl] at hle
    have htake : l.key.take (min key.length l.keyLen) = key.take (min key.length l.keyLen) := by
      have h := List.prefix_iff_eq_take.mp hp
      rw [hbl] at h
      rw [Nat.min_eq_right hle]
      exact h
    rw [hcmp, if_pos hp, ArtLeaf.entry]
    have heq : l.bytes = key ↔ l.keyLen = key.length := by
      constructor
      · rintro rfl; exact hbl.symm
      · intro h; exact hp.eq_of_length (hbl.trans h)
    cases hv : l.value with
    | some v => simp [bind, Except.bind, htake, answer, heq]
    | none =>
        by_cases hlt : l.keyLen < key.length
        · simp [bind, Except.bind, htake, answer, heq, hlt]
          omega
        · simp [answer, heq, hlt]
          omega
  · rw [hcmp, if_neg hp]
    have hdiff : l.keyLen ≤ key.length →
        ¬ l.key.take (min key.length l.keyLen) = key.take (min key.length l.keyLen) := by
      intro hle h
      rw [Nat.min_eq_right hle] at h
      exact hp (List.prefix_iff_eq_take.mpr (by rw [hbl]; exact h))
    cases hv : l.value with
    | some v =>
        simp only [bind, Except.bind, answer]
        congr 1
        rw [if_neg]
        simp only [Bool.and_eq_true, decide_eq_true_eq, beq_iff_eq]
        exact fun h => hdiff (by omega) h.1
    | none =>
        by_cases hlt : l.keyLen < key.length
        · simp [bind, Except.bind, hdiff (by omega), answer]
        · simp [hlt, answer]

/-! ## the descent -/

/-- The leaf at which the descents of `art_search` and `art_lookup` end. -/
def findLeaf (past : Past) (key : List UInt8) : ArtNode V → (depth : Nat) →
    Except Fault (Option (ArtLeaf V))
  | .null, _ => .ok none
  | .leaf l, _ => .ok (some l)
  | .node n keys children, depth => do
      if ← prefixPasses past n key depth then
        let c ← readByte past key (depth + n.partialLen)
        match findChild n keys children c with
        | some i => findLeaf past key (children i) (depth + n.partialLen + 1)
        | none => .ok none
      else .ok none

theorem searchLoop_eq (past : Past) (key : List UInt8) (x : ArtNode V) (depth : Nat) :
    searchLoop past key x depth = (findLeaf past key x depth).bind fun
      | none => .ok none
      | some l => (leafMatches past l key).bind fun same =>
          .ok (if same then l.value else none) := by
  induction x generalizing depth with
  | null => rfl
  | leaf l => rfl
  | node n keys children ih =>
      rw [searchLoop, findLeaf, prefixPasses_eq]
      simp only [bind, Except.bind]
      split
      · cases readByte past key (depth + n.partialLen) with
        | error e => rfl
        | ok c =>
            simp only
            cases findChild n keys children c with
            | none => rfl
            | some i => exact ih i _
      · rfl

theorem lookupLoop_eq (past : Past) (key : List UInt8) (x : ArtNode V) (depth : Nat) :
    lookupLoop past key x depth = (findLeaf past key x depth).bind fun
      | none => .ok (0, none)
      | some l => activeLeafPrefixMatches past l key := by
  induction x generalizing depth with
  | null => rfl
  | leaf l => rfl
  | node n keys children ih =>
      rw [lookupLoop, findLeaf, prefixPasses_eq]
      simp only [bind, Except.bind]
      split
      · cases readByte past key (depth + n.partialLen) with
        | error e => rfl
        | ok c =>
            simp only
            cases findChild n keys children c with
            | none => rfl
            | some i => exact ih i _
      · rfl

/-- A key that continues below a node's slot agrees with the node. -/
theorem below_slot {path c key : List UInt8} {b : UInt8} (h : path ++ c ++ [b] <+: key) :
    c <+: key.drop path.length ∧ path.length + c.length < key.length ∧
      ∀ past : Past, readByte past key (path.length + c.length) = .ok b := by
  obtain ⟨t, rfl⟩ := h
  refine ⟨?_, by simp, fun past => ?_⟩
  · rw [List.append_assoc, List.append_assoc, List.drop_left]
    exact List.prefix_append _ _
  · rw [readByte_lt past (by simp)]
    simp

/-- The byte of the slot. -/
theorem getElem?_below_slot {path c key : List UInt8} {b : UInt8} (h : path ++ c ++ [b] <+: key) :
    key[path.length + c.length]? = some b := by
  obtain ⟨t, rfl⟩ := h
  rw [← List.length_append, List.append_assoc, List.getElem?_append_right le_rfl]
  simp

/-- The descent reaches the leaf whose key is a prefix of the searched one,
and reads no byte past the end of the searched key. -/
theorem findLeaf_of_prefix (past : Past) {key path : List UInt8} {x : ArtNode V}
    (h : WF path x) {e : List UInt8 × Option V} (he : e ∈ entries x) (hk : e.1 <+: key) :
    ∃ l, findLeaf past key x path.length = .ok (some l) ∧ l.entry = e ∧
      l.keyLen ≤ l.key.length := by
  induction h with
  | leaf hlen hpath =>
      rename_i l
      exact ⟨l, rfl, (List.mem_singleton.mp he).symm, hlen⟩
  | @node path n keys children c hl htwo hlen hstored hchild ih =>
      obtain ⟨b, i, hi, hex⟩ := (mem_entries_node hl.toMatching).mp he
      obtain ⟨hc, -, hread⟩ := below_slot (((hchild b i hi).starts_with e hex).trans hk)
      obtain ⟨l, hl1, hl2, hl3⟩ := ih b i hi hex
      refine ⟨l, ?_, hl2, hl3⟩
      have hpass : n.stored <+: key.drop path.length := by
        rw [hstored]; exact (List.take_prefix _ _).trans hc
      rw [findLeaf, prefixPasses_eq, ← hlen, hread]
      simp only [bind, Except.bind, hpass, decide_true, if_true,
        hl.findChild_eq_some_iff.mpr hi]
      simpa [Nat.add_assoc] using hl1

/-- A leaf at which the descent ends is a leaf of the subtree. -/
theorem findLeaf_mem {past : Past} {key path : List UInt8} {x : ArtNode V} (h : WF path x)
    {depth : Nat} {l : ArtLeaf V} (hl : findLeaf past key x depth = .ok (some l)) :
    l.entry ∈ entries x ∧ l.keyLen ≤ l.key.length := by
  induction h generalizing depth with
  | leaf hlen hpath =>
      cases hl
      exact ⟨by simp, hlen⟩
  | @node path n keys children c hly htwo hlen hstored hchild ih =>
      rw [findLeaf, prefixPasses_eq] at hl
      simp only [bind, Except.bind] at hl
      split at hl
      · cases hread : readByte past key (depth + n.partialLen) with
        | error e => simp [hread] at hl
        | ok a =>
            cases hf : findChild n keys children a with
            | none => simp [hread, hf] at hl
            | some i =>
                simp only [hread, hf] at hl
                have hi := hly.findChild_eq_some_iff.mp hf
                obtain ⟨he, hbuf⟩ := ih a i hi hl
                exact ⟨(mem_entries_node hly.toMatching).mpr ⟨a, i, hi, he⟩, hbuf⟩
      · simp at hl

/-- Whatever is read past the end of the key, the descent ends at a leaf of
the subtree or nowhere. -/
theorem findLeaf_lenient (mem : Nat → UInt8) (key : List UInt8) {path : List UInt8}
    {x : ArtNode V} (h : WF path x) (depth : Nat) :
    ∃ r, findLeaf (Past.lenient mem) key x depth = .ok r ∧
      ∀ l ∈ r, l.entry ∈ entries x ∧ l.keyLen ≤ l.key.length := by
  suffices hrun : ∃ r, findLeaf (Past.lenient mem) key x depth = .ok r by
    obtain ⟨r, hr⟩ := hrun
    exact ⟨r, hr, fun l hl => findLeaf_mem h (Option.mem_def.mp hl ▸ hr)⟩
  induction h generalizing depth with
  | leaf hlen hpath => exact ⟨_, rfl⟩
  | @node path n keys children c hl htwo hlen hstored hchild ih =>
      rw [findLeaf, prefixPasses_eq]
      simp only [bind, Except.bind, readByte_lenient]
      split
      · cases hf : findChild n keys children ((key[depth + n.partialLen]?).getD
            (mem (depth + n.partialLen))) with
        | none => exact ⟨none, rfl⟩
        | some i => exact ih _ i (hl.findChild_eq_some_iff.mp hf) _
      · exact ⟨none, rfl⟩

/-! ## search and lookup on a whole tree -/

/-- The tree is empty or well formed from its root. -/
def ArtTree.WF (t : ArtTree V) : Prop := t.root = .null ∨ LightQuery.WF [] t.root

theorem ArtTree.WF.prefixFree {t : ArtTree V} (h : t.WF) : PrefixFree (entries t.root) := by
  rcases h with h | h
  · rw [h]; exact List.Pairwise.nil
  · exact h.prefixFree

/-- The value that an entry whose key is a prefix of the searched one gives. -/
def found (key : List UInt8) : Option (List UInt8 × Option V) → Option V
  | none => none
  | some (q, v) => if q = key then v else none

/-- **`art_lookup` asks for the only entry above the key**, whatever a read
past the end of the key yields. -/
theorem artLookup_eq {t : ArtTree V} (h : t.WF) (mem : Nat → UInt8) (key : List UInt8) :
    artLookup (Past.lenient mem) t key = .ok (answer key (locate (entries t.root) key)) := by
  rw [artLookup, lookupLoop_eq]
  rcases h with h | h
  · rw [h]; rfl
  · cases hloc : locate (entries t.root) key with
    | some e =>
        obtain ⟨he, hk⟩ := h.prefixFree.locate_eq_some_iff.mp hloc
        obtain ⟨l, hl, rfl, hbuf⟩ := findLeaf_of_prefix (Past.lenient mem) h he hk
        rw [List.length_nil] at hl
        rw [hl]
        simp only [Except.bind, activeLeafPrefixMatches_eq _ hbuf]
        rw [if_pos (show l.bytes <+: key from hk)]
    | none =>
        obtain ⟨r, hr, hmem⟩ := findLeaf_lenient mem key h 0
        rw [hr]
        cases r with
        | none => rfl
        | some l =>
            obtain ⟨he, hbuf⟩ := hmem l rfl
            simp only [Except.bind, activeLeafPrefixMatches_eq _ hbuf]
            rw [if_neg (show ¬ l.bytes <+: key from locate_eq_none_iff.mp hloc l.entry he)]

/-- **`art_search` asks for the same entry**, and wants its whole key. -/
theorem artSearch_eq {t : ArtTree V} (h : t.WF) (mem : Nat → UInt8) (key : List UInt8) :
    artSearch (Past.lenient mem) t key = .ok (found key (locate (entries t.root) key)) := by
  rw [artSearch, searchLoop_eq]
  rcases h with h | h
  · rw [h]; rfl
  · cases hloc : locate (entries t.root) key with
    | some e =>
        obtain ⟨he, hk⟩ := h.prefixFree.locate_eq_some_iff.mp hloc
        obtain ⟨l, hl, rfl, hbuf⟩ := findLeaf_of_prefix (Past.lenient mem) h he hk
        rw [List.length_nil] at hl
        rw [hl]
        by_cases heq : l.bytes = key <;>
          simp [Except.bind, leafMatches_eq _ hbuf, found, ArtLeaf.entry, heq]
    | none =>
        obtain ⟨r, hr, hmem⟩ := findLeaf_lenient mem key h 0
        rw [hr]
        cases r with
        | none => rfl
        | some l =>
            obtain ⟨he, hbuf⟩ := hmem l rfl
            have hne : ¬ l.bytes = key := fun heq =>
              locate_eq_none_iff.mp hloc l.entry he (heq ▸ List.prefix_rfl)
            simp [Except.bind, leafMatches_eq _ hbuf, found, hne]

end LightQuery
