import LightQuery.Art.Delete
import LightQuery.Art.Iter

/-!
# LightQuery.Art.DeletePrefix

`art_delete_prefix`.

It compares the whole key at a root leaf, reads past the end of a prefix that
ends in the root's compressed path, compares the compressed path of a child one
byte too early, and takes a leaf that does not match for an inner node.
`Clears` says for which prefixes none of this shows, and
`artDeletePrefix_of_clears` and `clears_of_count` that these are exactly the
ones it removes right.
-/

namespace LightQuery

open CArray CommonPrefix PrefixFamily

variable {V : Type} {n : Header} {keys : Nat → UInt8} {children : Nat → ArtNode V}

/-! ## art_delete_prefix -/

/-- The loop of `art_delete_prefix`: the new `*ref` and the number of leaves
freed. -/
def deletePrefixLoop (past : Past) (key : List UInt8) : ArtNode V → (depth : Nat) →
    Except Fault (ArtNode V × Nat)
  | .null, _ => .ok (.null, 0)
  | .leaf _, _ => .error .leafAsNode
  | .node n keys children, depth => do
      let c ← readByte past key depth
      match findChild n keys children c with
      | none => .ok (.node n keys children, 0)
      | some i =>
          let removed := (removeChild n keys children c i, destroyNode (children i))
          if depth + 1 = key.length then .ok removed
          else
            match children i with
            | .null => .error .nullNode
            | .leaf l =>
                -- a leaf that does not match is read on as an inner node
                if ← leafPrefixMatches past l key then .ok removed else .error .leafAsNode
            | .node m ks ch =>
                if m.partialLen = 0 then
                  let (x, ret) ← deletePrefixLoop past key (children i) (depth + 1)
                  .ok (.node n keys (Function.update children i x), ret)
                else
                  let prefixLen ← prefixMismatch past m ks ch key depth
                  let prefixLen := min prefixLen m.partialLen
                  if depth + prefixLen < key.length then .ok (.node n keys children, 0)
                  else if depth + prefixLen = key.length then .ok removed
                  else
                    let (x, ret) ← deletePrefixLoop past key (children i) (depth + n.partialLen + 1)
                    .ok (.node n keys (Function.update children i x), ret)

/-- `art_delete_prefix`, called with depth 0. -/
def artDeletePrefix (past : Past) (t : ArtTree V) (key : List UInt8) :
    Except Fault (ArtTree V × Nat) :=
  match t.root with
  | .null => .ok (t, 0)
  | .leaf l => do
      if ← leafMatches past l key then .ok (⟨.null, t.size - 1⟩, 1) else .ok (t, 0)
  | .node n keys children => do
      if ← prefixPasses past n key 0 then
        let (root, ret) ← deletePrefixLoop past key (.node n keys children) n.partialLen
        .ok (⟨root, t.size - ret⟩, ret)
      else .ok (t, 0)

/-! ## the comparison that starts too early -/

/-- The bytes `q` of the prefix, from the slot byte `b` on, pass for a front of
the child's compressed path `c`: the first ten are compared with `c`, one byte
off, and the others, at their right place, with a leaf. -/
def TakenFor (q : List UInt8) (b : UInt8) (c : List UInt8) : Prop :=
  q.length ≤ c.length ∧ q.take maxPrefixLen <+: c ∧
    q.drop maxPrefixLen <+: (b :: c).drop maxPrefixLen

instance (q : List UInt8) (b : UInt8) (c : List UInt8) : Decidable (TakenFor q b c) :=
  inferInstanceAs (Decidable (_ ∧ _ ∧ _))

/-- The bytes after the stored ones are compared with those of a leaf `b c t`
below the child; what comes after its path does not matter. -/
theorem rest_prefix_iff {q c t : List UInt8} {b : UInt8} {idx : Nat} (hle : q.length ≤ c.length)
    (hidx : idx ≤ maxPrefixLen) (hfront : min maxPrefixLen q.length ≤ idx) :
    q.drop idx <+: ((b :: c) ++ t).drop idx ↔
      q.drop maxPrefixLen <+: (b :: c).drop maxPrefixLen := by
  rcases Nat.lt_or_ge maxPrefixLen q.length with h | h
  · obtain rfl : idx = maxPrefixLen := by omega
    rw [List.drop_append_of_le_length (by rw [List.length_cons]; omega)]
    constructor
    · intro hp
      refine List.prefix_of_prefix_length_le hp (List.prefix_append _ _) ?_
      simp only [List.length_drop, List.length_cons]
      omega
    · exact fun hp => hp.trans (List.prefix_append _ _)
  · rw [List.drop_eq_nil_of_le h, List.drop_eq_nil_of_le (by omega)]
    exact iff_of_true List.nil_prefix List.nil_prefix

/-- A path that is stored whole, or a difference in its stored bytes. -/
theorem takenFor_iff_stored {q c : List UInt8} (b : UInt8)
    (h : c.length ≤ maxPrefixLen ∨ lcp c q < min maxPrefixLen q.length) :
    min (min maxPrefixLen (lcp c q)) c.length = q.length ↔ TakenFor q b c := by
  have hle := lcp_le_right c q
  rw [TakenFor, take_prefix_iff_le_lcp]
  constructor
  · intro heq
    refine ⟨by omega, by omega, ?_⟩
    rw [List.drop_eq_nil_of_le (by omega)]
    exact List.nil_prefix
  · rintro ⟨h1, h2, -⟩
    omega

/-- A path that goes on after its stored bytes, which agree. -/
theorem takenFor_iff_long {q c t : List UInt8} {b : UInt8} {idx : Nat}
    (hidx : idx = min maxPrefixLen (lcp c q)) (hlong : maxPrefixLen < c.length)
    (hfront : min maxPrefixLen q.length ≤ lcp c q) :
    min (idx + lcp (((b :: c) ++ t).drop idx) (q.drop idx)) c.length = q.length ↔
      TakenFor q b c := by
  have hle := lcp_le_right c q
  have hrest := lcp_le_right (((b :: c) ++ t).drop idx) (q.drop idx)
  have hall : q.drop idx <+: ((b :: c) ++ t).drop idx ↔
      (q.drop idx).length ≤ lcp (((b :: c) ++ t).drop idx) (q.drop idx) := by
    rw [← length_le_lcp_iff, lcp_comm]
  rw [List.length_drop] at hall hrest
  rw [TakenFor, take_prefix_iff_le_lcp]
  constructor
  · intro heq
    have hqc : q.length ≤ c.length := by omega
    refine ⟨hqc, hfront, ?_⟩
    rw [← rest_prefix_iff hqc (show idx ≤ maxPrefixLen by omega) (by omega), hall]
    omega
  · rintro ⟨hqc, -, h3⟩
    rw [← rest_prefix_iff hqc (show idx ≤ maxPrefixLen by omega) (by omega), hall] at h3
    omega

/-- `prefix_mismatch` on a child at the depth of its parent's slot byte. -/
theorem prefixMismatch_early (past : Past) {key path c : List UInt8} {b : UInt8}
    (hlen : c.length = n.partialLen) (hstored : n.stored = c.take maxPrefixLen) {l : ArtLeaf V}
    (hmin : minimum (.node n keys children) = some l) (hbuf : l.keyLen ≤ l.key.length)
    (hpath : path ++ [b] ++ c <+: l.bytes) (hlt : path.length < key.length) :
    ∃ r, prefixMismatch past n keys children key path.length = .ok r ∧
      path.length + min r n.partialLen ≤ key.length ∧
      (path.length + min r n.partialLen = key.length ↔ TakenFor (key.drop path.length) b c) := by
  set depth := path.length with hdepth
  set q := key.drop depth with hq
  have hd : q.length = key.length - depth := List.length_drop ..
  have hle := lcp_le_right c q
  have hlec := lcp_le_left c q
  -- the end of the key and the end of `q` are the same place
  have hend : ∀ r, depth + r = key.length ↔ r = q.length := fun r => by omega
  rw [prefixMismatch, stored_mismatch_eq past hlen hstored, ← hq]
  simp only [bind, Except.bind, hmin, ← hlen]
  split
  · next hstop =>
      refine ⟨_, rfl, by omega, ?_⟩
      rw [hend]
      exact takenFor_iff_stored b (.inr (by omega))
  · next hagree =>
      split
      · next hlong =>
          rw [leaf_mismatch_from past hbuf]
          set idx := min maxPrefixLen (lcp c q) with hidx
          have hright := lcp_le_right (l.bytes.drop (depth + idx)) (key.drop (depth + idx))
          rw [List.length_drop] at hright
          refine ⟨_, rfl, by omega, ?_⟩
          -- past the tenth byte the leaf is compared at its right place
          obtain ⟨t, ht⟩ := hpath
          have hdrop : l.bytes.drop (depth + idx) = ((b :: c) ++ t).drop idx := by
            rw [← ht, ← List.drop_drop, List.append_assoc, List.append_assoc, List.drop_left]
            simp
          rw [hend, hdrop, ← List.drop_drop, ← hq]
          exact takenFor_iff_long hidx hlong (by omega)
      · next hshort =>
          refine ⟨_, rfl, by omega, ?_⟩
          rw [hend]
          exact takenFor_iff_stored b (.inl (by omega))

/-! ## the prefixes that are removed right -/

/-- Below a node whose whole path, its compressed path included, is `path`: the
prefix selects no child, or it ends at the slot byte and has the node's path, or
it selects a leaf that starts with it, or it goes on to a child without a
compressed path, or the comparison with the child's path comes out right. -/
def ClearsBelow (p : List UInt8) : List UInt8 → ArtNode V → Prop
  | _, .null => True
  | _, .leaf _ => True
  | path, .node n keys children => ∀ b i, p[path.length]? = some b → Slot n keys children b i →
      if path.length + 1 = p.length then path <+: p
      else
        match children i with
        | .null => True
        | .leaf l => p <+: l.bytes
        | .node m ks ch =>
            if m.partialLen = 0 then ClearsBelow p (path ++ [b]) (children i)
            else
              let c := compressed (path ++ [b]) m ks ch
              (TakenFor (p.drop path.length) b c ∧ p <+: path ++ [b] ++ c) ∨
                (¬ TakenFor (p.drop path.length) b c ∧ below (entries (children i)) p = [])

/-- The condition under which `art_delete_prefix` does what it says, at the
root: a leaf does not go on below `p`; a node differs from `p` in the first ten
bytes of its compressed path and not only by being longer, or `p` goes on below
the path. -/
def Clears (p : List UInt8) : ArtNode V → Prop
  | .null => True
  | .leaf l => p <+: l.bytes → l.bytes = p
  | .node n keys children =>
      let c := compressed [] n keys children
      if n.stored <+: p then c.length < p.length ∧ ClearsBelow p c (.node n keys children)
      else ¬ p <+: c

/-- What the loop has to do. -/
def LoopExact (p path : List UInt8) (x : ArtNode V) (depth : Nat) : Prop :=
  ∃ x', deletePrefixLoop Past.strict p x depth = .ok (x', (below (entries x) p).length) ∧
    WF path x' ∧ (entries x').Perm (prune (entries x) p)

/-- The loop frees as many leaves as are below the prefix. -/
def LoopCounts (p : List UInt8) (x : ArtNode V) (depth : Nat) : Prop :=
  ∃ x', deletePrefixLoop Past.strict p x depth = .ok (x', (below (entries x) p).length)

/-- `q` is the path of the node `x` below `path`, its compressed path included. -/
def WholePath (path q : List UInt8) : ArtNode V → Prop
  | .node n keys children => q = path ++ compressed path n keys children
  | _ => False

theorem length_snoc (path : List UInt8) (b : UInt8) : (path ++ [b]).length = path.length + 1 := by
  rw [List.length_append, List.length_singleton]

theorem compressed_eq_nil {path : List UInt8} (hz : n.partialLen = 0) :
    compressed path n keys children = [] := by
  unfold compressed
  cases minimum (.node n keys children) <;> simp [hz]

/-- The entries below the prefix, where it selects a slot. -/
theorem length_below_node {path c p : List UInt8} {b : UInt8} {i : Nat}
    (hl : Layout n keys children)
    (hchild : ∀ b i, Slot n keys children b i → WF (path ++ c ++ [b]) (children i))
    (hb : p[(path ++ c).length]? = some b) (hi : Slot n keys children b i) :
    (below (entries (.node n keys children)) p).length =
      (below (entries (children i)) p).length := by
  rw [List.length_append] at hb
  have := (below_node_perm hl hchild hb).length_eq
  rwa [hl.childAt_of_slot hi] at this

/-- The entries that are not below the prefix, where it selects a slot. -/
theorem prune_node_perm {path c p : List UInt8} {b : UInt8} {i : Nat} (hl : Layout n keys children)
    (hchild : ∀ b i, Slot n keys children b i → WF (path ++ c ++ [b]) (children i))
    (hb : p[(path ++ c).length]? = some b) (hi : Slot n keys children b i) :
    (prune (entries (.node n keys children)) p).Perm
      (prune (entries (children i)) p ++
        mapEntries (Function.update (childAt n keys children) b none)) := by
  rw [List.length_append] at hb
  refine (prune_perm (entries_node_slot hl hi) p).trans (List.Perm.of_eq ?_)
  rw [prune_append, prune_eq_self fun e he => not_below_other_slot hl hchild hb he]

/-- Removing a child is exact if all its entries are below the prefix. -/
theorem removed_exact {path c p : List UInt8} {b : UInt8} {i : Nat} (hl : Layout n keys children)
    (htwo : 2 ≤ degree n keys children) (hlen : c.length = n.partialLen)
    (hstored : n.stored = c.take maxPrefixLen)
    (hchild : ∀ b i, Slot n keys children b i → WF (path ++ c ++ [b]) (children i))
    (hb : p[(path ++ c).length]? = some b) (hi : Slot n keys children b i)
    (hall : ∀ e ∈ entries (children i), p <+: e.1) :
    destroyNode (children i) = (below (entries (.node n keys children)) p).length ∧
      WF path (removeChild n keys children b i) ∧
      (entries (removeChild n keys children b i)).Perm
        (prune (entries (.node n keys children)) p) := by
  obtain ⟨hwf, hperm⟩ := removeChild_wf hl htwo hlen hstored hchild hi
  refine ⟨?_, hwf, hperm.trans ?_⟩
  · rw [destroyNode_eq, length_below_node hl hchild hb hi, below_eq_self hall]
  · have := prune_node_perm hl hchild hb hi
    rw [prune_eq_nil hall, List.nil_append] at this
    exact this.symm

/-- A family with as many entries below a prefix as it has entries is below it. -/
theorem forall_of_length_below {F : List (List UInt8 × Option V)} {p : List UInt8}
    (h : F.length = (below F p).length) : ∀ e ∈ F, p <+: e.1 := by
  have := List.length_filter_eq_length_iff.mp h.symm
  intro e he
  simpa using this e he

/-- A node with two children has one at another byte. -/
theorem exists_slot_ne (hm : Matching n keys children) (htwo : 2 ≤ degree n keys children)
    (b : UInt8) : ∃ b' i, Slot n keys children b' i ∧ b' ≠ b := by
  have hnd := hm.nodup_childOrder
  unfold degree at htwo
  cases hord : childOrder n keys children with
  | nil => rw [hord] at htwo; simp at htwo
  | cons i rest =>
      cases rest with
      | nil => rw [hord] at htwo; simp at htwo
      | cons j rest =>
          rw [hord] at hnd
          have hij : i ≠ j := by
            simp only [List.nodup_cons, List.mem_cons, not_or] at hnd
            exact hnd.1.1
          obtain ⟨bi, hbi⟩ := mem_childOrder.mp (show i ∈ childOrder n keys children by simp [hord])
          obtain ⟨bj, hbj⟩ := mem_childOrder.mp (show j ∈ childOrder n keys children by simp [hord])
          by_cases hb : bi = b
          · refine ⟨bj, j, hbj, fun h => hij (hm.slot hbi ?_)⟩
            rw [hb, ← h]
            exact hbj
          · exact ⟨bi, i, hbi, hb⟩

/-- Below an inner node all entries start with `p` only where the path does. -/
theorem forall_prefix_iff {path c p : List UInt8} (hl : Layout n keys children)
    (htwo : 2 ≤ degree n keys children) (hlen : c.length = n.partialLen)
    (hstored : n.stored = c.take maxPrefixLen)
    (hchild : ∀ b i, Slot n keys children b i → WF (path ++ c ++ [b]) (children i)) :
    (∀ e ∈ entries (.node n keys children), p <+: e.1) ↔ p <+: path ++ c := by
  constructor
  · intro hall
    by_contra hp
    -- a longer prefix selects one slot, and the node has another one
    obtain ⟨e, he⟩ := List.exists_mem_of_ne_nil _
      (WF.node c hl htwo hlen hstored hchild).entries_ne_nil
    rcases List.prefix_or_prefix_of_prefix (hall e he) (WF.compressed hl hchild e he) with h | h
    · exact hp h
    · have hlt : (path ++ c).length < p.length :=
        lt_of_le_of_ne h.length_le fun heq => hp (h.eq_of_length heq ▸ List.prefix_rfl)
      rw [List.length_append] at hlt
      have hb := List.getElem?_eq_getElem hlt
      -- the entries of another child do not go through the slot of `p`
      obtain ⟨b', j, hj, hne⟩ := exists_slot_ne hl.toMatching htwo p[path.length + c.length]
      obtain ⟨e', he'⟩ := List.exists_mem_of_ne_nil _ (hchild b' j hj).entries_ne_nil
      have hmem : e' ∈ mapEntries (Function.update (childAt n keys children)
          p[path.length + c.length] none) := mem_mapEntries.mpr
          ⟨b', _, by rw [Function.update_of_ne hne]; exact hl.childAt_of_slot hj, he'⟩
      refine not_below_other_slot hl hchild hb hmem (hall e' ?_)
      exact (mem_entries_node hl.toMatching).mpr ⟨b', j, hj, he'⟩
  · exact fun hp e he => hp.trans (WF.compressed hl hchild e he)

/-- All entries of a node go through its compressed path. -/
theorem compressed_le {path : List UInt8} (h : WF path (.node n keys children)) :
    ∀ e ∈ entries (.node n keys children), path ++ compressed path n keys children <+: e.1 := by
  cases h with
  | node c hl htwo hlen hstored hchild =>
      have hpath := WF.compressed hl hchild
      rw [compressed_eq hlen (.node c hl htwo hlen hstored hchild) hpath]
      exact hpath

/-- A prefix that all entries of a node start with ends in its path. -/
theorem prefix_compressed {path p : List UInt8} (h : WF path (.node n keys children))
    (hall : ∀ e ∈ entries (.node n keys children), p <+: e.1) :
    p <+: path ++ compressed path n keys children := by
  cases h with
  | node c hl htwo hlen hstored hchild =>
      rw [compressed_eq hlen (.node c hl htwo hlen hstored hchild) (WF.compressed hl hchild)]
      exact (forall_prefix_iff hl htwo hlen hstored hchild).mp hall

/-- The compressed path has the length that the node records. -/
theorem length_compressed {path : List UInt8} (h : WF path (.node n keys children)) :
    (compressed path n keys children).length = n.partialLen := by
  cases h with
  | node c hl htwo hlen hstored hchild =>
      rw [compressed_eq hlen (.node c hl htwo hlen hstored hchild) (WF.compressed hl hchild), hlen]

/-! ## the loop -/

/-- What the loop does at the slot that the prefix selects. -/
theorem deletePrefixLoop_slot (past : Past) {p : List UInt8} {depth i : Nat} {b : UInt8}
    (hl : Layout n keys children) (hb : p[depth]? = some b) (hi : Slot n keys children b i) :
    deletePrefixLoop past p (.node n keys children) depth =
      if depth + 1 = p.length then
        .ok (removeChild n keys children b i, destroyNode (children i))
      else
        match children i with
        | .null => .error .nullNode
        | .leaf l =>
            (leafPrefixMatches past l p).bind fun same =>
              if same then .ok (removeChild n keys children b i, destroyNode (children i))
              else .error .leafAsNode
        | .node m ks ch =>
            if m.partialLen = 0 then
              (deletePrefixLoop past p (children i) (depth + 1)).bind fun r =>
                .ok (.node n keys (Function.update children i r.1), r.2)
            else
              (prefixMismatch past m ks ch p depth).bind fun prefixLen =>
                if depth + min prefixLen m.partialLen < p.length then
                  .ok (.node n keys children, 0)
                else if depth + min prefixLen m.partialLen = p.length then
                  .ok (removeChild n keys children b i, destroyNode (children i))
                else
                  (deletePrefixLoop past p (children i) (depth + n.partialLen + 1)).bind fun r =>
                    .ok (.node n keys (Function.update children i r.1), r.2) := by
  have hread : readByte past p depth = .ok b := by simp [readByte, hb]
  rw [deletePrefixLoop, hread]
  simp only [bind, Except.bind, hl.findChild_eq_some_iff.mpr hi]

theorem deletePrefixLoop_none (past : Past) {p : List UInt8} {depth : Nat} {b : UInt8}
    (hb : p[depth]? = some b) (hf : findChild n keys children b = none) :
    deletePrefixLoop past p (.node n keys children) depth = .ok (.node n keys children, 0) := by
  have hread : readByte past p depth = .ok b := by simp [readByte, hb]
  rw [deletePrefixLoop, hread]
  simp only [bind, Except.bind, hf]

/-- At a leaf: it is freed if it starts with the prefix. -/
theorem deletePrefixLoop_leaf (past : Past) {p : List UInt8} {depth i : Nat} {b : UInt8}
    (hl : Layout n keys children) (hb : p[depth]? = some b) (hi : Slot n keys children b i)
    (hend : depth + 1 ≠ p.length) {l : ArtLeaf V} (hci : children i = .leaf l)
    (hbuf : l.keyLen ≤ l.key.length) :
    deletePrefixLoop past p (.node n keys children) depth =
      if p <+: l.bytes then .ok (removeChild n keys children b i, destroyNode (children i))
      else .error .leafAsNode := by
  rw [deletePrefixLoop_slot past hl hb hi, if_neg hend]
  simp only [hci, leafPrefixMatches_eq _ hbuf, Except.bind, decide_eq_true_eq]

/-- At a child without a compressed path: it goes on there. -/
theorem deletePrefixLoop_inline (past : Past) {p : List UInt8} {depth i : Nat} {b : UInt8}
    (hl : Layout n keys children) (hb : p[depth]? = some b) (hi : Slot n keys children b i)
    (hend : depth + 1 ≠ p.length) {m : Header} {ks : Nat → UInt8} {ch : Nat → ArtNode V}
    (hci : children i = .node m ks ch) (hz : m.partialLen = 0) :
    deletePrefixLoop past p (.node n keys children) depth =
      (deletePrefixLoop past p (children i) (depth + 1)).bind fun r =>
        .ok (.node n keys (Function.update children i r.1), r.2) := by
  rw [deletePrefixLoop_slot past hl hb hi, if_neg hend]
  simp only [hci, if_pos hz]

/-- At a child with a compressed path: it is freed if the rest of the prefix
passes for a front of that path. -/
theorem deletePrefixLoop_compressed (past : Past) {q p : List UInt8} {i : Nat} {b : UInt8}
    (hl : Layout n keys children) (hb : p[q.length]? = some b) (hi : Slot n keys children b i)
    (hend : q.length + 1 ≠ p.length) {m : Header} {ks : Nat → UInt8} {ch : Nat → ArtNode V}
    (hci : children i = .node m ks ch) (hz : m.partialLen ≠ 0)
    (hwf : WF (q ++ [b]) (.node m ks ch)) :
    deletePrefixLoop past p (.node n keys children) q.length =
      if TakenFor (p.drop q.length) b (compressed (q ++ [b]) m ks ch) then
        .ok (removeChild n keys children b i, destroyNode (children i))
      else .ok (.node n keys children, 0) := by
  have hlt : q.length < p.length := (List.getElem?_eq_some_iff.mp hb).1
  rw [deletePrefixLoop_slot past hl hb hi, if_neg hend]
  simp only [hci, if_neg hz]
  obtain ⟨l, hmin, hmem, hbuf⟩ := hwf.minimum_spec
  cases hwf with
  | node c hlm htwo hlen hstored hchild =>
      have hpath := WF.compressed hlm hchild
      rw [compressed_eq hlen (.node c hlm htwo hlen hstored hchild) hpath]
      obtain ⟨r, hr, hle, hiff⟩ :=
        prefixMismatch_early past hlen hstored hmin hbuf (hpath _ hmem) hlt
      rw [hr]
      simp only [Except.bind]
      by_cases htaken : TakenFor (p.drop q.length) b c
      · have heq := hiff.mpr htaken
        rw [if_neg (by omega), if_pos heq, if_pos htaken]
      · have hne := mt hiff.mp htaken
        rw [if_pos (by omega), if_neg htaken]

theorem wholePath_eq {path q c : List UInt8} (hwf : WF path (.node n keys children))
    (hlen : c.length = n.partialLen)
    (hpath : ∀ e ∈ entries (.node n keys children), path ++ c <+: e.1)
    (hq : WholePath path q (.node n keys children)) : q = path ++ c := by
  rw [WholePath, compressed_eq hlen hwf hpath] at hq
  exact hq

theorem wholePath_self (q : List UInt8) (hz : n.partialLen = 0) :
    WholePath q q (.node n keys children) := by
  rw [WholePath, compressed_eq_nil hz, List.append_nil]

/-! ## under its condition the loop is exact -/

/-- Nothing has to be removed where nothing is below the prefix. -/
theorem loopExact_of_nil {path p : List UInt8} {x : ArtNode V} {depth : Nat} (hwf : WF path x)
    (hloop : deletePrefixLoop Past.strict p x depth = .ok (x, 0))
    (hnil : below (entries x) p = []) : LoopExact p path x depth := by
  refine ⟨x, by rw [hloop, hnil]; rfl, hwf, ?_⟩
  rw [prune_eq_self_of_below hnil]

section Slot

variable {path c p : List UInt8} {b : UInt8} {i : Nat}

/-- A child is freed right if all its entries are below the prefix. -/
theorem loopExact_of_removed (hl : Layout n keys children) (htwo : 2 ≤ degree n keys children)
    (hlen : c.length = n.partialLen) (hstored : n.stored = c.take maxPrefixLen)
    (hchild : ∀ b i, Slot n keys children b i → WF (path ++ c ++ [b]) (children i))
    (hb : p[(path ++ c).length]? = some b) (hi : Slot n keys children b i)
    (hloop : deletePrefixLoop Past.strict p (.node n keys children) (path ++ c).length =
      .ok (removeChild n keys children b i, destroyNode (children i)))
    (hall : ∀ e ∈ entries (children i), p <+: e.1) :
    LoopExact p path (.node n keys children) (path ++ c).length := by
  obtain ⟨hcount, hwf, hperm⟩ := removed_exact hl htwo hlen hstored hchild hb hi hall
  exact ⟨_, by rw [hloop, hcount], hwf, hperm⟩

/-- The loop is exact at a node if it is at the child that it goes on to. -/
theorem loopExact_of_child (hl : Layout n keys children) (htwo : 2 ≤ degree n keys children)
    (hlen : c.length = n.partialLen) (hstored : n.stored = c.take maxPrefixLen)
    (hchild : ∀ b i, Slot n keys children b i → WF (path ++ c ++ [b]) (children i))
    (hb : p[(path ++ c).length]? = some b) (hi : Slot n keys children b i)
    (hloop : deletePrefixLoop Past.strict p (.node n keys children) (path ++ c).length =
      (deletePrefixLoop Past.strict p (children i) ((path ++ c).length + 1)).bind fun r =>
        .ok (.node n keys (Function.update children i r.1), r.2))
    (hx : LoopExact p (path ++ c ++ [b]) (children i) ((path ++ c).length + 1)) :
    LoopExact p path (.node n keys children) (path ++ c).length := by
  obtain ⟨x, hrun, hxwf, hxperm⟩ := hx
  obtain ⟨hwf, hperm⟩ := WF.replaceChild hl htwo hlen hstored hchild hi hxwf
  refine ⟨_, ?_, hwf, ?_⟩
  · rw [hloop, hrun, length_below_node hl hchild hb hi]
    rfl
  · refine hperm.trans ((hxperm.append_right _).trans ?_)
    exact (prune_node_perm hl hchild hb hi).symm

/-- The prefix selects no child: nothing is below it. -/
theorem below_eq_nil_of_findChild (hl : Layout n keys children)
    (hchild : ∀ b i, Slot n keys children b i → WF (path ++ c ++ [b]) (children i))
    (hb : p[(path ++ c).length]? = some b) (hf : findChild n keys children b = none) :
    below (entries (.node n keys children)) p = [] := by
  have hnone : childAt n keys children b = none := by rw [childAt, hf]; rfl
  rw [List.length_append] at hb
  have := below_node_perm hl hchild hb
  rw [hnone] at this
  exact this.eq_nil

/-- A prefix that ends at the slot byte of a node on its path is the path of the
child. -/
theorem eq_snoc_of_end (hq : path ++ c <+: p) (hb : p[(path ++ c).length]? = some b)
    (hend : (path ++ c).length + 1 = p.length) : p = path ++ c ++ [b] := by
  rw [List.length_append] at hb
  exact ((take_snoc_le hq hb).eq_of_length (by rw [length_snoc, hend])).symm

end Slot

/-- **Under its condition the loop removes the prefix exactly.** -/
theorem loopExact_of_clears {path q p : List UInt8} {x : ArtNode V} (h : WF path x)
    (hq : WholePath path q x) (hlt : q.length < p.length) (hcl : ClearsBelow p q x) :
    LoopExact p path x q.length := by
  induction h generalizing q with
  | leaf hbuf hpath => exact absurd hq id
  | @node path n keys children c hl htwo hlen hstored hchild ih =>
      have hwf : WF path (.node n keys children) := .node c hl htwo hlen hstored hchild
      obtain rfl := wholePath_eq hwf hlen (WF.compressed hl hchild) hq
      have hb := List.getElem?_eq_getElem hlt
      cases hf : findChild n keys children p[(path ++ c).length] with
      | none =>
          exact loopExact_of_nil hwf (deletePrefixLoop_none _ hb hf)
            (below_eq_nil_of_findChild hl hchild hb hf)
      | some i =>
          have hi := hl.findChild_eq_some_iff.mp hf
          have hwfi := hchild _ i hi
          have hremoved := loopExact_of_removed hl htwo hlen hstored hchild hb hi
          have hc := hcl _ i hb hi
          by_cases hend : (path ++ c).length + 1 = p.length
          · rw [if_pos hend] at hc
            refine hremoved ?_ fun e he => ?_
            · rw [deletePrefixLoop_slot Past.strict hl hb hi, if_pos hend]
            · rw [eq_snoc_of_end hc hb hend]
              exact hwfi.starts_with e he
          · rw [if_neg hend] at hc
            cases hci : children i with
            | null => rw [hci] at hwfi; cases hwfi
            | leaf l =>
                rw [hci] at hc hwfi
                cases hwfi with
                | leaf hbuf hpath =>
                    refine hremoved ?_ fun e he => ?_
                    · rw [deletePrefixLoop_leaf _ hl hb hi hend hci hbuf, if_pos hc]
                    · rw [hci] at he
                      rw [List.mem_singleton.mp he]
                      exact hc
            | node m ks ch =>
                simp only [hci] at hc
                by_cases hz : m.partialLen = 0
                · rw [if_pos hz] at hc
                  refine loopExact_of_child hl htwo hlen hstored hchild hb hi
                    (deletePrefixLoop_inline _ hl hb hi hend hci hz) ?_
                  rw [← length_snoc]
                  refine ih _ i hi ?_ ?_ (by rw [hci]; exact hc)
                  · rw [hci]
                    exact wholePath_self _ hz
                  · rw [length_snoc]
                    omega
                · rw [if_neg hz] at hc
                  rw [hci] at hwfi
                  have hloop :=
                    deletePrefixLoop_compressed Past.strict hl hb hi hend hci hz hwfi
                  rcases hc with ⟨htaken, hp⟩ | ⟨hnot, hnil⟩
                  · rw [if_pos htaken] at hloop
                    refine hremoved hloop fun e he => ?_
                    rw [hci] at he
                    exact hp.trans (compressed_le hwfi e he)
                  · rw [if_neg hnot] at hloop
                    refine loopExact_of_nil hwf hloop (List.eq_nil_of_length_eq_zero ?_)
                    rw [length_below_node hl hchild hb hi, hci, hnil]
                    rfl

/-! ## only under its condition does the loop count right -/

/-- A child that was freed for as many entries as are below the prefix is below
it. -/
theorem forall_of_freed {p : List UInt8} {x y z : ArtNode V}
    (h : (Except.ok (y, destroyNode x) : Except Fault (ArtNode V × Nat)) =
      .ok (z, (below (entries x) p).length)) : ∀ e ∈ entries x, p <+: e.1 := by
  refine forall_of_length_below ?_
  rw [← destroyNode_eq]
  exact (Prod.mk.inj (Except.ok.inj h)).2

/-- A prefix of the length of a subtree's path is that path if an entry starts
with it. -/
theorem prefix_of_freed {q p : List UInt8} {b : UInt8} {x : ArtNode V} (hwf : WF (q ++ [b]) x)
    (hend : q.length + 1 = p.length) (hall : ∀ e ∈ entries x, p <+: e.1) : q <+: p := by
  obtain ⟨e, he⟩ := List.exists_mem_of_ne_nil _ hwf.entries_ne_nil
  have hlen : (q ++ [b]).length ≤ p.length := by rw [length_snoc, hend]
  have := List.prefix_of_prefix_length_le (hwf.starts_with e he) (hall e he) hlen
  exact (List.prefix_append _ _).trans this

/-- **Only under its condition does the loop count right.** -/
theorem clears_of_loopCounts {path q p : List UInt8} {x : ArtNode V} (h : WF path x)
    (hq : WholePath path q x) (hlt : q.length < p.length) (hcount : LoopCounts p x q.length) :
    ClearsBelow p q x := by
  induction h generalizing q with
  | leaf hbuf hpath => exact absurd hq id
  | @node path n keys children c hl htwo hlen hstored hchild ih =>
      have hwf : WF path (.node n keys children) := .node c hl htwo hlen hstored hchild
      obtain rfl := wholePath_eq hwf hlen (WF.compressed hl hchild) hq
      intro b i hb hi
      obtain ⟨x', hx'⟩ := hcount
      rw [length_below_node hl hchild hb hi] at hx'
      have hwfi := hchild b i hi
      by_cases hend : (path ++ c).length + 1 = p.length
      · rw [if_pos hend]
        rw [deletePrefixLoop_slot Past.strict hl hb hi, if_pos hend] at hx'
        exact prefix_of_freed hwfi hend (forall_of_freed hx')
      · rw [if_neg hend]
        cases hci : children i with
        | null => trivial
        | leaf l =>
            rw [hci] at hwfi
            cases hwfi with
            | leaf hbuf hpath =>
                rw [deletePrefixLoop_leaf _ hl hb hi hend hci hbuf] at hx'
                by_contra hp
                rw [if_neg hp] at hx'
                cases hx'
        | node m ks ch =>
            rw [hci] at hwfi
            by_cases hz : m.partialLen = 0
            · simp only [if_pos hz]
              rw [deletePrefixLoop_inline _ hl hb hi hend hci hz] at hx'
              cases hrec : deletePrefixLoop Past.strict p (children i)
                  ((path ++ c).length + 1) with
              | error e => rw [hrec] at hx'; cases hx'
              | ok r =>
                  rw [hrec] at hx'
                  have hret := (Prod.mk.inj (Except.ok.inj hx')).2
                  have hwhole : WholePath (path ++ c ++ [b]) (path ++ c ++ [b]) (children i) := by
                    rw [hci]
                    exact wholePath_self _ hz
                  have hlen' := length_snoc (path ++ c) b
                  have := ih b i hi hwhole (by omega) ⟨r.1, by rw [hlen', hrec, ← hret]⟩
                  rwa [hci] at this
            · simp only [if_neg hz]
              rw [deletePrefixLoop_compressed _ hl hb hi hend hci hz hwfi] at hx'
              by_cases htaken : TakenFor (p.drop (path ++ c).length) b
                  (compressed (path ++ c ++ [b]) m ks ch)
              · rw [if_pos htaken] at hx'
                have hall := forall_of_freed hx'
                rw [hci] at hall
                exact .inl ⟨htaken, prefix_compressed hwfi hall⟩
              · rw [if_neg htaken] at hx'
                refine .inr ⟨htaken, List.eq_nil_of_length_eq_zero ?_⟩
                rw [← hci]
                exact (Prod.mk.inj (Except.ok.inj hx')).2.symm

/-! ## whole trees -/

/-- A prefix that neither passes the stored bytes nor ends in the compressed
path has nothing below it. -/
theorem below_eq_nil_of_root {c p : List UInt8} (hstored : n.stored = c.take maxPrefixLen)
    (hpath : ∀ e ∈ entries (.node n keys children), c <+: e.1) (hs : ¬ n.stored <+: p)
    (hp : ¬ p <+: c) : below (entries (.node n keys children)) p = [] := by
  refine below_eq_nil fun e he hpe => ?_
  rcases List.prefix_or_prefix_of_prefix hpe (hpath e he) with h | h
  · exact hp h
  · exact hs (hstored ▸ (List.take_prefix _ _).trans h)

/-- Below the stored bytes of the root's path, the loop takes over. -/
theorem artDeletePrefix_node (past : Past) {t : ArtTree V} (ht : t.root = .node n keys children)
    (p : List UInt8) : artDeletePrefix past t p =
      if n.stored <+: p then
        (deletePrefixLoop past p (.node n keys children) n.partialLen).bind fun r =>
          .ok (⟨r.1, t.size - r.2⟩, r.2)
      else .ok (t, 0) := by
  rw [artDeletePrefix, ht]
  simp only [prefixPasses_eq, bind, Except.bind, List.drop_zero, decide_eq_true_eq]

theorem artDeletePrefix_leaf (past : Past) {t : ArtTree V} {l : ArtLeaf V} (ht : t.root = .leaf l)
    (hbuf : l.keyLen ≤ l.key.length) (p : List UInt8) : artDeletePrefix past t p =
      if l.bytes = p then .ok (⟨.null, t.size - 1⟩, 1) else .ok (t, 0) := by
  rw [artDeletePrefix, ht]
  simp only [leafMatches_eq _ hbuf, bind, Except.bind, decide_eq_true_eq]

/-- **Under its condition `art_delete_prefix` removes the prefix exactly**,
reading inside it. -/
theorem artDeletePrefix_of_clears {t : ArtTree V} (h : t.WF) {p : List UInt8}
    (hc : Clears p t.root) :
    ∃ t', artDeletePrefix Past.strict t p = .ok (t', (below (entries t.root) p).length) ∧ t'.WF ∧
      (entries t'.root).Perm (prune (entries t.root) p) ∧
      t'.size = t.size - (below (entries t.root) p).length := by
  have hkeep : below (entries t.root) p = [] → artDeletePrefix Past.strict t p = .ok (t, 0) →
      ∃ t', artDeletePrefix Past.strict t p = .ok (t', (below (entries t.root) p).length) ∧
        t'.WF ∧ (entries t'.root).Perm (prune (entries t.root) p) ∧
        t'.size = t.size - (below (entries t.root) p).length := by
    intro hnil hrun
    rw [hnil]
    refine ⟨t, hrun, h, ?_, by simp⟩
    rw [prune_eq_self_of_below hnil]
  rcases h with hnull | hwf
  · exact hkeep (by rw [hnull]; rfl) (by rw [artDeletePrefix, hnull])
  · cases hroot : t.root with
    | null => rw [hroot] at hwf; cases hwf
    | leaf l =>
        rw [hroot] at hc hwf
        cases hwf with
        | leaf hbuf hpath =>
            have hrun := artDeletePrefix_leaf Past.strict hroot hbuf p
            by_cases heq : l.bytes = p
            · have hall : ∀ e ∈ entries (.leaf l), p <+: e.1 := fun e he => by
                rw [List.mem_singleton.mp he, ← heq]
                exact List.prefix_rfl
              rw [below_eq_self hall, prune_eq_nil hall, hrun, if_pos heq]
              exact ⟨_, rfl, .inl rfl, List.Perm.refl _, rfl⟩
            · rw [if_neg heq] at hrun
              rw [← hroot]
              refine hkeep ?_ hrun
              rw [hroot]
              refine below_eq_nil fun e he hpe => heq (hc ?_)
              rwa [List.mem_singleton.mp he] at hpe
    | node n keys children =>
        rw [hroot] at hc hwf
        have hrun := artDeletePrefix_node Past.strict hroot p
        have hwhole : WholePath [] (compressed [] n keys children) (.node n keys children) := rfl
        have hlen := length_compressed hwf
        by_cases hs : n.stored <+: p
        · simp only [Clears, if_pos hs] at hc
          obtain ⟨x, hx, hxwf, hperm⟩ := loopExact_of_clears hwf hwhole hc.1 hc.2
          rw [hlen] at hx
          rw [hrun, if_pos hs, hx]
          exact ⟨_, rfl, .inr hxwf, hperm, rfl⟩
        · simp only [Clears, if_neg hs] at hc
          rw [if_neg hs] at hrun
          rw [← hroot]
          refine hkeep ?_ hrun
          rw [hroot]
          cases hwf with
          | node c hl htwo hlen hstored hchild =>
              rw [compressed_eq hlen (.node c hl htwo hlen hstored hchild)
                (WF.compressed hl hchild)] at hc
              exact below_eq_nil_of_root hstored (WF.compressed hl hchild) hs hc

/-- **Only under its condition does `art_delete_prefix` return the number of
entries below the prefix.** -/
theorem clears_of_count {t t' : ArtTree V} (h : t.WF) {p : List UInt8}
    (hrun : artDeletePrefix Past.strict t p = .ok (t', (below (entries t.root) p).length)) :
    Clears p t.root := by
  rcases h with hnull | hwf
  · rw [hnull]; trivial
  · cases hroot : t.root with
    | null => trivial
    | leaf l =>
        rw [hroot] at hrun hwf
        cases hwf with
        | leaf hbuf hpath =>
            rw [artDeletePrefix_leaf Past.strict hroot hbuf] at hrun
            intro hp
            by_contra hne
            have hall : ∀ e ∈ entries (.leaf l), p <+: e.1 := fun e he => by
              rw [List.mem_singleton.mp he]
              exact hp
            rw [if_neg hne, below_eq_self hall] at hrun
            cases hrun
    | node n keys children =>
        rw [hroot] at hrun hwf
        rw [artDeletePrefix_node Past.strict hroot] at hrun
        have hwhole : WholePath [] (compressed [] n keys children) (.node n keys children) := rfl
        have hcompr := compressed_le hwf
        have hlen := length_compressed hwf
        by_cases hs : n.stored <+: p
        · simp only [Clears, if_pos hs]
          rw [if_pos hs] at hrun
          cases hloop : deletePrefixLoop Past.strict p (.node n keys children) n.partialLen with
          | error e => rw [hloop] at hrun; cases hrun
          | ok r =>
              rw [hloop] at hrun
              have hret := (Prod.mk.inj (Except.ok.inj hrun)).2
              have hlt : (compressed [] n keys children).length < p.length := by
                by_contra hge
                rw [deletePrefixLoop, readByte_ge _ (by omega)] at hloop
                cases hloop
              refine ⟨hlt, clears_of_loopCounts hwf hwhole hlt ⟨r.1, ?_⟩⟩
              rw [hlen, hloop, ← hret]
        · simp only [Clears, if_neg hs]
          rw [if_neg hs] at hrun
          intro hp
          rw [below_eq_self fun e he => hp.trans (hcompr e he)] at hrun
          have := (Prod.mk.inj (Except.ok.inj hrun)).2
          exact hwf.entries_ne_nil (List.eq_nil_of_length_eq_zero this.symm)

end LightQuery
