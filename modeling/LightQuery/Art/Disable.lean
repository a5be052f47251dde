import LightQuery.Art.Insert

/-!
# LightQuery.Art.Disable

`art_disable`.

It leaves one mark, a leaf without a value, in the place of everything below
the disabled prefix.  `artDisable_of_mark` and `artDisable_spec` cover its five
exits: under a shorter mark nothing happens and the answer is -1; otherwise the
mark is grafted on the tree and `size` drops by the number of leaves that were
below it, older marks included.
-/

namespace LightQuery

open CArray CommonPrefix PrefixFamily

variable {V : Type} {n : Header} {keys : Nat → UInt8} {children : Nat → ArtNode V}

/-! ## art_disable -/

/-- `leaf_disable_prefix`: the new `*ref`, the decrement of `size` and the
returned code. -/
def leafDisablePrefix (past : Past) (build : Build) (key : List UInt8) (l : ArtLeaf V)
    (depth : Nat) : Except Fault (ArtNode V × Int × Int) := do
  let idx ← mismatch (fun idx => readByte past l.key (depth + idx))
    (fun idx => readByte past key (depth + idx)) 0 (min l.keyLen key.length - depth)
  if depth + idx = key.length then
    .ok (.leaf { l with keyLen := key.length, value := none }, 1, 1)
  else if depth + idx = l.keyLen ∧ l.value.isNone then
    .ok (.leaf l, 0, -1)
  else
    let x ← splitLeaf past build key none depth idx l
    .ok (x, 0, 1)

/-- `if (n->partial_len) { … }` of `art_disable`: `none` when the descent goes
deeper. -/
def disablePath (past : Past) (build : Build) (key : List UInt8) (n : Header)
    (keys : Nat → UInt8) (children : Nat → ArtNode V) (depth : Nat) :
    Except Fault (Option (ArtNode V × Int × Int)) :=
  if n.partialLen = 0 then .ok none
  else do
    let prefixLen ← prefixMismatch past n keys children key depth
    let prefixLen := min prefixLen n.partialLen
    if depth + prefixLen = key.length then
      .ok (some (.leaf (makeLeaf key none), destroyNode (.node n keys children), 1))
    else if depth + prefixLen < key.length ∧ prefixLen < n.partialLen then
      let x ← splitPath past build n keys children key none depth prefixLen
      .ok (some (x, 0, 1))
    else .ok none

/-- The loop of `art_disable`, with the `add_child` that follows it. -/
def disableLoop (past : Past) (build : Build) (key : List UInt8) : ArtNode V → (depth : Nat) →
    Except Fault (ArtNode V × Int × Int)
  | .null, depth => if depth ≤ key.length then .error .nullNode else .ok (.null, 0, 0)
  | .leaf l, depth => leafDisablePrefix past build key l depth
  | .node n keys children, depth => do
      match ← disablePath past build key n keys children depth with
      | some r => .ok r
      | none =>
          let depth := depth + n.partialLen
          let c ← readByte past key depth
          match findChild n keys children c with
          | some i =>
              if depth + 1 = key.length then
                .ok (.node n keys (Function.update children i (.leaf (makeLeaf key none))),
                  destroyNode (children i), 1)
              else
                let (x, r) ← disableLoop past build key (children i) (depth + 1)
                .ok (.node n keys (Function.update children i x), r)
          | none =>
              if depth ≤ key.length then
                .ok (addChild build n keys children c (.leaf (makeLeaf key none)), 0, 1)
              else .ok (.node n keys children, 0, 0)

/-- `art_disable`. -/
def artDisable (past : Past) (build : Build) (t : ArtTree V) (key : List UInt8) :
    Except Fault (ArtTree V × Int) :=
  if t.root.isNull then .ok (t, 1)
  else do
    let (root, removed, ret) ← disableLoop past build key t.root 0
    .ok (⟨root, t.size - removed⟩, ret)

/-! ## the exits -/

/-- The leaf comparison of `leaf_disable_prefix`. -/
theorem leaf_mismatch_eq (past : Past) {l : ArtLeaf V} (hbuf : l.keyLen ≤ l.key.length)
    (key : List UInt8) (depth : Nat) :
    mismatch (fun idx => readByte past l.key (depth + idx))
      (fun idx => readByte past key (depth + idx)) 0 (min l.keyLen key.length - depth) =
      .ok (lcp (l.bytes.drop depth) (key.drop depth)) :=
  longestCommonPrefix_eq past hbuf key (none : Option V) depth

/-- The path of a node lets the descent pass where the key continues it. -/
theorem disablePath_of_lt (past : Past) (build : Build) {path c key : List UInt8}
    (hlen : c.length = n.partialLen) (hstored : n.stored = c.take maxPrefixLen)
    (h : WF path (.node n keys children))
    (hpath : ∀ e ∈ entries (.node n keys children), path ++ c <+: e.1) {b : UInt8}
    (hb : path ++ c ++ [b] <+: key) :
    disablePath past build key n keys children path.length = .ok none := by
  obtain ⟨hc, hlt, -⟩ := below_slot hb
  unfold disablePath
  split
  · rfl
  · obtain ⟨l, hmin, hmem, hbuf⟩ := h.minimum_spec
    obtain ⟨r, hr, hmr, -⟩ := prefixMismatch_spec past key hlen hstored hmin hbuf
      (hpath _ hmem)
    have := lcp_eq_length_iff.mpr hc
    rw [hr]
    simp only [bind, Except.bind]
    rw [if_neg (by omega), if_neg (by omega)]

/-- A key that ends inside the path takes the whole node. -/
theorem disablePath_of_prefix (past : Past) (build : Build) {path c key : List UInt8}
    (hlen : c.length = n.partialLen) (hstored : n.stored = c.take maxPrefixLen)
    (h : WF path (.node n keys children))
    (hpath : ∀ e ∈ entries (.node n keys children), path ++ c <+: e.1) (hpk : path <+: key)
    (hz : n.partialLen ≠ 0) (hkc : key <+: path ++ c) :
    disablePath past build key n keys children path.length =
      .ok (some (.leaf (makeLeaf key none), (entries (.node n keys children)).length, 1)) := by
  obtain ⟨l, hmin, hmem, hbuf⟩ := h.minimum_spec
  obtain ⟨r, hr, hmr, hrk⟩ := prefixMismatch_spec past key hlen hstored hmin hbuf
    (hpath _ hmem)
  have hle := hkc.length_le
  rw [List.length_append] at hle
  have hkd : key.drop path.length <+: c := by
    obtain ⟨t, rfl⟩ := hpk
    rwa [List.drop_left, ← List.prefix_append_right_inj path]
  have hl := lcp_eq_length_iff.mpr hkd
  rw [lcp_comm, List.length_drop] at hl
  have := hpk.length_le
  rw [disablePath, if_neg hz, hr]
  simp only [bind, Except.bind]
  rw [if_pos (by omega), destroyNode_eq]

/-- A key that leaves the path splits it. -/
theorem disablePath_of_incomparable (past : Past) (build : Build) {path c key : List UInt8}
    (hlen : c.length = n.partialLen) (hstored : n.stored = c.take maxPrefixLen)
    (h : WF path (.node n keys children))
    (hpath : ∀ e ∈ entries (.node n keys children), path ++ c <+: e.1) (hpk : path <+: key)
    (hinc : Incomparable (path ++ c) key) :
    disablePath past build key n keys children path.length =
      (splitPath past build n keys children key none path.length
        (lcp c (key.drop path.length))).bind fun x => .ok (some (x, 0, 1)) := by
  obtain ⟨l, hmin, hmem, hbuf⟩ := h.minimum_spec
  obtain ⟨r, hr, hmr, hrk⟩ := prefixMismatch_spec past key hlen hstored hmin hbuf
    (hpath _ hmem)
  have hcle := lcp_le_left c (key.drop path.length)
  have hkle := lcp_le_right c (key.drop path.length)
  rw [List.length_drop] at hkle
  have hc : lcp c (key.drop path.length) ≠ c.length := fun h =>
    hinc.1 ((isPrefix_drop hpk).mp (lcp_eq_length_iff.mp h))
  have hk : lcp c (key.drop path.length) ≠ key.length - path.length := by
    intro h
    refine hinc.2 ?_
    obtain ⟨t, rfl⟩ := hpk
    rw [List.drop_left] at h
    rw [List.prefix_append_right_inj, ← lcp_eq_length_iff, lcp_comm, h, List.length_append]
    omega
  have := hpk.length_le
  rw [disablePath, if_neg (by omega), hr]
  simp only [bind, Except.bind]
  rw [if_neg (by omega), if_pos (by omega), hmr]

/-- Below its path, a node hands the key to the child of the next byte. -/
theorem disableLoop_slot (past : Past) (build : Build) {path c key : List UInt8}
    (hlen : c.length = n.partialLen) (hstored : n.stored = c.take maxPrefixLen)
    (h : WF path (.node n keys children))
    (hpath : ∀ e ∈ entries (.node n keys children), path ++ c <+: e.1) {b : UInt8}
    (hb : path ++ c ++ [b] <+: key) :
    disableLoop past build key (.node n keys children) path.length =
      match findChild n keys children b with
      | some i =>
          if path ++ c ++ [b] = key then
            .ok (.node n keys (Function.update children i (.leaf (makeLeaf key none))),
              (entries (children i)).length, 1)
          else
            (disableLoop past build key (children i) (path ++ c ++ [b]).length).bind fun r =>
              .ok (.node n keys (Function.update children i r.1), r.2)
      | none => .ok (addChild build n keys children b (.leaf (makeLeaf key none)), 0, 1) := by
  obtain ⟨-, hlt, hread⟩ := below_slot hb
  have hd : path.length + c.length + 1 = (path ++ c ++ [b]).length := by
    simp only [List.length_append, List.length_singleton]
  have hiff : path.length + c.length + 1 = key.length ↔ path ++ c ++ [b] = key := by
    rw [hd]
    exact ⟨fun h => hb.eq_of_length h, fun h => by rw [h]⟩
  rw [disableLoop, disablePath_of_lt past build hlen hstored h hpath hb, ← hlen]
  simp only [bind, Except.bind, hread]
  cases findChild n keys children b with
  | none => simp only [if_pos (show path.length + c.length ≤ key.length by omega)]
  | some i =>
      simp only [hiff, destroyNode_eq]
      split
      · rfl
      · rw [hd]

/-! ## the disabled prefix -/

/-- **Under a shorter mark nothing is disabled again.** -/
theorem disableLoop_of_mark (past : Past) (build : Build) {path key : List UInt8} {x : ArtNode V}
    (h : WF path x) {q : List UInt8} (hq : (q, none) ∈ entries x) (hqk : q <+: key)
    (hne : q ≠ key) : disableLoop past build key x path.length = .ok (x, 0, -1) := by
  have hlt : q.length < key.length :=
    lt_of_le_of_ne hqk.length_le fun h => hne (hqk.eq_of_length h)
  induction h with
  | @leaf path l hlen hpath =>
      have he : l.bytes = q ∧ l.value = none := by
        have := List.mem_singleton.mp hq
        simpa [ArtLeaf.entry, eq_comm] using this
      obtain ⟨rfl, hv⟩ := he
      have hbl := bytes_length hlen
      have hpl := hpath.length_le
      have hdrop : l.bytes.drop path.length <+: key.drop path.length := hqk.drop path.length
      have hl := lcp_eq_length_iff.mpr hdrop
      rw [List.length_drop] at hl
      rw [disableLoop, leafDisablePrefix, leaf_mismatch_eq past hlen]
      simp only [bind, Except.bind]
      rw [if_neg (by omega), if_pos ⟨by omega, by rw [hv]; rfl⟩]
  | @node path n keys children c hl htwo hlen hstored hchild ih =>
      have hwf : WF path (.node n keys children) := .node c hl htwo hlen hstored hchild
      obtain ⟨b, i, hi, hex⟩ := (mem_entries_node hl.toMatching).mp hq
      have hbq := (hchild b i hi).starts_with _ hex
      rw [disableLoop_slot past build hlen hstored hwf (WF.compressed hl hchild) (hbq.trans hqk),
        hl.findChild_eq_some_iff.mpr hi]
      simp only
      have hbk : path ++ c ++ [b] ≠ key := fun h => by
        have : key.length ≤ q.length := (h ▸ hbq : key <+: q).length_le
        omega
      rw [if_neg hbk, ih b i hi hex]
      simp only [Except.bind, Function.update_eq_self]

/-- `art_disable` reads inside a prefix that is longer than the path to the
node, or ends at a leaf or in the node's compressed path. -/
def ReadsInside (path key : List UInt8) : ArtNode V → Prop
  | .node n _ _ => path.length < key.length ∨ n.partialLen ≠ 0
  | _ => True

/-- What `art_disable` has to do to a subtree: graft a mark, and count the
leaves below it. -/
def GraftsMark (past : Past) (build : Build) (path key : List UInt8) (x : ArtNode V) : Prop :=
  ∃ x', disableLoop past build key x path.length = .ok (x', (below (entries x) key).length, 1) ∧
    WF path x' ∧ (entries x').Perm (graft (entries x) key none)

/-- A leaf below the prefix is disabled in place. -/
theorem graftsMark_leaf_below (past : Past) (build : Build) {path key : List UInt8}
    {l : ArtLeaf V} (hlen : l.keyLen ≤ l.key.length) (hpk : path <+: key)
    (hkl : key <+: l.bytes) : GraftsMark past build path key (.leaf l) := by
  have hbl := bytes_length hlen
  have hkll := hkl.length_le
  have hkd : lcp (l.bytes.drop path.length) (key.drop path.length) = key.length - path.length := by
    rw [lcp_comm, lcp_eq_length_iff.mpr (hkl.drop path.length), List.length_drop]
  have hall : ∀ e ∈ entries (.leaf l), key <+: e.1 := fun e he => by
    rw [List.mem_singleton.mp he]; exact hkl
  have hpkl := hpk.length_le
  -- the buffer of the leaf starts with the prefix
  have hbuf : l.key.take key.length = key :=
    (List.prefix_iff_eq_take.mp (hkl.trans (List.take_prefix _ _))).symm
  unfold GraftsMark
  rw [disableLoop, leafDisablePrefix, leaf_mismatch_eq past hlen]
  simp only [bind, Except.bind]
  rw [if_pos (by omega)]
  refine ⟨_, by rw [below_eq_self hall]; rfl,
    .leaf (show key.length ≤ l.key.length by omega) ?_, ?_⟩
  · rw [ArtLeaf.bytes, hbuf]
    exact hpk
  · rw [graft_eq_singleton hall, entries_leaf, ArtLeaf.entry, ArtLeaf.bytes, hbuf]

/-- A leaf that the prefix leaves is split. -/
theorem graftsMark_leaf_split (past : Past) (build : Build) {path key : List UInt8}
    {l : ArtLeaf V} (hlen : l.keyLen ≤ l.key.length) (hpath : path <+: l.bytes)
    (hpk : path <+: key) (hinc : Incomparable l.bytes key) :
    GraftsMark past build path key (.leaf l) := by
  have hbl := bytes_length hlen
  have hpl := hpath.length_le
  have hpkl := hpk.length_le
  have hle := lcp_le_left (l.bytes.drop path.length) (key.drop path.length)
  have hle' := lcp_le_right (l.bytes.drop path.length) (key.drop path.length)
  rw [List.length_drop] at hle hle'
  -- neither ends where they part
  have hkey : lcp (l.bytes.drop path.length) (key.drop path.length) ≠
      key.length - path.length := by
    intro h
    rw [lcp_comm, ← List.length_drop, lcp_eq_length_iff] at h
    exact hinc.2 (prefix_of_drop hpk hpath h)
  have hleaf : lcp (l.bytes.drop path.length) (key.drop path.length) ≠
      l.keyLen - path.length := by
    intro h
    rw [← hbl, ← List.length_drop, lcp_eq_length_iff] at h
    exact hinc.1 (prefix_of_drop hpath hpk h)
  obtain ⟨x, hx, hwf, hperm, -⟩ :=
    splitLeaf_spec past build (.leaf hlen hpath) hpk hinc (none : Option V)
  unfold GraftsMark
  rw [disableLoop, leafDisablePrefix, leaf_mismatch_eq past hlen]
  simp only [bind, Except.bind]
  rw [if_neg (by omega), if_neg (by omega), hx]
  refine ⟨x, ?_, hwf, hperm⟩
  rw [below_eq_nil fun e he => by rw [List.mem_singleton.mp he]; exact hinc.2]
  rfl

/-- A prefix that ends inside the compressed path takes the whole node. -/
theorem graftsMark_inside (past : Past) (build : Build) {path c key : List UInt8}
    (hlen : c.length = n.partialLen) (hstored : n.stored = c.take maxPrefixLen)
    (h : WF path (.node n keys children))
    (hpath : ∀ e ∈ entries (.node n keys children), path ++ c <+: e.1) (hpk : path <+: key)
    (hin : ReadsInside path key (.node n keys children)) (hkc : key <+: path ++ c) :
    GraftsMark past build path key (.node n keys children) := by
  have hall : ∀ e ∈ entries (.node n keys children), key <+: e.1 := fun e he =>
    hkc.trans (hpath e he)
  have hz : n.partialLen ≠ 0 := by
    rcases hin with hlt | hz
    · have := hkc.length_le
      rw [List.length_append] at this
      omega
    · exact hz
  unfold GraftsMark
  rw [disableLoop, disablePath_of_prefix past build hlen hstored h hpath hpk hz hkc]
  refine ⟨.leaf (makeLeaf key none), ?_, makeLeaf_wf hpk none, ?_⟩
  · rw [below_eq_self hall]; rfl
  · rw [graft_eq_singleton hall, entries_leaf, makeLeaf_entry]

/-- A prefix that leaves the compressed path splits it. -/
theorem graftsMark_split (past : Past) (build : Build) {path c key : List UInt8}
    (hl : Layout n keys children) (htwo : 2 ≤ degree n keys children)
    (hlen : c.length = n.partialLen) (hstored : n.stored = c.take maxPrefixLen)
    (hchild : ∀ b i, Slot n keys children b i → WF (path ++ c ++ [b]) (children i))
    (hpk : path <+: key) (hinc : Incomparable (path ++ c) key) :
    GraftsMark past build path key (.node n keys children) := by
  have hpaths := WF.compressed hl hchild
  obtain ⟨x, hx, hwf', hperm, -⟩ := splitPath_spec past build hl htwo hlen hstored hchild hpk
    hinc (none : Option V)
  unfold GraftsMark
  rw [disableLoop, disablePath_of_incomparable past build hlen hstored
    (.node c hl htwo hlen hstored hchild) hpaths hpk hinc, hx]
  refine ⟨x, ?_, hwf', hperm⟩
  rw [below_eq_nil fun e he hke => ?_]
  · rfl
  · rcases List.prefix_or_prefix_of_prefix hke (hpaths e he) with h | h
    · exact hinc.2 h
    · exact hinc.1 h

/-- A prefix that goes on below the node is disabled in the child of its next
byte, or is a new leaf there. -/
theorem graftsMark_slot (past : Past) (build : Build) {path c key : List UInt8}
    (hl : Layout n keys children) (htwo : 2 ≤ degree n keys children)
    (hlen : c.length = n.partialLen) (hstored : n.stored = c.take maxPrefixLen)
    (hchild : ∀ b i, Slot n keys children b i → WF (path ++ c ++ [b]) (children i)) {b : UInt8}
    (hb : path ++ c ++ [b] <+: key)
    (hbelow : ∀ i, Slot n keys children b i → path ++ c ++ [b] ≠ key →
      GraftsMark past build (path ++ c ++ [b]) key (children i)) :
    GraftsMark past build path key (.node n keys children) := by
  have hwf : WF path (.node n keys children) := .node c hl htwo hlen hstored hchild
  -- nothing in another slot is below the prefix
  have hothers : ∀ e ∈ mapEntries (Function.update (childAt n keys children) b none),
      ¬ key <+: e.1 := fun e he hke =>
    (not_prefix_of_other_slot hl hchild e he).1 (hb.trans hke)
  unfold GraftsMark
  rw [disableLoop_slot past build hlen hstored hwf (WF.compressed hl hchild) hb]
  cases hf : findChild n keys children b with
  | none =>
      have hnone : childAt n keys children b = none := by rw [childAt, hf]; rfl
      obtain ⟨hwf', hperm'⟩ :=
        WF.graftLeaf build hl htwo hlen hstored hchild hnone hb (none : Option V)
      refine ⟨_, ?_, hwf', hperm'⟩
      have hother : mapEntries (Function.update (childAt n keys children) b none) =
          mapEntries (childAt n keys children) := by rw [← hnone, Function.update_eq_self]
      rw [below_eq_nil fun e he hke => ?_]
      · rfl
      · rw [(entries_node_perm hl.toMatching).mem_iff, ← hother] at he
        exact hothers e he hke
  | some i =>
      have hi := hl.findChild_eq_some_iff.mp hf
      have hcount : (below (entries (.node n keys children)) key).length =
          (below (entries (children i)) key).length := by
        rw [(below_perm (entries_node_slot hl hi) key).length_eq, below_append,
          below_eq_nil hothers, List.append_nil]
      by_cases heq : path ++ c ++ [b] = key
      · have hall : ∀ e ∈ entries (children i), key <+: e.1 := fun e he =>
          heq ▸ (hchild b i hi).starts_with e he
        obtain ⟨hwf', hperm'⟩ := WF.graftChild hl htwo hlen hstored hchild hi hb
          (makeLeaf_wf hb (none : Option V)) (v := none) (by
            rw [graft_eq_singleton hall, entries_leaf, makeLeaf_entry])
        simp only [if_pos heq]
        refine ⟨_, ?_, hwf', hperm'⟩
        rw [hcount, below_eq_self hall]
      · obtain ⟨x, hx, hxwf, hperm⟩ := hbelow i hi heq
        obtain ⟨hwf', hperm'⟩ := WF.graftChild hl htwo hlen hstored hchild hi hb hxwf hperm
        simp only [if_neg heq, hx, Except.bind]
        exact ⟨_, by rw [hcount], hwf', hperm'⟩

/-- **`art_disable` grafts a mark** on a tree that has no key above the prefix,
and counts the leaves below it. -/
theorem disableLoop_spec (past : Past) (build : Build) {path key : List UInt8} {x : ArtNode V}
    (h : WF path x) (hpk : path <+: key) (hin : ReadsInside path key x)
    (hkey : ∀ e ∈ entries x, e.1 <+: key → e.1 = key) :
    ∃ x', disableLoop past build key x path.length =
        .ok (x', (below (entries x) key).length, 1) ∧
      WF path x' ∧ (entries x').Perm (graft (entries x) key none) := by
  induction h with
  | @leaf path l hlen hpath =>
      by_cases hkl : key <+: l.bytes
      · exact graftsMark_leaf_below past build hlen hpk hkl
      · refine graftsMark_leaf_split past build hlen hpath hpk ⟨fun hlk => ?_, hkl⟩
        have := hkey l.entry (by simp) hlk
        exact hkl (this ▸ List.prefix_rfl)
  | @node path n keys children c hl htwo hlen hstored hchild ih =>
      by_cases hkc : key <+: path ++ c
      · exact graftsMark_inside past build hlen hstored (.node c hl htwo hlen hstored hchild)
          (WF.compressed hl hchild) hpk hin hkc
      · by_cases hck : path ++ c <+: key
        · -- the next byte of the prefix
          obtain ⟨t, rfl⟩ := hck
          cases t with
          | nil => exact absurd (by simp) hkc
          | cons b t =>
              have hb : path ++ c ++ [b] <+: path ++ c ++ b :: t := ⟨t, by simp⟩
              refine graftsMark_slot past build hl htwo hlen hstored hchild hb fun i hi hne => ?_
              have hlt := lt_of_le_of_ne hb.length_le fun h => hne (hb.eq_of_length h)
              have hin' : ReadsInside (path ++ c ++ [b]) (path ++ c ++ b :: t) (children i) := by
                unfold ReadsInside
                split
                · exact .inl hlt
                · trivial
              exact ih b i hi hb hin' fun e he =>
                hkey e ((mem_entries_node hl.toMatching).mpr ⟨b, i, hi, he⟩)
        · exact graftsMark_split past build hl htwo hlen hstored hchild hpk ⟨hck, hkc⟩

/-! ## whole trees -/

/-- On an empty tree nothing is marked. -/
theorem artDisable_of_null (past : Past) (build : Build) {t : ArtTree V} (h : t.root = .null)
    (key : List UInt8) : artDisable past build t key = .ok (t, 1) := by
  rw [artDisable, h]; rfl

/-- Under a shorter mark the tree stays as it is. -/
theorem artDisable_of_mark (past : Past) (build : Build) {t : ArtTree V} (h : t.WF)
    {q key : List UInt8} (hq : (q, none) ∈ entries t.root) (hqk : q <+: key) (hne : q ≠ key) :
    artDisable past build t key = .ok (t, -1) := by
  rcases h with h | h
  · rw [h] at hq; cases hq
  · have hx := disableLoop_of_mark past build h hq hqk hne
    rw [List.length_nil] at hx
    rw [artDisable, h.isNull, hx]
    simp [bind, Except.bind]

/-- Otherwise a mark is grafted, and the leaves below it leave the count. -/
theorem artDisable_spec (past : Past) (build : Build) {t : ArtTree V} (h : t.WF)
    (hroot : t.root ≠ .null) {key : List UInt8} (hin : ReadsInside [] key t.root)
    (hkey : ∀ e ∈ entries t.root, e.1 <+: key → e.1 = key) :
    ∃ t', artDisable past build t key = .ok (t', 1) ∧ t'.WF ∧
      (entries t'.root).Perm (graft (entries t.root) key none) ∧
      t'.size = t.size - (below (entries t.root) key).length := by
  rcases h with h | h
  · exact absurd h hroot
  · obtain ⟨x, hx, hwf, hperm⟩ := disableLoop_spec past build h List.nil_prefix hin hkey
    rw [List.length_nil] at hx
    refine ⟨⟨x, t.size - (below (entries t.root) key).length⟩, ?_, .inr hwf, hperm, rfl⟩
    rw [artDisable, h.isNull, hx]
    rfl

end LightQuery
