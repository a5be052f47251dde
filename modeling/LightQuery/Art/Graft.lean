import LightQuery.Art.Search

/-!
# LightQuery.Art.Graft

The updates that `recursive_insert` and `art_disable` make where their descent
ends: a leaf or a compressed path is split by a new NODE4, a child is added, a
child is replaced.

Each of them grafts one entry (`Lib.PrefixFamily`) on the entries of the
subtree and keeps it well formed.  The split of a leaf and the split of a
compressed path are written out twice in the source, with the same text, and
stand here once.
-/

namespace LightQuery

open CArray CommonPrefix PrefixFamily

variable {V : Type} {n : Header} {keys : Nat → UInt8} {children : Nat → ArtNode V}

/-! ## new leaves and new NODE4 nodes -/

/-- `make_leaf`. -/
def makeLeaf (key : List UInt8) (value : Option V) : ArtLeaf V := ⟨value, key.length, key⟩

@[simp] theorem makeLeaf_bytes (key : List UInt8) (value : Option V) :
    (makeLeaf key value).bytes = key := by
  show key.take key.length = key
  exact List.take_length

@[simp] theorem makeLeaf_entry (key : List UInt8) (value : Option V) :
    (makeLeaf key value).entry = (key, value) := by rw [ArtLeaf.entry, makeLeaf_bytes]; rfl

theorem makeLeaf_wf {path key : List UInt8} (h : path <+: key) (value : Option V) :
    WF path (.leaf (makeLeaf key value)) := .leaf (Nat.le_refl _) (by simpa using h)

/-- Two calls of `add_child4` on a node fresh from `alloc_node`. -/
def pairNode (build : Build) (n : Header) (c₁ : UInt8) (x₁ : ArtNode V) (c₂ : UInt8)
    (x₂ : ArtNode V) : ArtNode V :=
  match addChild4 build n (fun _ => 0) (fun _ => .null) c₁ x₁ with
  | .node n keys children => addChild4 build n keys children c₂ x₂
  | x => x

/-- `longest_common_prefix`. -/
def longestCommonPrefix (past : Past) (l₁ l₂ : ArtLeaf V) (depth : Nat) : Except Fault Nat :=
  mismatch (fun idx => readByte past l₁.key (depth + idx))
    (fun idx => readByte past l₂.key (depth + idx)) 0 (min l₁.keyLen l₂.keyLen - depth)

/-- The NODE4 over a leaf `l` and a new leaf: the leaf case of
`recursive_insert` and of `leaf_disable_prefix`, `idx` shared bytes on. -/
def splitLeaf (past : Past) (build : Build) (key : List UInt8) (value : Option V) (depth idx : Nat)
    (l : ArtLeaf V) : Except Fault (ArtNode V) := do
  let l₂ := makeLeaf key value
  let bytes ← readBytes past key depth (min maxPrefixLen idx)
  let c₁ ← readByte past l.key (depth + idx)
  let c₂ ← readByte past l₂.key (depth + idx)
  let n := { allocNode .node4 with partialLen := idx, partialBytes := setBytes (fun _ => 0) bytes }
  .ok (pairNode build n c₁ (.leaf l) c₂ (.leaf l₂))

/-- `// Adjust the prefix of the old node`: its slot byte in the new node, and
the bytes of `partial` afterwards. -/
def adjustPrefix (past : Past) (n : Header) (keys : Nat → UInt8) (children : Nat → ArtNode V)
    (depth prefixDiff : Nat) : Except Fault (UInt8 × (Nat → UInt8)) :=
  let len := min maxPrefixLen (n.partialLen - (prefixDiff + 1))
  if n.partialLen ≤ maxPrefixLen then
    .ok (n.partialBytes prefixDiff, memmove n.partialBytes 0 n.partialBytes (prefixDiff + 1) len)
  else
    match minimum (.node n keys children) with
    | none => .error .nullNode
    | some l => do
        let c ← readByte past l.key (depth + prefixDiff)
        let bytes ← readBytes past l.key (depth + prefixDiff + 1) len
        .ok (c, setBytes n.partialBytes bytes)

/-- The NODE4 over a node whose compressed path differs from the key at
`prefixDiff`, and a new leaf: the same block of `recursive_insert` and of
`art_disable`. -/
def splitPath (past : Past) (build : Build) (n : Header) (keys : Nat → UInt8)
    (children : Nat → ArtNode V) (key : List UInt8) (value : Option V) (depth prefixDiff : Nat) :
    Except Fault (ArtNode V) := do
  let newNode := { allocNode .node4 with
    partialLen := prefixDiff
    partialBytes := memmove (fun _ => 0) 0 n.partialBytes 0 (min maxPrefixLen prefixDiff) }
  let (c, bytes) ← adjustPrefix past n keys children depth prefixDiff
  let old := { n with partialLen := n.partialLen - (prefixDiff + 1), partialBytes := bytes }
  let c' ← readByte past key (depth + prefixDiff)
  .ok (pairNode build newNode c (.node old keys children) c' (.leaf (makeLeaf key value)))

/-! ## headers -/

/-- Layout looks at the type and the child count of a header only. -/
theorem Layout.withHeader (hl : Layout n keys children) (n' : Header) (ht : n'.type = n.type)
    (hc : n'.numChildren = n.numChildren) :
    Layout n' keys children ∧ childAt n' keys children = childAt n keys children := by
  have hslot : ∀ b i, Slot n' keys children b i ↔ Slot n keys children b i := by
    intro b i
    unfold Slot
    rw [ht, hc]
  have hm : Matching n' keys children :=
    hl.toMatching.of_slots hslot fun _ _ hi => by rw [ht]; exact hl.bound hi
  refine hl.toTidy.convert hm (fun b i hi => ⟨i, (hslot b i).mpr hi, rfl⟩)
    (fun b i hi => ⟨i, (hslot b i).mp hi⟩) ?_ hc (by rw [ht]; exact hl.floor)
  intro h48 j hj hx
  obtain ⟨b, hb⟩ := hl.free (by rw [← ht]; exact h48) j hj hx
  exact ⟨b, (hslot b j).mpr hb⟩

/-- The stored path bytes, given one by one. -/
theorem stored_eq {xs : List UInt8} (hlen : xs.length = min maxPrefixLen n.partialLen)
    (h : ∀ (i : Nat) (hi : i < xs.length), n.partialBytes i = xs[i]) : n.stored = xs := by
  refine List.ext_getElem (by rw [length_stored, hlen]) fun i hi hi' => ?_
  rw [getElem_stored hi, h i hi']

theorem setBytes_lt (dst : Nat → UInt8) {src : List UInt8} {i : Nat} (h : i < src.length) :
    setBytes dst src i = src[i] := by
  simp [setBytes, h]

theorem partialBytes_eq_of_stored {c : List UInt8} (hlen : c.length = n.partialLen)
    (hstored : n.stored = c.take maxPrefixLen) {i : Nat} (hi : i < n.partialLen)
    (h10 : i < maxPrefixLen) : n.partialBytes i = (c)[i] := by
  have h1 : i < n.stored.length := by rw [length_stored]; omega
  rw [← getElem_stored h1]
  simp only [hstored, List.getElem_take]

/-! ## the new node -/

/-- A fresh NODE4 with its first child. -/
theorem addChild4_fresh (build : Build) {n : Header} (ht : n.type = .node4)
    (hz : n.numChildren = 0) (c : UInt8) {x : ArtNode V} (hx : x.isNull = false) :
    ∃ n' ks ch, addChild4 build n (fun _ => 0) (fun _ => .null) c x = .node n' ks ch ∧
      n'.type = .node4 ∧ n'.numChildren = 1 ∧ Layout n' ks ch ∧ n'.partialLen = n.partialLen ∧
      n'.stored = n.stored ∧
      childAt n' ks ch = Function.update (fun _ => none) c (some x) := by
  have hslot : ∀ b i, ¬ Slot n (fun _ => 0) (fun _ => (.null : ArtNode V)) b i := by
    intro b i hs
    have := (slot_node4 ht).mp hs
    simp [hz] at this
  have hdeg : degree n (fun _ => 0) (fun _ => (.null : ArtNode V)) = 0 := by
    rw [degree_node4 ht, hz]; rfl
  have hl : Layout n (fun _ => 0) (fun _ => (.null : ArtNode V)) :=
    { byte := fun h => absurd h (hslot _ _)
      slot := fun h => absurd h (hslot _ _)
      bound := fun h => absurd h (hslot _ _)
      full := fun h => absurd h (hslot _ _)
      free := fun h => by rw [ht] at h; cases h
      count := by rw [hdeg, hz]; rfl
      floor := by rw [ht]; exact Nat.zero_le _ }
  have hempty : childAt n (fun _ => 0) (fun _ => (.null : ArtNode V)) = fun _ => none :=
    funext fun b => hl.childAt_eq_none_iff.mpr fun i => hslot b i
  obtain ⟨n', ks, ch, hadd, hl', hlen, hst, hmap⟩ :=
    addChild4_denotes build ht hl (c := c) (by rw [hempty]) hx
  have hins : addChild4 build n (fun _ => 0) (fun _ => .null) c x =
      insertChild n (fun _ => 0) (fun _ => .null)
        (firstIndex n.numChildren.toNat fun i => decide (c < 0)) c x := by
    rw [addChild4, if_pos (by rw [hz]; decide)]
  rw [hadd, insertChild] at hins
  obtain ⟨hn, -, -⟩ := ArtNode.node.inj hins
  exact ⟨n', ks, ch, hadd, by rw [hn]; exact ht, by rw [hn]; simp [hz], hl', hlen, hst,
    by rw [hmap, hempty]⟩

/-- A NODE4 made of two children denotes their map. -/
theorem pairNode_denotes (build : Build) {n : Header} (ht : n.type = .node4)
    (hz : n.numChildren = 0) {c₁ c₂ : UInt8} (hne : c₁ ≠ c₂) {x₁ x₂ : ArtNode V}
    (h₁ : x₁.isNull = false) (h₂ : x₂.isNull = false) :
    Denotes (pairNode build n c₁ x₁ c₂ x₂) n.partialLen n.stored
      (Function.update (Function.update (fun _ => none) c₁ (some x₁)) c₂ (some x₂)) := by
  obtain ⟨n', ks, ch, hx, ht', -, hl', hlen, hst, hmap⟩ := addChild4_fresh build ht hz c₁ h₁
  rw [pairNode, hx]
  have := addChild4_denotes build ht' hl' (c := c₂)
    (by rw [hmap, Function.update_of_ne hne.symm]) h₂
  rwa [hlen, hst, hmap] at this

/-- A fresh NODE4 over two subtrees that stand for two different bytes. -/
def IsPair (build : Build) (x₁ x₂ x : ArtNode V) : Prop :=
  ∃ (n : Header) (a b : UInt8), n.type = .node4 ∧ n.numChildren = 0 ∧ a ≠ b ∧
    x = pairNode build n a x₁ b x₂

/-- The NODE4 over two well-formed subtrees holds the entries of both. -/
theorem pairNode_wf (build : Build) {n : Header} (ht : n.type = .node4) (hz : n.numChildren = 0)
    {path d : List UInt8} {c₁ c₂ : UInt8} (hne : c₁ ≠ c₂) {x₁ x₂ : ArtNode V}
    (hlen : d.length = n.partialLen) (hstored : n.stored = d.take maxPrefixLen)
    (h₁ : WF (path ++ d ++ [c₁]) x₁) (h₂ : WF (path ++ d ++ [c₂]) x₂) :
    WF path (pairNode build n c₁ x₁ c₂ x₂) ∧
      (entries (pairNode build n c₁ x₁ c₂ x₂)).Perm (entries x₂ ++ entries x₁) := by
  have hsize : mapSize (fun _ => (none : Option (ArtNode V))) = 0 := by simp [mapSize]
  have hc₂ : Function.update (fun _ => none) c₁ (some x₁) c₂ = none :=
    Function.update_of_ne hne.symm _ _
  obtain ⟨hwf, hperm⟩ := (pairNode_denotes build ht hz hne h₁.isNull h₂.isNull).wf hlen hstored
    (by rw [mapSize_store hc₂, mapSize_store rfl, hsize]) (fun b y hb => by
      by_cases h2 : b = c₂
      · subst h2
        rw [Function.update_self] at hb
        cases hb
        exact h₂
      · rw [Function.update_of_ne h2] at hb
        by_cases h1 : b = c₁
        · subst h1
          rw [Function.update_self] at hb
          cases hb
          exact h₁
        · rw [Function.update_of_ne h1] at hb
          cases hb)
  refine ⟨hwf, hperm.trans ((mapEntries_store_perm hc₂ x₂).trans ?_)⟩
  refine List.Perm.append_left _ ((mapEntries_store_perm rfl x₁).trans ?_)
  rw [mapEntries_none, List.append_nil]

/-! ## the two splits -/

/-- The front of a list up to and including position `i`. -/
theorem take_snoc_le {path d key : List UInt8} {b : UInt8} (h : path ++ d <+: key)
    (hb : key[path.length + d.length]? = some b) : path ++ d ++ [b] <+: key := by
  obtain ⟨t, rfl⟩ := h
  rw [List.getElem?_append_right (by simp)] at hb
  simp only [List.length_append, Nat.sub_self] at hb
  cases t with
  | nil => simp at hb
  | cons x t =>
      have hx : x = b := by simpa using hb
      subst hx
      exact ⟨t, by simp⟩

/-- Where two continuations of a path part. -/
theorem branch_at_lcp {path xs ys : List UInt8} (hx : path <+: xs) (hy : path <+: ys)
    (h : Incomparable xs ys) :
    ∃ a b, a ≠ b ∧
      xs[path.length + lcp (xs.drop path.length) (ys.drop path.length)]? = some a ∧
      ys[path.length + lcp (xs.drop path.length) (ys.drop path.length)]? = some b ∧
      path ++ (ys.drop path.length).take (lcp (xs.drop path.length) (ys.drop path.length)) ++ [a]
        <+: xs ∧
      path ++ (ys.drop path.length).take (lcp (xs.drop path.length) (ys.drop path.length)) ++ [b]
        <+: ys := by
  obtain ⟨xs, rfl⟩ := hx
  obtain ⟨ys, rfl⟩ := hy
  simp only [List.drop_left]
  have hxl : lcp xs ys < xs.length := by
    refine lt_of_le_of_ne (lcp_le_left xs ys) fun heq => h.1 ?_
    rw [List.prefix_append_right_inj]
    exact lcp_eq_length_iff.mp heq
  have hyl : lcp xs ys < ys.length := by
    refine lt_of_le_of_ne (lcp_le_right xs ys) fun heq => h.2 ?_
    rw [List.prefix_append_right_inj]
    exact lcp_eq_length_iff.mp (by rw [lcp_comm]; exact heq)
  have hlen : ((ys.take (lcp xs ys))).length = lcp xs ys := by rw [List.length_take]; omega
  refine ⟨xs[lcp xs ys], ys[lcp xs ys], getElem_lcp_ne hxl hyl, ?_, ?_, ?_, ?_⟩
  · rw [List.getElem?_append_right (by omega), Nat.add_sub_cancel_left,
      List.getElem?_eq_getElem hxl]
  · rw [List.getElem?_append_right (by omega), Nat.add_sub_cancel_left,
      List.getElem?_eq_getElem hyl]
  · refine take_snoc_le ?_ ?_
    · rw [List.prefix_append_right_inj, ← take_lcp]; exact take_lcp_prefix_left xs ys
    · rw [hlen, List.getElem?_append_right (by omega), Nat.add_sub_cancel_left,
        List.getElem?_eq_getElem hxl]
  · refine take_snoc_le ?_ ?_
    · rw [List.prefix_append_right_inj]; exact List.take_prefix _ _
    · rw [hlen, List.getElem?_append_right (by omega), Nat.add_sub_cancel_left,
        List.getElem?_eq_getElem hyl]

/-- Splitting a leaf grafts the new entry, in a fresh NODE4 over the two leaves. -/
theorem splitLeaf_spec (past : Past) (build : Build) {path key : List UInt8} {l : ArtLeaf V}
    (h : WF path (.leaf l)) (hkey : path <+: key) (hinc : Incomparable l.bytes key)
    (value : Option V) :
    ∃ x, splitLeaf past build key value path.length
        (lcp (l.bytes.drop path.length) (key.drop path.length)) l = .ok x ∧
      WF path x ∧ (entries x).Perm (graft [l.entry] key value) ∧
      IsPair build (.leaf l) (.leaf (makeLeaf key value)) x := by
  cases h with
  | leaf hlen hpath =>
      obtain ⟨a, b, hab, ha, hb, hpa, hpb⟩ := branch_at_lcp hpath hkey hinc
      set idx := lcp (l.bytes.drop path.length) (key.drop path.length) with hidx
      have hle := lcp_le_right (l.bytes.drop path.length) (key.drop path.length)
      rw [List.length_drop] at hle
      have hd : ((key.drop path.length).take idx).length = idx := by
        rw [List.length_take, List.length_drop]; omega
      have hread : readByte past l.key (path.length + idx) = .ok a := readByte_of_bytes past ha
      have hread' : readByte past (makeLeaf key value).key (path.length + idx) = .ok b := by
        simp [readByte, makeLeaf, hb]
      have hbytes := readBytes_eq past key path.length (min maxPrefixLen idx)
        (by have := hkey.length_le; omega)
      simp only [splitLeaf, hbytes, hread, hread', bind, Except.bind]
      have hst : ({ allocNode .node4 with
          partialLen := idx
          partialBytes := setBytes (fun _ => 0)
            ((key.drop path.length).take (min maxPrefixLen idx)) } : Header).stored =
          ((key.drop path.length).take idx).take maxPrefixLen := by
        refine stored_eq (by rw [List.length_take, hd]) fun i hi => ?_
        rw [List.length_take, hd] at hi
        show setBytes (fun _ => 0) ((key.drop path.length).take (min maxPrefixLen idx)) i = _
        rw [setBytes_lt _ (by rw [List.length_take, List.length_drop]; omega)]
        simp only [List.getElem_take]
      obtain ⟨hwf, hperm⟩ := pairNode_wf build rfl rfl hab hd hst (WF.leaf hlen hpa)
        (makeLeaf_wf hpb value)
      refine ⟨_, rfl, hwf, hperm.trans (List.Perm.of_eq ?_), _, a, b, rfl, rfl, hab, rfl⟩
      rw [entries_leaf, entries_leaf, makeLeaf_entry]
      refine (graft_eq_cons (fun e he => ?_) value).symm
      rw [List.mem_singleton.mp he]
      exact hinc.2

section Cut

variable {path c : List UInt8} (hl : Layout n keys children) (htwo : 2 ≤ degree n keys children)
  (hlen : c.length = n.partialLen) (hstored : n.stored = c.take maxPrefixLen)
  (hchild : ∀ b i, Slot n keys children b i → WF (path ++ c ++ [b]) (children i)) {d : Nat}
include hl htwo hlen hstored hchild

/-- **The rest of the old path**: its slot byte and its stored bytes are those
of the path, whether they come from `partial` or from a leaf. -/
theorem adjustPrefix_spec (past : Past) (hd : d < c.length) :
    ∃ old : Nat → UInt8, adjustPrefix past n keys children path.length d = .ok ((c)[d], old) ∧
      ∀ i < min maxPrefixLen (n.partialLen - (d + 1)), (c)[d + 1 + i]? = some (old i) := by
  unfold adjustPrefix
  by_cases hshort : n.partialLen ≤ maxPrefixLen
  · refine ⟨_, by rw [if_pos hshort,
      partialBytes_eq_of_stored hlen hstored (by omega) (by omega)], fun i hi => ?_⟩
    rw [memmove, if_pos ⟨Nat.zero_le i, by omega⟩, List.getElem?_eq_getElem (by omega)]
    rw [partialBytes_eq_of_stored hlen hstored (by omega) (by omega)]
    simp only [Nat.sub_zero]
  · have hwf : WF path (.node n keys children) := .node c hl htwo hlen hstored hchild
    obtain ⟨l, hmin, hmem, hbuf⟩ := hwf.minimum_spec
    obtain ⟨t, ht⟩ := WF.compressed hl hchild _ hmem
    have hbl := bytes_length hbuf
    change path ++ c ++ t = l.bytes at ht
    have hll : path.length + c.length + t.length = l.keyLen := by
      rw [← hbl, ← ht, List.length_append, List.length_append]
    have hkeyat : ∀ i < c.length, l.key[path.length + i]? = (c)[i]? := by
      intro i hi
      have h1 : l.bytes[path.length + i]? = (c)[i]? := by
        rw [← ht, List.append_assoc, List.getElem?_append_right (by omega),
          Nat.add_sub_cancel_left, List.getElem?_append_left hi]
      rwa [ArtLeaf.bytes, List.getElem?_take_of_lt (by omega)] at h1
    have hreadl : readByte past l.key (path.length + d) = .ok (c)[d] := by
      simp [readByte, hkeyat d hd, List.getElem?_eq_getElem hd]
    have hbytes := readBytes_eq past l.key (path.length + d + 1)
      (min maxPrefixLen (n.partialLen - (d + 1))) (by omega)
    rw [if_neg hshort, hmin]
    simp only [hreadl, hbytes, bind, Except.bind]
    refine ⟨_, rfl, fun i hi => ?_⟩
    rw [← hkeyat (d + 1 + i) (by omega), setBytes_lt _ (by
      rw [List.length_take, List.length_drop]; omega)]
    rw [List.getElem?_eq_getElem (by omega)]
    simp only [List.getElem_take, List.getElem_drop]
    congr 2
    omega

omit hstored in
/-- The old node goes below the byte at which its path is cut. -/
theorem WF.cutPath (hd : d < c.length) {old : Nat → UInt8}
    (hbytes : ∀ i < min maxPrefixLen (n.partialLen - (d + 1)), (c)[d + 1 + i]? = some (old i)) :
    WF (path ++ c.take d ++ [(c)[d]])
        (.node { n with partialLen := n.partialLen - (d + 1), partialBytes := old } keys children) ∧
      (entries (.node { n with partialLen := n.partialLen - (d + 1), partialBytes := old }
        keys children)).Perm (entries (.node n keys children)) := by
  obtain ⟨hl', hmap⟩ := hl.withHeader
    { n with partialLen := n.partialLen - (d + 1), partialBytes := old } rfl rfl
  have hcut : path ++ c.take d ++ [(c)[d]] ++ c.drop (d + 1) = path ++ c := by
    rw [List.append_assoc, List.append_assoc, List.append_right_inj]
    rw [List.singleton_append, ← List.drop_eq_getElem_cons hd, List.take_append_drop]
  constructor
  · refine .node (c.drop (d + 1)) hl' ?_ ?_ ?_ ?_
    · rwa [hl'.toMatching.degree_congr hl.toMatching hmap.symm] at htwo
    · rw [List.length_drop, hlen]
    · refine stored_eq ?_ fun i hi => ?_
      · rw [List.length_take, List.length_drop, hlen]
      · rw [List.length_take, List.length_drop, hlen] at hi
        have h1 := hbytes i hi
        rw [List.getElem?_eq_getElem (by omega)] at h1
        simp only [List.getElem_take, List.getElem_drop, Option.some.inj h1]
    · intro b' i hi
      rw [hcut]
      exact hchild b' i hi
  · refine (entries_node_perm hl'.toMatching).trans ?_
    rw [hmap]
    exact (entries_node_perm hl.toMatching).symm

end Cut

/-- Where a compressed path leaves the key. -/
theorem branch_of_path {path c key : List UInt8} (hkey : path <+: key)
    (hinc : Incomparable (path ++ c) key) :
    ∃ (hd : lcp c (key.drop path.length) < c.length) (b : UInt8),
      (c)[lcp c (key.drop path.length)] ≠ b ∧
      key[path.length + lcp c (key.drop path.length)]? = some b ∧
      path ++ c.take (lcp c (key.drop path.length)) ++ [b] <+: key := by
  obtain ⟨a, b, hab, ha, hb, -, hpb⟩ := branch_at_lcp (List.prefix_append path c) hkey hinc
  rw [List.drop_left] at ha hb hpb
  have hd : lcp c (key.drop path.length) < c.length := by
    by_contra hge
    rw [List.getElem?_eq_none (by rw [List.length_append]; omega)] at ha
    cases ha
  rw [List.getElem?_append_right (by omega), Nat.add_sub_cancel_left,
    List.getElem?_eq_getElem hd] at ha
  rw [← take_lcp] at hpb
  exact ⟨hd, b, by rwa [Option.some.inj ha], hb, hpb⟩

/-- Splitting a compressed path grafts the new entry, in a fresh NODE4 over the
node and the new leaf. -/
theorem splitPath_spec (past : Past) (build : Build) {path c key : List UInt8}
    (hl : Layout n keys children) (htwo : 2 ≤ degree n keys children)
    (hlen : c.length = n.partialLen) (hstored : n.stored = c.take maxPrefixLen)
    (hchild : ∀ b i, Slot n keys children b i → WF (path ++ c ++ [b]) (children i))
    (hkey : path <+: key) (hinc : Incomparable (path ++ c) key) (value : Option V) :
    ∃ x, splitPath past build n keys children key value path.length
        (lcp c (key.drop path.length)) = .ok x ∧
      WF path x ∧ (entries x).Perm (graft (entries (.node n keys children)) key value) ∧
      ∃ m : Header, m.type = n.type ∧ m.numChildren = n.numChildren ∧
        IsPair build (.node m keys children) (.leaf (makeLeaf key value)) x := by
  obtain ⟨hdlt, b, hab, hb, hpb⟩ := branch_of_path hkey hinc
  set d := lcp c (key.drop path.length) with hd
  have hreadk : readByte past key (path.length + d) = .ok b := by simp [readByte, hb]
  obtain ⟨old, hadj, hbytes⟩ := adjustPrefix_spec hl htwo hlen hstored hchild past hdlt
  obtain ⟨hwfo, hpermo⟩ := WF.cutPath hl htwo hlen hchild hdlt hbytes
  simp only [splitPath, hadj, bind, Except.bind, hreadk]
  have hleaf : WF (path ++ c.take d ++ [b]) (.leaf (makeLeaf key value)) := makeLeaf_wf hpb value
  have hd' : (c.take d).length = d := by rw [List.length_take]; omega
  have hst : ({ allocNode .node4 with
      partialLen := d
      partialBytes := memmove (fun _ => 0) 0 n.partialBytes 0 (min maxPrefixLen d) } :
        Header).stored = (c.take d).take maxPrefixLen := by
    refine stored_eq (by rw [List.length_take, hd']) fun i hi => ?_
    rw [List.length_take, hd'] at hi
    show memmove (fun _ => 0) 0 n.partialBytes 0 (min maxPrefixLen d) i = _
    rw [memmove, if_pos ⟨Nat.zero_le i, by omega⟩, Nat.sub_zero, Nat.zero_add,
      partialBytes_eq_of_stored hlen hstored (by omega) (by omega)]
    simp only [List.getElem_take]
  obtain ⟨hwf, hperm⟩ := pairNode_wf build rfl rfl hab hd' hst hwfo hleaf
  refine ⟨_, rfl, hwf, hperm.trans ?_,
    { n with partialLen := n.partialLen - (d + 1), partialBytes := old }, rfl, rfl,
    _, (c)[d], b, rfl, rfl, hab, rfl⟩
  rw [entries_leaf, makeLeaf_entry]
  refine (hpermo.cons _).trans (List.Perm.of_eq (graft_eq_cons ?_ value).symm)
  intro e he hke
  have hpc := WF.compressed hl hchild e he
  rcases List.prefix_or_prefix_of_prefix hke hpc with h | h
  · exact hinc.2 h
  · exact hinc.1 h

/-! ## updates below a node -/

/-- The entries below one slot, and the others. -/
theorem entries_node_slot (hl : Layout n keys children) {b : UInt8} {i : Nat}
    (hi : Slot n keys children b i) : (entries (.node n keys children)).Perm
      (entries (children i) ++ mapEntries (Function.update (childAt n keys children) b none)) := by
  refine (entries_node_perm hl.toMatching).trans ((mapEntries_perm _ b).trans (List.Perm.of_eq ?_))
  rw [hl.childAt_of_slot hi]
  rfl

/-- What is below other slots does not go through this one. -/
theorem not_prefix_of_other_slot {path c : List UInt8} {b : UInt8} (hl : Layout n keys children)
    (hchild : ∀ b i, Slot n keys children b i → WF (path ++ c ++ [b]) (children i)) :
    ∀ e ∈ mapEntries (Function.update (childAt n keys children) b none),
      Incomparable (path ++ c ++ [b]) e.1 := by
  intro e he
  obtain ⟨b', x, hb', hex⟩ := mem_mapEntries.mp he
  have hne : b' ≠ b := by
    rintro rfl
    rw [Function.update_self] at hb'
    cases hb'
  rw [Function.update_of_ne hne] at hb'
  obtain ⟨j, hj, rfl⟩ := hl.childAt_eq_some_iff.mp hb'
  exact incomparable_of_branch hne.symm List.prefix_rfl ((hchild b' j hj).starts_with e hex)

/-- A node whose child is replaced. -/
theorem WF.replaceChild {path c : List UInt8} (hl : Layout n keys children)
    (htwo : 2 ≤ degree n keys children) (hlen : c.length = n.partialLen)
    (hstored : n.stored = c.take maxPrefixLen)
    (hchild : ∀ b i, Slot n keys children b i → WF (path ++ c ++ [b]) (children i)) {b : UInt8}
    {i : Nat} (hi : Slot n keys children b i) {x : ArtNode V} (hx : WF (path ++ c ++ [b]) x) :
    WF path (.node n keys (Function.update children i x)) ∧
      (entries (.node n keys (Function.update children i x))).Perm
        (entries x ++ mapEntries (Function.update (childAt n keys children) b none)) := by
  obtain ⟨hl', hmap⟩ := hl.replace hi hx.isNull
  have hsize : mapSize (Function.update (childAt n keys children) b (some x)) =
      mapSize (childAt n keys children) := by
    unfold mapSize
    congr 1
    refine List.filter_congr fun b' _ => ?_
    by_cases hb : b' = b
    · subst hb; rw [Function.update_self, hl.childAt_of_slot hi]; rfl
    · rw [Function.update_of_ne hb]
  have hd := hl'.denotes
  rw [hmap] at hd
  obtain ⟨hwf, hperm⟩ := hd.wf hlen hstored
    (by rw [hsize, ← hl.degree_eq_mapSize]; exact htwo)
    (hl.forall_update (fun _ h => by cases h; exact hx) hchild)
  exact ⟨hwf, hperm.trans (mapEntries_update_perm _ b x)⟩

/-- **A graft below a slot is a graft on the node.** -/
theorem WF.graftChild {path c key : List UInt8} (hl : Layout n keys children)
    (htwo : 2 ≤ degree n keys children) (hlen : c.length = n.partialLen)
    (hstored : n.stored = c.take maxPrefixLen)
    (hchild : ∀ b i, Slot n keys children b i → WF (path ++ c ++ [b]) (children i)) {b : UInt8}
    {i : Nat} (hi : Slot n keys children b i) (hkey : path ++ c ++ [b] <+: key) {x : ArtNode V}
    (hx : WF (path ++ c ++ [b]) x) {v : Option V}
    (hperm : (entries x).Perm (graft (entries (children i)) key v)) :
    WF path (.node n keys (Function.update children i x)) ∧
      (entries (.node n keys (Function.update children i x))).Perm
        (graft (entries (.node n keys children)) key v) := by
  obtain ⟨hwf, hnode⟩ := WF.replaceChild hl htwo hlen hstored hchild hi hx
  refine ⟨hwf, hnode.trans ((hperm.append_right _).trans ?_)⟩
  refine (graft_append_perm fun e he hke => ?_).trans
    (graft_perm (entries_node_slot hl hi).symm key v)
  exact (not_prefix_of_other_slot hl hchild e he).1 (hkey.trans hke)

/-- **Adding a leaf at a free slot is a graft on the node.** -/
theorem WF.graftLeaf (build : Build) {path c key : List UInt8} (hl : Layout n keys children)
    (htwo : 2 ≤ degree n keys children) (hlen : c.length = n.partialLen)
    (hstored : n.stored = c.take maxPrefixLen)
    (hchild : ∀ b i, Slot n keys children b i → WF (path ++ c ++ [b]) (children i)) {b : UInt8}
    (hb : childAt n keys children b = none) (hkey : path ++ c ++ [b] <+: key) (v : Option V) :
    WF path (addChild build n keys children b (.leaf (makeLeaf key v))) ∧
      (entries (addChild build n keys children b (.leaf (makeLeaf key v)))).Perm
        (graft (entries (.node n keys children)) key v) := by
  have hd := addChild_denotes build hl hb
    (show (ArtNode.leaf (makeLeaf key v)).isNull = false from rfl)
  obtain ⟨hwf, hperm⟩ := hd.wf hlen hstored
    (by rw [mapSize_store hb, ← hl.degree_eq_mapSize]; omega)
    (hl.forall_update (fun _ h => by cases h; exact makeLeaf_wf hkey v) hchild)
  refine ⟨hwf, hperm.trans ((mapEntries_store_perm hb _).trans ?_)⟩
  rw [entries_leaf, makeLeaf_entry]
  have hother : mapEntries (Function.update (childAt n keys children) b none) =
      mapEntries (childAt n keys children) := by
    rw [← hb, Function.update_eq_self]
  refine List.Perm.trans (List.Perm.of_eq ?_)
    (graft_perm (entries_node_perm hl.toMatching).symm key v)
  rw [← hother]
  refine (graft_eq_cons (fun e he hke => ?_) v).symm
  exact (not_prefix_of_other_slot hl hchild e he).1 (hkey.trans hke)

end LightQuery
