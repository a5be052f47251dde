import LightQuery.Art.Overrun
import LightQuery.Index.Scopes
import LightQuery.Index.Stored

/-!
# LightQuery.Index.Shape

The shape of the tree after runs of inserts, removals and disables.

`NodeInvariant` is the representation invariant of one node at its depth, in
terms of the arrays of the node and of the leaves below it.  The descents of
`get`, `lookup` and `remove_key` leave the searched key at compressed paths
longer than ten bytes; the last section says exactly when.
-/

namespace LightQuery

open CArray CommonPrefix PrefixFamily

variable {V : Type}

/-! ## runs with removals -/

/-- An insert or a disable in the address format, no insert under a prefix that
is disabled already, no disable of the empty prefix, and any removal. -/
def FormatStep (ops : List (IndexOp V)) (_ : ArtTree V) (op : IndexOp V) : Prop :=
  AddressFormat ops op ∧
    match op with
    | .insert k _ => ∀ p, .disable p ∈ ops → ¬ p <+: loadKey k
    | .disable p => p ≠ []
    | .removeKey _ => True

/-- A format step leaves a well-formed tree whose entries are traced. -/
theorem formatStep_spec {build : Build} {ops : List (IndexOp V)} {t : ArtTree V} {op : IndexOp V}
    (h : Traced ops t) (hop : FormatStep ops t op) (mem : Nat → UInt8) :
    ∃ t', op.exec (Past.lenient mem) build t = .ok t' ∧ Traced (op :: ops) t' := by
  obtain ⟨hformat, hop⟩ := hop
  cases op with
  | insert k v =>
      obtain ⟨t', hrun, htr, -⟩ := h.insert ⟨hformat, hop⟩ (Past.lenient mem) build
      exact ⟨t', hrun, htr⟩
  | disable p =>
      obtain ⟨t', ret, hrun, htr, -⟩ :=
        h.disable hformat (readsInside_of_ne_nil hop _) (Past.lenient mem) build
      exact ⟨t', by rw [IndexOp.exec, hrun]; rfl, htr⟩
  | removeKey k =>
      obtain ⟨t', hrun, hwf, hmem⟩ := removeKey_mem h.wf mem k
      exact ⟨t', hrun, hwf, fun e he => (h.weaken _).trace e ((hmem e).mp he).1⟩

theorem traced_of_formatRun {build : Build} {ops : List (IndexOp V)} {t : ArtTree V}
    (h : Run build FormatStep ops t) : Traced ops t := by
  induction h with
  | init => exact .init
  | step mem h hop hexec ih =>
      obtain ⟨t', hrun, htr⟩ := formatStep_spec ih hop mem
      rw [hexec] at hrun
      cases hrun
      exact htr

/-! ## the representation invariant -/

/-- The pointers below a pointer and the depth at which they hang. -/
inductive Below (x : ArtNode V) : (depth : Nat) → ArtNode V → Prop
  | self : Below x 0 x
  | child {depth : Nat} {n : Header} {keys : Nat → UInt8} {children : Nat → ArtNode V} {i : Nat}
      (h : Below x depth (.node n keys children)) (hi : i ∈ childOrder n keys children) :
      Below x (depth + n.partialLen + 1) (children i)

/-- Least number of children of a node. -/
def NodeType.least : NodeType → Nat
  | .node4 => 2
  | .node16 => 4
  | .node48 => 13
  | .node256 => 38

/-- **The representation invariant** of a node at a depth. -/
structure NodeInvariant (depth : Nat) (n : Header) (keys : Nat → UInt8)
    (children : Nat → ArtNode V) : Prop where
  /-- how many children a node of its type has -/
  size : n.type.least ≤ degree n keys children ∧ degree n keys children ≤ n.type.capacity
  /-- `num_children` counts them modulo 256, and is 0 for 256 children only -/
  count : n.numChildren.toNat = degree n keys children % 256 ∧
    (n.numChildren = 0 ↔ degree n keys children = 256)
  /-- no child in use is NULL -/
  full : ∀ i ∈ childOrder n keys children, (children i).isNull = false
  /-- the bytes of a NODE4 or a NODE16 are distinct -/
  keyed : n.type.Keyed → ∀ i j, i < j → j < n.numChildren.toNat → keys i ≠ keys j
  /-- the key map of a NODE48 is a bijection onto its slots that are not NULL -/
  mapped : n.type = .node48 →
    (∀ b : UInt8, keys b.toNat ≠ 0 → (keys b.toNat).toNat ≤ 48 ∧
      (children ((keys b.toNat).toNat - 1)).isNull = false) ∧
    ∀ j < 48, (children j).isNull = false → ∃! b : UInt8, (keys b.toNat).toNat = j + 1
  /-- `partial_len` counts the bytes after `depth` that all leaf keys below share -/
  shared : ∀ l ∈ leaves (.node n keys children), ∀ l' ∈ leaves (.node n keys children),
    ∀ i < n.partialLen, ∃ b, l.bytes[depth + i]? = some b ∧ l'.bytes[depth + i]? = some b
  /-- and no byte more -/
  parted : ∃ l ∈ leaves (.node n keys children), ∃ l' ∈ leaves (.node n keys children),
    l.bytes[depth + n.partialLen]? ≠ l'.bytes[depth + n.partialLen]?
  /-- `partial` holds the first ten of them -/
  stored : ∀ l ∈ leaves (.node n keys children), ∀ i < min maxPrefixLen n.partialLen,
    l.bytes[depth + i]? = some (n.partialBytes i)
  /-- every leaf below a child has a key through the path to it and its byte -/
  through : ∃ path : List UInt8, path.length = depth + n.partialLen ∧
    ∀ b i, Slot n keys children b i → ∀ l ∈ leaves (children i), path ++ [b] <+: l.bytes

variable {n : Header} {keys : Nat → UInt8} {children : Nat → ArtNode V}

theorem Below.of_null {y : ArtNode V} {depth : Nat} (h : Below .null depth y) : y = .null := by
  generalize hx : (.null : ArtNode V) = x at h
  induction h with
  | self => rfl
  | child h hi ih => cases hx.trans ih.symm

/-- What hangs below a well-formed pointer is well formed at its depth. -/
theorem WF.atDepth {path : List UInt8} {x y : ArtNode V} {depth : Nat} (h : WF path x)
    (hy : Below x depth y) : ∃ q, q.length = path.length + depth ∧ WF q y := by
  induction hy with
  | self => exact ⟨path, rfl, h⟩
  | @child depth n keys children i hy hi ih =>
      obtain ⟨q, hq, hwf⟩ := ih
      cases hwf with
      | node c hl htwo hlen hstored hchild =>
          obtain ⟨b, hb⟩ := mem_childOrder.mp hi
          refine ⟨q ++ c ++ [b], ?_, hchild b i hb⟩
          rw [List.length_append, List.length_append, List.length_singleton]
          omega

theorem Layout.size_bounds (hl : Layout n keys children) (htwo : 2 ≤ degree n keys children) :
    n.type.least ≤ degree n keys children ∧ degree n keys children ≤ n.type.capacity := by
  have hfloor := hl.floor
  cases ht : n.type with
  | node4 =>
      have := numChildren_le_of_keyed (.inl ht) hl.toMatching
      rw [ht] at this
      exact ⟨htwo, by rwa [degree_node4 ht]⟩
  | node16 =>
      have := numChildren_le_of_keyed (.inr ht) hl.toMatching
      rw [ht] at this hfloor
      exact ⟨hfloor, by rwa [degree_node16 ht]⟩
  | node48 =>
      rw [ht] at hfloor
      exact ⟨hfloor, degree_le_of_node48 ht hl.toMatching⟩
  | node256 =>
      rw [ht] at hfloor
      exact ⟨hfloor, degree_le_256 hl.toMatching⟩

/-- The key map of a NODE48 is a bijection. -/
theorem Layout.mapped (hl : Layout n keys children) (ht : n.type = .node48) :
    (∀ b : UInt8, keys b.toNat ≠ 0 → (keys b.toNat).toNat ≤ 48 ∧
      (children ((keys b.toNat).toNat - 1)).isNull = false) ∧
    ∀ j < 48, (children j).isNull = false → ∃! b : UInt8, (keys b.toNat).toNat = j + 1 := by
  have hne : ∀ b : UInt8, keys b.toNat ≠ 0 → (keys b.toNat).toNat ≠ 0 := fun b hb h =>
    hb (UInt8.toNat_inj.mp h)
  constructor
  · intro b hb
    have hs : Slot n keys children b ((keys b.toNat).toNat - 1) := (slot_node48 ht).mpr ⟨hb, rfl⟩
    have hbound := hl.bound hs
    rw [ht, NodeType.capacity] at hbound
    exact ⟨by omega, hl.full hs⟩
  · intro j hj hused
    obtain ⟨b, hb⟩ := hl.free ht j hj hused
    obtain ⟨hb', hbj⟩ := (slot_node48 ht).mp hb
    refine ⟨b, ?_, fun b' (hb'' : (keys b'.toNat).toNat = j + 1) => ?_⟩
    · have := hne b hb'
      show (keys b.toNat).toNat = j + 1
      omega
    · refine hl.byte ((slot_node48 ht).mpr ⟨fun h => ?_, ?_⟩) hb
      · rw [h] at hb''
        cases hb''
      · show j = _
        rw [hb'']
        rfl

/-- The leaves of a node are those below its slots. -/
theorem mem_leaves_node {l : ArtLeaf V} :
    l ∈ leaves (.node n keys children) ↔
      ∃ b i, Slot n keys children b i ∧ l ∈ leaves (children i) := by
  rw [leaves, List.mem_flatMap]
  constructor
  · rintro ⟨i, hi, hl⟩
    obtain ⟨b, hb⟩ := mem_childOrder.mp hi
    exact ⟨b, i, hb, hl⟩
  · rintro ⟨b, i, hb, hl⟩
    exact ⟨i, mem_childOrder.mpr ⟨b, hb⟩, hl⟩

/-- **A well-formed node has the representation invariant.** -/
theorem WF.nodeInvariant {path : List UInt8} (h : WF path (.node n keys children)) :
    NodeInvariant path.length n keys children := by
  cases h with
  | node c hl htwo hlen hstored hchild =>
      have hstart : ∀ {b i}, Slot n keys children b i → ∀ l ∈ leaves (children i),
          path ++ c ++ [b] <+: l.bytes := fun hb l hl =>
        (hchild _ _ hb).starts_with l.entry (List.mem_map_of_mem hl)
      have hpath : ∀ l ∈ leaves (.node n keys children), ∀ i < c.length,
          l.bytes[path.length + i]? = (c)[i]? := by
        intro l hl i hi
        obtain ⟨b, j, hb, hlj⟩ := mem_leaves_node.mp hl
        obtain ⟨t, ht⟩ := hstart hb l hlj
        rw [← ht, List.append_assoc, List.append_assoc, List.getElem?_append_right (by omega),
          Nat.add_sub_cancel_left, List.getElem?_append_left hi]
      have hbyte : ∀ {b i}, Slot n keys children b i → ∀ l ∈ leaves (children i),
          l.bytes[path.length + n.partialLen]? = some b := by
        intro b i hb l hl
        obtain ⟨t, ht⟩ := hstart hb l hl
        rw [← ht, ← hlen, ← List.length_append, List.append_assoc,
          List.getElem?_append_right (Nat.le_refl _), Nat.sub_self]
        rfl
      refine
        { size := hl.size_bounds htwo
          count := ⟨hl.count, ?_⟩
          full := fun i hi => ?_
          keyed := fun ht i j hij hj heq => ?_
          mapped := hl.mapped
          shared := fun l hl l' hl' i hi => ?_
          parted := ?_
          stored := fun l hl i hi => ?_
          through := ⟨path ++ c, by rw [List.length_append, hlen], fun b i hb => hstart hb⟩ }
      · have hle := degree_le_256 hl.toMatching
        have hcount := hl.count
        rw [← UInt8.toNat_inj, hcount]
        show degree n keys children % 256 = 0 ↔ _
        omega
      · obtain ⟨b, hb⟩ := mem_childOrder.mp hi
        exact hl.full hb
      · have hi : Slot n keys children (keys j) i := (slot_keyed ht).mpr ⟨by omega, heq⟩
        have := hl.slot hi ((slot_keyed ht).mpr ⟨hj, rfl⟩)
        omega
      · have hi' : i < c.length := by omega
        exact ⟨(c)[i], by rw [hpath l hl i hi', List.getElem?_eq_getElem hi'],
          by rw [hpath l' hl' i hi', List.getElem?_eq_getElem hi']⟩
      · -- two slots have two bytes
        obtain ⟨i, j, hij, hi, hj⟩ : ∃ i j, i ≠ j ∧ i ∈ childOrder n keys children ∧
            j ∈ childOrder n keys children := by
          have hnd := hl.nodup_childOrder
          rw [degree] at htwo
          cases ho : childOrder n keys children with
          | nil => simp [ho] at htwo
          | cons i rest =>
              cases rest with
              | nil => simp [ho] at htwo
              | cons j rest =>
                  rw [ho] at hnd
                  exact ⟨i, j, by rintro rfl; simp at hnd, by simp, by simp⟩
        obtain ⟨b, hb⟩ := mem_childOrder.mp hi
        obtain ⟨b', hb'⟩ := mem_childOrder.mp hj
        have hleaf : ∀ {b i}, Slot n keys children b i → ∃ l, l ∈ leaves (children i) := by
          intro b i hb
          obtain ⟨e, he⟩ := List.exists_mem_of_ne_nil _ (hchild b i hb).entries_ne_nil
          obtain ⟨l, hl, -⟩ := List.mem_map.mp he
          exact ⟨l, hl⟩
        obtain ⟨l, hl1⟩ := hleaf hb
        obtain ⟨l', hl2⟩ := hleaf hb'
        refine ⟨l, mem_leaves_node.mpr ⟨b, i, hb, hl1⟩, l', mem_leaves_node.mpr ⟨b', j, hb', hl2⟩,
          ?_⟩
        rw [hbyte hb l hl1, hbyte hb' l' hl2]
        intro heq
        exact hij (hl.slot hb (Option.some.inj heq ▸ hb'))
      · rw [hpath l hl i (by omega), List.getElem?_eq_getElem (by omega),
          partialBytes_eq_of_stored hlen hstored (by omega) (by omega)]

/-- **The representation invariant holds of every reachable tree**, at every
node. -/
theorem representation_of_run {build : Build} {ops : List (IndexOp V)} {t : ArtTree V}
    (h : Run build FormatStep ops t) {depth : Nat} {n : Header} {keys : Nat → UInt8}
    {children : Nat → ArtNode V} (hnode : Below t.root depth (.node n keys children)) :
    NodeInvariant depth n keys children := by
  rcases (traced_of_formatRun h).wf with hnull | hwf
  · rw [hnull] at hnode
    cases hnode.of_null
  · obtain ⟨q, hq, hwf⟩ := hwf.atDepth hnode
    rw [List.length_nil, Nat.zero_add] at hq
    exact hq ▸ hwf.nodeInvariant

/-- The root of a tree that was split, disabled and collapsed: the hypotheses of
`representation_of_run` can be met. -/
theorem representation_of_run_collapsed : ∃ n keys children,
    (replay (fun _ => 7) .sse2 [.removeKey [4], .disable [1, 2], .insert [4] (some 30),
      .insert [1, 3] (some 20), .insert [1, 2] (some (10 : Nat))]).root = .node n keys children ∧
    NodeInvariant 0 n keys children := by
  have h0 : Run .sse2 FormatStep [] (replay (fun _ => 7) .sse2 ([] : List (IndexOp Nat))) := .init
  have h1 := h0.replay_step (.insert [1, 2] (some 10)) ⟨⟨by simp, by simp⟩, by simp⟩
    (by decide +kernel)
  have h2 := h1.replay_step (.insert [1, 3] (some 20))
    ⟨⟨by simp [Incomparable, loadKey], by simp⟩, by simp⟩ (by decide +kernel)
  have h3 := h2.replay_step (.insert [4] (some 30))
    ⟨⟨fun k v hk => by
      simp only [List.mem_cons, IndexOp.insert.injEq, List.not_mem_nil, or_false] at hk
      rcases hk with ⟨rfl, -⟩ | ⟨rfl, -⟩ <;> simp [Incomparable, loadKey], by simp⟩, by simp⟩
    (by decide +kernel)
  have h4 := h3.replay_step (.disable [1, 2])
    ⟨fun k v hk => by
      simp only [List.mem_cons, IndexOp.insert.injEq, List.not_mem_nil, or_false] at hk
      rcases hk with ⟨rfl, -⟩ | ⟨rfl, -⟩ | ⟨rfl, -⟩ <;> decide, by simp⟩ (by decide +kernel)
  have h5 := h4.replay_step (.removeKey [4]) ⟨trivial, trivial⟩ (by decide +kernel)
  have hlen : (leaves (replay (fun _ => 7) .sse2 [.removeKey [4], .disable [1, 2],
      .insert [4] (some 30), .insert [1, 3] (some 20),
      .insert [1, 2] (some (10 : Nat))]).root).length = 2 := by decide +kernel
  cases hroot : (replay (fun _ => 7) .sse2 [.removeKey [4], .disable [1, 2],
      .insert [4] (some 30), .insert [1, 3] (some 20), .insert [1, 2] (some (10 : Nat))]).root with
  | null => rw [hroot] at hlen; cases hlen
  | leaf l => rw [hroot] at hlen; cases hlen
  | node n keys children =>
      exact ⟨n, keys, children, rfl, representation_of_run h5 (hroot ▸ Below.self)⟩

/-! ## descents and the end of the key -/

/-- **The descents read only bytes of the searched key** if and only if the key
overruns no node. -/
theorem descentsInside_of_run {build : Build} {ops : List (IndexOp V)} {t : ArtTree V}
    (h : Run build FormatStep ops t) (key : List UInt8) :
    DescentsInside t key ↔ ¬ Overruns key t.root 0 :=
  descentsInside_iff (traced_of_formatRun h).wf key

/-- Three keys, and a searched key that parts from two of them behind their
compressed path: the hypothesis of `descentsInside_of_run` can be met, and its
condition too. -/
theorem descentsInside_of_run_three_keys :
    DescentsInside (replay (fun _ => 7) .sse2 threeKeys) (loadKey [1, 2, 5]) := by
  have h : Run .sse2 FormatStep threeKeys (replay (fun _ => 7) .sse2 threeKeys) :=
    run_threeKeys fun ops t k v hk hno => ⟨hk, fun p hp => absurd hp (hno p)⟩
  have hwf := (traced_of_formatRun h).wf.resolve_left (ne_null_of_isNull (by decide +kernel))
  have hkeys : ∀ e ∈ entries (replay (fun _ => 7) .sse2 threeKeys).root,
      e.1.length ≤ maxPrefixLen ∧ (loadKey [1, 2, 5] <+: e.1 → loadKey [1, 2, 5] = e.1) := by
    decide +kernel
  refine (descentsInside_of_run h (loadKey [1, 2, 5])).mpr fun hover => ?_
  -- no key is long enough for a path that is overrun
  obtain ⟨q, c, -, -, hlong, -, -, e, he, hqe⟩ :=
    long_path_of_overruns hwf List.nil_prefix (fun e he => (hkeys e he).2) hover
  have hle := hqe.length_le
  have hshort := (hkeys e he).1
  rw [List.length_append] at hle
  omega

/-- Two keys that part behind their first twelve bytes, and a searched key that
leaves their path at its eleventh byte and ends there: byte 12 is read. -/
theorem descents_read_past_the_key : ¬ ∀ (ops : List (IndexOp Nat)) (t : ArtTree Nat)
    (k : List UInt8), Run .sse2 FormatStep ops t → (∀ op ∈ ops, ∃ k v, op = .insert k v) →
      (∀ e ∈ entries t.root, loadKey k <+: e.1 → loadKey k = e.1) →
        DescentsInside t (loadKey k) := by
  intro hall
  have h0 : Run .sse2 FormatStep [] (replay (fun _ => 7) .sse2 ([] : List (IndexOp Nat))) := .init
  have h1 := h0.replay_step (.insert [0, 1, 2, 3, 4, 5, 6, 7, 8, 9, 10, 11, 1] (some 10))
    ⟨⟨by simp, by simp⟩, by simp⟩ (by decide +kernel)
  have h2 := h1.replay_step (.insert [0, 1, 2, 3, 4, 5, 6, 7, 8, 9, 10, 11, 2] (some 20))
    ⟨⟨by simp [Incomparable, loadKey], by simp⟩, by simp⟩ (by decide +kernel)
  have hkeys : (entries (replay (fun _ => 7) .sse2
      [.insert [0, 1, 2, 3, 4, 5, 6, 7, 8, 9, 10, 11, 2] (some 20),
        .insert [0, 1, 2, 3, 4, 5, 6, 7, 8, 9, 10, 11, 1] (some (10 : Nat))]).root).map Prod.fst =
      [[0, 1, 2, 3, 4, 5, 6, 7, 8, 9, 10, 11, 1, 0], [0, 1, 2, 3, 4, 5, 6, 7, 8, 9, 10, 11, 2, 0]] := by
    decide +kernel
  have hin := hall _ _ [0, 1, 2, 3, 4, 5, 6, 7, 8, 9] h2
    (fun op hop => by
      simp only [List.mem_cons, List.not_mem_nil, or_false] at hop
      rcases hop with rfl | rfl
      · exact ⟨_, _, rfl⟩
      · exact ⟨_, _, rfl⟩)
    (fun e he hpre => by
      have hmem := List.mem_map_of_mem (f := Prod.fst) he
      rw [hkeys] at hmem
      simp only [List.mem_cons, List.not_mem_nil, or_false] at hmem
      rcases hmem with heq | heq
      · exact absurd (heq ▸ hpre) (by decide)
      · exact absurd (heq ▸ hpre) (by decide))
  obtain ⟨r, hr⟩ := hin.search
  have hpast : artSearch Past.strict (replay (fun _ => 7) .sse2
      [.insert [0, 1, 2, 3, 4, 5, 6, 7, 8, 9, 10, 11, 2] (some 20),
        .insert [0, 1, 2, 3, 4, 5, 6, 7, 8, 9, 10, 11, 1] (some (10 : Nat))])
      (loadKey [0, 1, 2, 3, 4, 5, 6, 7, 8, 9]) = .error (.pastEnd 12) := by
    decide +kernel
  rw [hpast] at hr
  cases hr

end LightQuery
