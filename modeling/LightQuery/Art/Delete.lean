import LightQuery.Art.Insert

/-!
# LightQuery.Art.Delete

`art_delete`.

`removeChild_wf` says that `remove_child` takes one child's entries away and
leaves a well-formed pointer, also where a NODE4 collapses into its last child.
`art_delete` descends like `art_search` and removes the leaf of the key
(`artDelete_present`), if there is one (`artDelete_absent`).
-/

namespace LightQuery

open CArray CommonPrefix PrefixFamily

variable {V : Type} {n : Header} {keys : Nat → UInt8} {children : Nat → ArtNode V}

/-! ## art_delete -/

/-- `recursive_delete`: the new `*ref` and the removed leaf. -/
def recursiveDelete (past : Past) (key : List UInt8) : ArtNode V → (depth : Nat) →
    Except Fault (ArtNode V × Option (ArtLeaf V))
  | .null, _ => .ok (.null, none)
  | .leaf l, _ => do
      if ← leafMatches past l key then .ok (.null, some l) else .ok (.leaf l, none)
  | .node n keys children, depth => do
      if ← prefixPasses past n key depth then
        let c ← readByte past key (depth + n.partialLen)
        match findChild n keys children c with
        | some i =>
            match children i with
            | .leaf l =>
                if ← leafMatches past l key then .ok (removeChild n keys children c i, some l)
                else .ok (.node n keys children, none)
            | _ =>
                let (x, l) ← recursiveDelete past key (children i) (depth + n.partialLen + 1)
                .ok (.node n keys (Function.update children i x), l)
        | none => .ok (.node n keys children, none)
      else .ok (.node n keys children, none)

/-- `art_delete`. -/
def artDelete (past : Past) (t : ArtTree V) (key : List UInt8) :
    Except Fault (ArtTree V × Option V) := do
  let (root, l) ← recursiveDelete past key t.root 0
  match l with
  | some l => .ok (⟨root, t.size - 1⟩, l.value)
  | none => .ok (⟨root, t.size⟩, none)

/-! ## what remove_child leaves -/

/-- An only child takes over the path of its parent. -/
theorem absorb_wf {path c : List UInt8} (hlen : c.length = n.partialLen)
    (hstored : n.stored = c.take maxPrefixLen) {b : UInt8} {x : ArtNode V}
    (h : WF (path ++ c ++ [b]) x) :
    WF path (absorb n b x) ∧ entries (absorb n b x) = entries x := by
  cases h with
  | leaf hbuf hpath =>
      refine ⟨.leaf hbuf (List.IsPrefix.trans ?_ hpath), rfl⟩
      rw [List.append_assoc]
      exact List.prefix_append _ _
  | @node _ m ks ch q hl htwo hq hst hchild =>
      obtain ⟨hl', hmap⟩ := hl.withHeader (mergeHeader n b m) rfl rfl
      refine ⟨.node (c ++ b :: q) hl' htwo ?_ (mergeHeader_stored hlen hq hstored hst) ?_, rfl⟩
      · show _ = m.partialLen + n.partialLen + 1
        rw [List.length_append, List.length_cons]
        omega
      · intro b' i hi
        have := hchild b' i hi
        simpa using this

/-- The only other child of a node with two. -/
theorem mapEntries_of_two {m : UInt8 → Option (ArtNode V)} {b c : UInt8} {x : ArtNode V}
    (hb : m b = some x) (honly : ∀ b', b' ≠ b → b' ≠ c → m b' = none) (hbc : b ≠ c) :
    (mapEntries (Function.update m c none)).Perm (entries x) := by
  have hx : Function.update m c none b = some x := by rwa [Function.update_of_ne hbc]
  have hrest : Function.update (Function.update m c none) b none = fun _ => none := by
    funext b'
    by_cases h1 : b' = b
    · subst h1; exact Function.update_self ..
    · rw [Function.update_of_ne h1]
      by_cases h2 : b' = c
      · subst h2; exact Function.update_self ..
      · rw [Function.update_of_ne h2, honly b' h1 h2]
  have h := mapEntries_perm (Function.update m c none) b
  rwa [hrest, hx, mapEntries_none, List.append_nil] at h

/-- A node with two children has one child besides a given one. -/
theorem exists_other_slot (hl : Layout n keys children) {c : UInt8} {pos : Nat}
    (hpos : Slot n keys children c pos) (h2 : degree n keys children = 2) :
    ∃ b i, Slot n keys children b i ∧ b ≠ c ∧
      ∀ b', b' ≠ b → b' ≠ c → childAt n keys children b' = none := by
  -- the loop over the children visits two slots, and one of them is `pos`
  have hlen : (childOrder n keys children).length = 2 := h2
  obtain ⟨i, j, hij⟩ := List.length_eq_two.mp hlen
  have hnd := hl.nodup_childOrder
  rw [hij] at hnd
  have hne : i ≠ j := by simpa using hnd
  have hcase : ∀ b' k, Slot n keys children b' k → k = i ∨ k = j := fun b' k hk => by
    have := mem_childOrder.mpr ⟨b', hk⟩
    simpa [hij] using this
  obtain ⟨o, ho, hopos, hor⟩ : ∃ o, o ∈ childOrder n keys children ∧ o ≠ pos ∧
      ∀ b' k, Slot n keys children b' k → k = o ∨ k = pos := by
    rcases hcase c pos hpos with h | h
    · exact ⟨j, by simp [hij], by rw [h]; exact hne.symm, fun b' k hk => by
        rw [h]; exact (hcase b' k hk).symm⟩
    · exact ⟨i, by simp [hij], by rw [h]; exact hne, fun b' k hk => by
        rw [h]; exact hcase b' k hk⟩
  obtain ⟨b, hb⟩ := mem_childOrder.mp ho
  refine ⟨b, o, hb, fun h => hopos (hl.slot hb (h ▸ hpos)), fun b' hbb hbc => ?_⟩
  rw [hl.childAt_eq_none_iff]
  intro k hk
  rcases hor b' k hk with rfl | rfl
  · exact hbb (hl.byte hk hb)
  · exact hbc (hl.byte hk hpos)

/-- **`remove_child` takes away what is below one slot** and leaves a
well-formed pointer. -/
theorem removeChild_wf {path c : List UInt8} (hl : Layout n keys children)
    (htwo : 2 ≤ degree n keys children) (hlen : c.length = n.partialLen)
    (hstored : n.stored = c.take maxPrefixLen)
    (hchild : ∀ b i, Slot n keys children b i → WF (path ++ c ++ [b]) (children i)) {b : UInt8}
    {pos : Nat} (hpos : Slot n keys children b pos) :
    WF path (removeChild n keys children b pos) ∧
      (entries (removeChild n keys children b pos)).Perm
        (mapEntries (Function.update (childAt n keys children) b none)) := by
  by_cases hmany : n.type = .node4 ∧ degree n keys children = 2
  · obtain ⟨ht, h2⟩ := hmany
    obtain ⟨b', i, hi, hne, honly⟩ := exists_other_slot hl hpos h2
    obtain ⟨hwf, hentries⟩ := absorb_wf hlen hstored (hchild b' i hi)
    rw [removeChild_of_two ht hl hpos hi hne h2]
    refine ⟨hwf, List.Perm.trans (List.Perm.of_eq hentries) ?_⟩
    exact (mapEntries_of_two (hl.childAt_of_slot hi) honly hne).symm
  · have hd := removeChild_denotes hl hpos htwo fun ht h2 => hmany ⟨ht, h2⟩
    have hthree : 3 ≤ degree n keys children := by
      have hfloor := hl.floor
      cases ht : n.type with
      | node4 => have : degree n keys children ≠ 2 := fun h => hmany ⟨ht, h⟩; omega
      | node16 | node48 | node256 => rw [ht, NodeType.floor] at hfloor; omega
    have hsize : mapSize (Function.update (childAt n keys children) b none) + 1 =
        mapSize (childAt n keys children) := by
      have hnone : Function.update (childAt n keys children) b none b = none :=
        Function.update_self ..
      have := mapSize_store hnone (children pos)
      rw [Function.update_idem, ← hl.childAt_of_slot hpos, Function.update_eq_self] at this
      exact this.symm
    exact hd.wf hlen hstored (by rw [hl.degree_eq_mapSize] at hthree; omega)
      (hl.forall_update (fun _ h => by cases h) hchild)

/-- What is left when everything below a slot goes. -/
theorem prune_node {path c : List UInt8} (hl : Layout n keys children)
    (hchild : ∀ b i, Slot n keys children b i → WF (path ++ c ++ [b]) (children i)) {b : UInt8}
    {i : Nat} (hi : Slot n keys children b i) {key : List UInt8} (hkey : path ++ c ++ [b] <+: key) :
    (prune (entries (.node n keys children)) key).Perm
      (prune (entries (children i)) key ++
        mapEntries (Function.update (childAt n keys children) b none)) := by
  refine (prune_perm (entries_node_slot hl hi) key).trans (List.Perm.of_eq ?_)
  rw [prune_append, prune_eq_self fun e he hke =>
    (not_prefix_of_other_slot hl hchild e he).1 (hkey.trans hke)]

/-! ## the descent -/

/-- **A key that is not in the tree leaves it as it is**, whatever is read past
the end of the key. -/
theorem recursiveDelete_absent (mem : Nat → UInt8) {path key : List UInt8} {x : ArtNode V}
    (h : WF path x) (habs : ∀ e ∈ entries x, e.1 ≠ key) (depth : Nat) :
    recursiveDelete (Past.lenient mem) key x depth = .ok (x, none) := by
  induction h generalizing depth with
  | @leaf path l hlen hpath =>
      have hne : l.bytes ≠ key := habs l.entry (by simp)
      rw [recursiveDelete, leafMatches_eq _ hlen]
      simp [bind, Except.bind, hne]
  | @node path n keys children c hl htwo hlen hstored hchild ih =>
      rw [recursiveDelete, prefixPasses_eq]
      simp only [bind, Except.bind]
      split
      · obtain ⟨a, ha⟩ : ∃ a, readByte (Past.lenient mem) key (depth + n.partialLen) = .ok a :=
          ⟨_, readByte_lenient mem key _⟩
        rw [ha]
        simp only
        cases hf : findChild n keys children a with
        | none => rfl
        | some i =>
            have hi := hl.findChild_eq_some_iff.mp hf
            have hsub : ∀ e ∈ entries (children i), e.1 ≠ key := fun e he =>
              habs e ((mem_entries_node hl.toMatching).mpr ⟨_, i, hi, he⟩)
            have hrec := ih a i hi hsub (depth + n.partialLen + 1)
            simp only
            split
            · next l hcl =>
                have hwf := hchild a i hi
                rw [hcl] at hwf hsub
                cases hwf with
                | leaf hbuf hpath =>
                    have hne : l.bytes ≠ key := hsub l.entry (by simp)
                    rw [leafMatches_eq _ hbuf]
                    simp [hne]
            · rw [hrec]
              simp only [Function.update_eq_self]
      · rfl

section Slot

variable (past : Past) {path c key : List UInt8} (hl : Layout n keys children)
  (hlen : c.length = n.partialLen) (hstored : n.stored = c.take maxPrefixLen) {b : UInt8} {i : Nat}
  (hi : Slot n keys children b i) (hbk : path ++ c ++ [b] <+: key)
include hl hlen hstored hi hbk

/-- A matching leaf below a slot is taken out of the node. -/
theorem recursiveDelete_leaf_slot {l : ArtLeaf V} (hcl : children i = .leaf l)
    (hbuf : l.keyLen ≤ l.key.length) (hk : l.bytes = key) :
    recursiveDelete past key (.node n keys children) path.length =
      .ok (removeChild n keys children b i, some l) := by
  obtain ⟨hc, -, hread⟩ := below_slot hbk
  have hpass : n.stored <+: key.drop path.length := by
    rw [hstored]; exact (List.take_prefix _ _).trans hc
  rw [recursiveDelete, prefixPasses_eq, ← hlen]
  simp only [bind, Except.bind, hpass, decide_true, if_true, hread,
    hl.findChild_eq_some_iff.mpr hi]
  rw [hcl]
  simp only [leafMatches_eq _ hbuf, hk, decide_true, if_true]

/-- Below an inner node the descent goes on. -/
theorem recursiveDelete_inner_slot (hnl : ∀ l, children i ≠ .leaf l) {x : ArtNode V}
    {l : Option (ArtLeaf V)}
    (hrec : recursiveDelete past key (children i) (path ++ c ++ [b]).length = .ok (x, l)) :
    recursiveDelete past key (.node n keys children) path.length =
      .ok (.node n keys (Function.update children i x), l) := by
  obtain ⟨hc, -, hread⟩ := below_slot hbk
  have hpass : n.stored <+: key.drop path.length := by
    rw [hstored]; exact (List.take_prefix _ _).trans hc
  rw [List.length_append, List.length_append, List.length_singleton] at hrec
  rw [recursiveDelete, prefixPasses_eq, ← hlen]
  simp only [bind, Except.bind, hpass, decide_true, if_true, hread,
    hl.findChild_eq_some_iff.mpr hi, hrec]

end Slot

/-- **A key of the tree is removed** with its leaf; reading stays inside the
key. -/
theorem recursiveDelete_present (past : Past) {path key : List UInt8} {x : ArtNode V}
    (h : WF path x) {v : Option V} (hv : (key, v) ∈ entries x) :
    ∃ x' l, recursiveDelete past key x path.length = .ok (x', some l) ∧ l.value = v ∧
      (entries x').Perm (prune (entries x) key) ∧
        (x' = .null ∧ (∃ l, x = .leaf l) ∨ WF path x') := by
  induction h with
  | @leaf path l hlen hpath =>
      have he : l.entry = (key, v) := (List.mem_singleton.mp hv).symm
      obtain ⟨hk, hval⟩ := Prod.mk.inj he
      rw [recursiveDelete, leafMatches_eq _ hlen]
      simp only [bind, Except.bind, hk, decide_true, if_true]
      refine ⟨_, _, rfl, hval, ?_, .inl ⟨rfl, l, rfl⟩⟩
      rw [prune_eq_nil]
      · exact List.Perm.refl _
      · intro e he
        rw [List.mem_singleton.mp he, ← hk]
        exact List.prefix_rfl
  | @node path n keys children c hl htwo hlen hstored hchild ih =>
      obtain ⟨b, i, hi, hex⟩ := (mem_entries_node hl.toMatching).mp hv
      have hbk := (hchild b i hi).starts_with _ hex
      have hprune := prune_node hl hchild hi hbk
      by_cases hleaf : ∃ l, children i = .leaf l
      · obtain ⟨l, hcl⟩ := hleaf
        have hwf := hchild b i hi
        rw [hcl] at hwf hex hprune
        cases hwf with
        | leaf hbuf hpath =>
            have he : l.entry = (key, v) := (List.mem_singleton.mp hex).symm
            obtain ⟨hk, hval⟩ := Prod.mk.inj he
            obtain ⟨hwf', hperm⟩ := removeChild_wf hl htwo hlen hstored hchild hi
            refine ⟨_, _, recursiveDelete_leaf_slot past hl hlen hstored hi hbk hcl hbuf hk, hval,
              hperm.trans ?_, .inr hwf'⟩
            rw [prune_eq_nil (F := entries (.leaf l)) fun e he => by
              rw [List.mem_singleton.mp he, ← hk]; exact List.prefix_rfl] at hprune
            exact hprune.symm
      · have hnl : ∀ l, children i ≠ .leaf l := fun l hl => hleaf ⟨l, hl⟩
        obtain ⟨x', l, hx', hval, hperm, hcase⟩ := ih b i hi hex
        have hwf' : WF (path ++ c ++ [b]) x' := by
          rcases hcase with ⟨-, l, hl'⟩ | h
          · exact absurd hl' (hnl l)
          · exact h
        obtain ⟨hwfn, hpermn⟩ := WF.replaceChild hl htwo hlen hstored hchild hi hwf'
        exact ⟨_, _, recursiveDelete_inner_slot past hl hlen hstored hi hbk hnl hx', hval,
          hpermn.trans ((hperm.append_right _).trans hprune.symm), .inr hwfn⟩

/-! ## whole trees -/

/-- A key that is not in the tree is not deleted. -/
theorem artDelete_absent (mem : Nat → UInt8) {t : ArtTree V} (h : t.WF) {key : List UInt8}
    (habs : ∀ e ∈ entries t.root, e.1 ≠ key) :
    artDelete (Past.lenient mem) t key = .ok (t, none) := by
  rcases h with h | h
  · obtain ⟨root, size⟩ := t
    have h' : root = .null := h
    subst h'
    rfl
  · rw [artDelete, recursiveDelete_absent mem h habs]
    rfl

/-- A key of the tree is deleted, and counted off. -/
theorem artDelete_present (past : Past) {t : ArtTree V} (h : t.WF) {key : List UInt8}
    {v : Option V} (hv : (key, v) ∈ entries t.root) :
    ∃ t', artDelete past t key = .ok (t', v) ∧ t'.WF ∧
      (entries t'.root).Perm (prune (entries t.root) key) ∧ t'.size = t.size - 1 := by
  rcases h with h | h
  · rw [h] at hv; cases hv
  · obtain ⟨x, l, hx, hval, hperm, hcase⟩ := recursiveDelete_present past h hv
    rw [List.length_nil] at hx
    refine ⟨⟨x, t.size - 1⟩, ?_, ?_, hperm, rfl⟩
    · rw [artDelete, hx, ← hval]
      rfl
    · rcases hcase with ⟨hnull, -⟩ | hwf
      · exact .inl hnull
      · exact .inr hwf

end LightQuery
