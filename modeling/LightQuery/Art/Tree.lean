import LightQuery.Art.RemoveChild
import LightQuery.Lib.PrefixFamily

/-!
# LightQuery.Art.Tree

The invariant of a subtree and the family of entries it denotes.

`WF path x` says that `x` may hang below `path`: every leaf key starts with
`path`, an inner node has a compressed path that `partial_len` measures and
`partial` stores up to ten bytes, at least two children, and below the slot of
a byte everything continues with that byte.  From this alone the leaf keys are
prefix-free (`WF.prefixFree`), marks of disabled prefixes included, and a
subtree is determined, up to order, by the children of its root
(`entries_node_perm`).
-/

namespace LightQuery

open CArray PrefixFamily

variable {V : Type} {n : Header} {keys : Nat → UInt8} {children : Nat → ArtNode V}

/-! ## the invariant -/

/-- The subtree is well formed below `path`. -/
inductive WF : List UInt8 → ArtNode V → Prop where
  | leaf {path : List UInt8} {l : ArtLeaf V} (hlen : l.keyLen ≤ l.key.length)
      (hpath : path <+: l.bytes) : WF path (.leaf l)
  | node {path : List UInt8} {n : Header} {keys : Nat → UInt8} {children : Nat → ArtNode V}
      (c : List UInt8) (hl : Layout n keys children) (htwo : 2 ≤ degree n keys children)
      (hlen : c.length = n.partialLen) (hstored : n.stored = c.take maxPrefixLen)
      (hchild : ∀ b i, Slot n keys children b i → WF (path ++ c ++ [b]) (children i)) :
      WF path (.node n keys children)

/-- The entry that a leaf stands for: its key and its value, none for a mark. -/
def ArtLeaf.entry (l : ArtLeaf V) : List UInt8 × Option V := (l.bytes, l.value)

/-- The entries below a pointer. -/
def entries (x : ArtNode V) : List (List UInt8 × Option V) := (leaves x).map ArtLeaf.entry

@[simp] theorem entries_null : entries (.null : ArtNode V) = [] := rfl

@[simp] theorem entries_leaf (l : ArtLeaf V) : entries (.leaf l) = [l.entry] := rfl

/-- The entries below the children of a map of bytes. -/
def mapEntries (m : UInt8 → Option (ArtNode V)) : List (List UInt8 × Option V) :=
  allBytes.flatMap fun b => (m b).elim [] entries

/-- How many bytes have a child. -/
def mapSize (m : UInt8 → Option (ArtNode V)) : Nat := (allBytes.filter fun b => (m b).isSome).length

theorem mem_mapEntries {m : UInt8 → Option (ArtNode V)} {e : List UInt8 × Option V} :
    e ∈ mapEntries m ↔ ∃ b x, m b = some x ∧ e ∈ entries x := by
  simp only [mapEntries, List.mem_flatMap]
  constructor
  · rintro ⟨b, -, he⟩
    cases hb : m b with
    | none => rw [hb] at he; cases he
    | some x => rw [hb] at he; exact ⟨b, x, hb, he⟩
  · rintro ⟨b, x, hb, he⟩
    exact ⟨b, mem_allBytes b, by rw [hb]; exact he⟩

@[simp] theorem mapEntries_none : mapEntries (fun _ => (none : Option (ArtNode V))) = [] := by
  simp [mapEntries]

/-- The block of one byte can be moved to the front. -/
theorem mapEntries_perm (m : UInt8 → Option (ArtNode V)) (c : UInt8) :
    (mapEntries m).Perm ((m c).elim [] entries ++ mapEntries (Function.update m c none)) := by
  refine (flatMap_perm_update nodup_allBytes (mem_allBytes c) _).trans (List.Perm.of_eq ?_)
  congr 1
  refine List.flatMap_congr fun b _ => ?_
  by_cases hb : b = c
  · subst hb; simp
  · rw [Function.update_of_ne hb, Function.update_of_ne hb]

theorem mapEntries_update_perm (m : UInt8 → Option (ArtNode V)) (c : UInt8) (x : ArtNode V) :
    (mapEntries (Function.update m c (some x))).Perm
      (entries x ++ mapEntries (Function.update m c none)) := by
  have := mapEntries_perm (Function.update m c (some x)) c
  rwa [Function.update_self, Function.update_idem] at this

/-- Storing a child adds its entries. -/
theorem mapEntries_store_perm {m : UInt8 → Option (ArtNode V)} {c : UInt8} (hc : m c = none)
    (x : ArtNode V) :
    (mapEntries (Function.update m c (some x))).Perm (entries x ++ mapEntries m) := by
  have hm : Function.update m c none = m := by rw [← hc, Function.update_eq_self]
  have := mapEntries_update_perm m c x
  rwa [hm] at this

theorem mapSize_store {m : UInt8 → Option (ArtNode V)} {c : UInt8} (hc : m c = none)
    (x : ArtNode V) : mapSize (Function.update m c (some x)) = mapSize m + 1 := by
  refine length_filter_of_update nodup_allBytes (mem_allBytes c) (by simp [hc]) (by simp) ?_
  intro b hb
  rw [Function.update_of_ne hb]

theorem Matching.degree_eq_mapSize (hm : Matching n keys children) :
    degree n keys children = mapSize (childAt n keys children) := hm.degree_eq

/-- The entries of an inner node are those of its children. -/
theorem entries_node_perm (hm : Matching n keys children) :
    (entries (.node n keys children)).Perm (mapEntries (childAt n keys children)) := by
  have h := hm.flatMap_childOrder_perm (entries (V := V))
  refine List.Perm.trans (List.Perm.of_eq ?_) h
  simp only [entries, leaves, List.map_flatMap]

theorem mem_entries_node (hm : Matching n keys children) {e : List UInt8 × Option V} :
    e ∈ entries (.node n keys children) ↔
      ∃ b i, Slot n keys children b i ∧ e ∈ entries (children i) := by
  rw [(entries_node_perm hm).mem_iff, mem_mapEntries]
  constructor
  · rintro ⟨b, x, hb, he⟩
    obtain ⟨i, hi, rfl⟩ := hm.childAt_eq_some_iff.mp hb
    exact ⟨b, i, hi, he⟩
  · rintro ⟨b, i, hi, he⟩
    exact ⟨b, _, hm.childAt_of_slot hi, he⟩

/-! ## what the invariant gives -/

namespace WF

theorem isNull {path : List UInt8} {x : ArtNode V} (h : WF path x) : x.isNull = false := by
  cases h <;> rfl

/-- Every key below a pointer starts with the path to it. -/
theorem starts_with {path : List UInt8} {x : ArtNode V} (h : WF path x) :
    ∀ e ∈ entries x, path <+: e.1 := by
  induction h with
  | leaf hlen hpath => simpa [ArtLeaf.entry] using hpath
  | node c hl htwo hlen hstored hchild ih =>
      intro e he
      obtain ⟨b, i, hi, hex⟩ := (mem_entries_node hl.toMatching).mp he
      refine List.IsPrefix.trans ?_ (ih b i hi e hex)
      rw [List.append_assoc]
      exact List.prefix_append _ _

/-- A well-formed subtree has an entry. -/
theorem entries_ne_nil {path : List UInt8} {x : ArtNode V} (h : WF path x) : entries x ≠ [] := by
  induction h with
  | leaf hlen hpath => simp
  | node c hl htwo hlen hstored hchild ih =>
      rename_i n keys children
      obtain ⟨i, hi⟩ := List.exists_mem_of_length_pos (l := childOrder n keys children)
        (by show 0 < degree n keys children; omega)
      obtain ⟨b, hs⟩ := mem_childOrder.mp hi
      obtain ⟨e, he⟩ := List.exists_mem_of_ne_nil _ (ih b i hs)
      exact List.ne_nil_of_mem ((mem_entries_node hl.toMatching).mpr ⟨b, i, hs, he⟩)

/-- A key may be required to start with a longer path when all keys below do. -/
theorem compressed {path c : List UInt8} (hl : Layout n keys children)
    (hchild : ∀ b i, Slot n keys children b i → WF (path ++ c ++ [b]) (children i)) :
    ∀ e ∈ entries (.node n keys children), path ++ c <+: e.1 := by
  intro e he
  obtain ⟨b, i, hi, hex⟩ := (mem_entries_node hl.toMatching).mp he
  exact (List.prefix_append _ _).trans ((hchild b i hi).starts_with e hex)

/-- **No leaf key is a prefix of another one.** -/
theorem prefixFree {path : List UInt8} {x : ArtNode V} (h : WF path x) :
    PrefixFree (entries x) := by
  induction h with
  | leaf hlen hpath => exact List.pairwise_singleton _ _
  | node c hl htwo hlen hstored hchild ih =>
      refine PrefixFree.perm ?_ (entries_node_perm hl.toMatching).symm
      refine List.pairwise_flatMap.mpr ⟨fun b _ => ?_, ?_⟩
      · cases hb : childAt _ _ _ b with
        | none => exact List.Pairwise.nil
        | some x =>
            obtain ⟨i, hi, rfl⟩ := hl.childAt_eq_some_iff.mp hb
            exact ih b i hi
      -- keys below different bytes differ right after the compressed path
      · refine nodup_allBytes.imp fun {b b'} hbb e he e' he' => ?_
        cases hb : childAt _ _ _ b with
        | none => rw [hb] at he; cases he
        | some x =>
            cases hb' : childAt _ _ _ b' with
            | none => rw [hb'] at he'; cases he'
            | some x' =>
                obtain ⟨i, hi, rfl⟩ := hl.childAt_eq_some_iff.mp hb
                obtain ⟨i', hi', rfl⟩ := hl.childAt_eq_some_iff.mp hb'
                rw [hb] at he
                rw [hb'] at he'
                exact incomparable_of_branch hbb ((hchild b i hi).starts_with e he)
                  ((hchild b' i' hi').starts_with e' he')

end WF

/-! ## building well-formed nodes -/

/-- A node that denotes a map of well-formed children is well formed and holds
their entries. -/
theorem Denotes.wf {x : ArtNode V} {len : Nat} {stored : List UInt8}
    {m : UInt8 → Option (ArtNode V)} {path c : List UInt8} (h : Denotes x len stored m)
    (hlen : c.length = len) (hstored : stored = c.take maxPrefixLen) (htwo : 2 ≤ mapSize m)
    (hchild : ∀ b y, m b = some y → WF (path ++ c ++ [b]) y) :
    WF path x ∧ (entries x).Perm (mapEntries m) := by
  obtain ⟨n, keys, children, rfl, hl, rfl, rfl, rfl⟩ := h
  refine ⟨.node c hl (by rwa [hl.degree_eq_mapSize]) hlen hstored fun b i hi => ?_,
    entries_node_perm hl.toMatching⟩
  exact hchild b _ (hl.childAt_of_slot hi)

/-! ## replacing a child -/

/-- A child that takes the place of another one. -/
theorem isNull_update {i : Nat} {x : ArtNode V} (h : x.isNull = (children i).isNull) (j : Nat) :
    (Function.update children i x j).isNull = (children j).isNull := by
  by_cases hj : j = i
  · subst hj
    rw [Function.update_self, h]
  · rw [Function.update_of_ne hj]

/-- Of the children the slots and their order only depend on which are there. -/
theorem slot_congr {W : Type} (n : Header) (keys : Nat → UInt8) {children' : Nat → ArtNode W}
    (h : ∀ j, (children' j).isNull = (children j).isNull) (b : UInt8) (i : Nat) :
    Slot n keys children' b i ↔ Slot n keys children b i := by
  unfold Slot
  cases n.type <;> simp only [h]

theorem childOrder_congr {W : Type} {children' : Nat → ArtNode W}
    (h : ∀ j, (children' j).isNull = (children j).isNull) :
    childOrder n keys children' = childOrder n keys children := by
  unfold childOrder
  cases n.type <;> simp only [h]

/-- Replacing a child keeps the layout and changes the map at its byte. -/
theorem Layout.replace {b : UInt8} {i : Nat} (hl : Layout n keys children)
    (hi : Slot n keys children b i) {x : ArtNode V} (hx : x.isNull = false) :
    Layout n keys (Function.update children i x) ∧
      childAt n keys (Function.update children i x) =
        Function.update (childAt n keys children) b (some x) := by
  have hnull := isNull_update (hx.trans (hl.full hi).symm)
  have hslot := slot_congr n keys hnull
  have hdeg : degree n keys (Function.update children i x) = degree n keys children := by
    rw [degree, childOrder_congr hnull, degree]
  have hm' : Matching n keys (Function.update children i x) :=
    hl.toMatching.of_slots hslot fun _ _ => hl.bound
  refine ⟨{ toMatching := hm', full := ?_, free := ?_, count := ?_, floor := ?_ }, ?_⟩
  · intro b' j hj
    rw [hnull]
    exact hl.full ((hslot _ _).mp hj)
  · intro h48 j hj hj'
    rw [hnull] at hj'
    obtain ⟨b', hb'⟩ := hl.free h48 j hj hj'
    exact ⟨b', (hslot _ _).mpr hb'⟩
  · rw [hdeg]; exact hl.count
  · rw [hdeg]; exact hl.floor
  · funext b'
    by_cases hb : b' = b
    · subst hb
      rw [Function.update_self, hm'.childAt_of_slot ((hslot _ _).mpr hi), Function.update_self]
    · rw [Function.update_of_ne hb]
      cases hb' : childAt n keys children b' with
      | none =>
          rw [hl.childAt_eq_none_iff] at hb'
          exact hm'.childAt_eq_none_iff.mpr fun j hj => hb' j ((hslot _ _).mp hj)
      | some y =>
          obtain ⟨j, hj, rfl⟩ := hl.childAt_eq_some_iff.mp hb'
          have hji : j ≠ i := fun h => hb (hl.byte (h ▸ hj) hi)
          rw [hm'.childAt_of_slot ((hslot _ _).mpr hj), Function.update_of_ne hji]

/-! ## the least leaf -/

theorem minimum_node (htwo : 2 ≤ degree n keys children) :
    ∃ i b, Slot n keys children b i ∧
      minimum (.node n keys children) = minimum (children i) := by
  have hpos : ∃ i, i ∈ childOrder n keys children :=
    List.exists_mem_of_length_pos (by show 0 < degree n keys children; omega)
  cases ht : n.type with
  | node4 =>
      have hd : degree n keys children = n.numChildren.toNat := degree_node4 ht
      exact ⟨0, keys 0, (slot_node4 ht).mpr ⟨by omega, rfl⟩, by simp [minimum, ht]⟩
  | node16 =>
      have hd : degree n keys children = n.numChildren.toNat := degree_node16 ht
      exact ⟨0, keys 0, (slot_node16 ht).mpr ⟨by omega, rfl⟩, by simp [minimum, ht]⟩
  | node48 =>
      obtain ⟨i, hi⟩ := hpos
      obtain ⟨b, hs⟩ := mem_childOrder.mp hi
      obtain ⟨hlt, hk⟩ := firstIndex_spec (n := 256) (p := fun i => keys i != 0)
        ⟨b.toNat, b.toNat_lt, by simpa using ((slot_node48 ht).mp hs).1⟩
      refine ⟨_, UInt8.ofNat (firstIndex 256 fun i => keys i != 0),
        (slot_node48 ht).mpr ⟨?_, rfl⟩, ?_⟩
      · rw [toNat_ofNat_of_lt hlt]; simpa using hk
      · rw [toNat_ofNat_of_lt hlt]; simp [minimum, ht]
  | node256 =>
      obtain ⟨i, hi⟩ := hpos
      obtain ⟨b, hs⟩ := mem_childOrder.mp hi
      obtain ⟨hlt, hk⟩ := firstIndex_spec (n := 256) (p := fun i => !(children i).isNull)
        ⟨b.toNat, b.toNat_lt, by simpa using ((slot_node256 ht).mp hs).1⟩
      refine ⟨firstIndex 256 fun i => !(children i).isNull,
        UInt8.ofNat (firstIndex 256 fun i => !(children i).isNull),
        (slot_node256 ht).mpr ⟨?_, ?_⟩, by simp [minimum, ht]⟩
      · rw [toNat_ofNat_of_lt hlt]; simpa using hk
      · rw [toNat_ofNat_of_lt hlt]

/-- `minimum` finds a leaf of the subtree, whose buffer holds its whole key. -/
theorem WF.minimum_spec {path : List UInt8} {x : ArtNode V} (h : WF path x) :
    ∃ l, minimum x = some l ∧ l.entry ∈ entries x ∧ l.keyLen ≤ l.key.length := by
  induction h with
  | leaf hlen hpath => exact ⟨_, rfl, by simp, hlen⟩
  | node c hl htwo hlen hstored hchild ih =>
      obtain ⟨i, b, hs, hmin⟩ := minimum_node htwo
      obtain ⟨l, hl1, hl2, hl3⟩ := ih b i hs
      refine ⟨l, hmin.trans hl1, ?_, hl3⟩
      exact (mem_entries_node hl.toMatching).mpr ⟨b, i, hs, hl2⟩

/-- `destroy_node` frees every leaf, marks included. -/
theorem destroyNode_eq (x : ArtNode V) : destroyNode x = (entries x).length := by
  induction x with
  | null => rfl
  | leaf l => rfl
  | node n keys children ih =>
      simp only [destroyNode, entries, leaves, List.length_map, List.length_flatMap]
      simp only [ih, entries, List.length_map]

end LightQuery
