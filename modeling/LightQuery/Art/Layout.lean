import LightQuery.Art.Node
import Mathlib.Tactic.Common

/-!
# LightQuery.Art.Layout

A node as a finite map from bytes to children.

`Slot` says which slot of a node holds the child of a byte, for each of the
four layouts, and `Layout` collects what the routines on a node rely on and
keep: slots are one-to-one with bytes, hold no NULL, lie inside the array, and
`num_children` counts them modulo 256.  `childAt` is the map that a node
denotes; the last sections show that `add_child` stores one entry in it, that
`remove_child` erases one, and that growing and shrinking keep it.
-/

namespace LightQuery

open CArray

variable {V : Type} {n : Header} {keys : Nat → UInt8} {children : Nat → ArtNode V}

/-! ## all bytes -/

theorem toNat_ofNat_of_lt {i : Nat} (h : i < 256) : (UInt8.ofNat i).toNat = i := by
  rw [UInt8.toNat_ofNat']; omega

theorem toNat_add_one {x : UInt8} (h : x.toNat < 255) : (x + 1).toNat = x.toNat + 1 := by
  rw [UInt8.toNat_add]; simp; omega

/-- The 256 bytes in order. -/
def allBytes : List UInt8 := (List.range 256).map UInt8.ofNat

theorem mem_allBytes (b : UInt8) : b ∈ allBytes :=
  List.mem_map.mpr ⟨b.toNat, List.mem_range.mpr b.toNat_lt, UInt8.ofNat_toNat⟩

theorem nodup_allBytes : allBytes.Nodup := by
  refine List.Nodup.map_on ?_ List.nodup_range
  intro i hi j hj h
  have h' := congrArg UInt8.toNat h
  rwa [toNat_ofNat_of_lt (List.mem_range.mp hi), toNat_ofNat_of_lt (List.mem_range.mp hj)] at h'

theorem length_allBytes : allBytes.length = 256 := by
  rw [allBytes, List.length_map, List.length_range]

/-! ## slots -/

/-- Slot `i` of the node holds the child for byte `b`. -/
def Slot (n : Header) (keys : Nat → UInt8) (children : Nat → ArtNode V) (b : UInt8) (i : Nat) :
    Prop :=
  match n.type with
  | .node4 | .node16 => i < n.numChildren.toNat ∧ keys i = b
  | .node48 => keys b.toNat ≠ 0 ∧ i = (keys b.toNat).toNat - 1
  | .node256 => (children b.toNat).isNull = false ∧ i = b.toNat

/-- Least number of children that a node of a layout shrinks to. -/
def NodeType.floor : NodeType → Nat
  | .node4 => 0
  | .node16 => 4
  | .node48 => 13
  | .node256 => 38

/-- How many children the loops over the node visit. -/
def degree (n : Header) (keys : Nat → UInt8) (children : Nat → ArtNode V) : Nat :=
  (childOrder n keys children).length

/-- Slots and bytes are in one-to-one correspondence, inside the array. -/
structure Matching (n : Header) (keys : Nat → UInt8) (children : Nat → ArtNode V) : Prop where
  byte : ∀ {b b' i}, Slot n keys children b i → Slot n keys children b' i → b = b'
  slot : ∀ {b i j}, Slot n keys children b i → Slot n keys children b j → i = j
  bound : ∀ {b i}, Slot n keys children b i → i < n.type.capacity

/-- The slots in use are those that hold a child, and they are counted. -/
structure Tidy (n : Header) (keys : Nat → UInt8) (children : Nat → ArtNode V) : Prop extends
    Matching n keys children where
  full : ∀ {b i}, Slot n keys children b i → (children i).isNull = false
  free : n.type = .node48 → ∀ j < 48, (children j).isNull = false → ∃ b, Slot n keys children b j
  count : n.numChildren.toNat = degree n keys children % 256

/-- What the routines on a node rely on and keep: a tidy node that is not due
for the next smaller layout. -/
structure Layout (n : Header) (keys : Nat → UInt8) (children : Nat → ArtNode V) : Prop extends
    Tidy n keys children where
  floor : n.type.floor ≤ degree n keys children

theorem slot_node4 (h : n.type = .node4) {b : UInt8} {i : Nat} :
    Slot n keys children b i ↔ i < n.numChildren.toNat ∧ keys i = b := by simp [Slot, h]

theorem slot_node16 (h : n.type = .node16) {b : UInt8} {i : Nat} :
    Slot n keys children b i ↔ i < n.numChildren.toNat ∧ keys i = b := by simp [Slot, h]

theorem slot_node48 (h : n.type = .node48) {b : UInt8} {i : Nat} :
    Slot n keys children b i ↔ keys b.toNat ≠ 0 ∧ i = (keys b.toNat).toNat - 1 := by simp [Slot, h]

theorem slot_node256 (h : n.type = .node256) {b : UInt8} {i : Nat} :
    Slot n keys children b i ↔ (children b.toNat).isNull = false ∧ i = b.toNat := by simp [Slot, h]

theorem degree_node4 (h : n.type = .node4) : degree n keys children = n.numChildren.toNat := by
  simp [degree, childOrder, h]

theorem degree_node16 (h : n.type = .node16) : degree n keys children = n.numChildren.toNat := by
  simp [degree, childOrder, h]

/-- NODE4 and NODE16 keep parallel arrays of keys and children. -/
def NodeType.Keyed (t : NodeType) : Prop := t = .node4 ∨ t = .node16

theorem slot_keyed (ht : n.type.Keyed) {b : UInt8} {i : Nat} :
    Slot n keys children b i ↔ i < n.numChildren.toNat ∧ keys i = b := by
  rcases ht with ht | ht
  · exact slot_node4 ht
  · exact slot_node16 ht

theorem degree_keyed (ht : n.type.Keyed) : degree n keys children = n.numChildren.toNat := by
  rcases ht with ht | ht
  · exact degree_node4 ht
  · exact degree_node16 ht

theorem capacity_le_of_keyed (ht : n.type.Keyed) : n.type.capacity ≤ 16 := by
  rcases ht with ht | ht <;> simp [ht, NodeType.capacity]

/-- The loops over the children visit exactly the slots in use. -/
theorem mem_childOrder {i : Nat} :
    i ∈ childOrder n keys children ↔ ∃ b, Slot n keys children b i := by
  cases ht : n.type with
  | node4 => simp [childOrder, Slot, ht]
  | node16 => simp [childOrder, Slot, ht]
  | node48 =>
      simp only [childOrder, Slot, ht, List.mem_map, List.mem_filter, List.mem_range, bne_iff_ne]
      constructor
      · rintro ⟨j, ⟨hj, hk⟩, rfl⟩
        have hj' := toNat_ofNat_of_lt hj
        exact ⟨UInt8.ofNat j, by rwa [hj'], by rw [hj']⟩
      · rintro ⟨b, hk, rfl⟩
        exact ⟨b.toNat, ⟨b.toNat_lt, hk⟩, rfl⟩
  | node256 =>
      simp only [childOrder, Slot, ht, List.mem_filter, List.mem_range, Bool.not_eq_true']
      constructor
      · rintro ⟨hi, hk⟩
        have hi' := toNat_ofNat_of_lt hi
        exact ⟨UInt8.ofNat i, by rwa [hi'], hi'.symm⟩
      · rintro ⟨b, hk, rfl⟩
        exact ⟨b.toNat_lt, hk⟩

theorem find?_range_eq_some {m i : Nat} {p : Nat → Bool} (hi : i < m) (hp : p i = true)
    (huniq : ∀ j < m, p j = true → j = i) : (List.range m).find? p = some i := by
  cases h : (List.range m).find? p with
  | none => exact absurd hp (List.find?_eq_none.mp h i (List.mem_range.mpr hi))
  | some j =>
      rw [huniq j (List.mem_range.mp (List.mem_of_find?_eq_some h)) (List.find?_some h)]

namespace Matching

/-- `find_child` finds the slot of a byte. -/
theorem findChild_eq_some_iff (hm : Matching n keys children) {b : UInt8} {i : Nat} :
    findChild n keys children b = some i ↔ Slot n keys children b i := by
  cases ht : n.type with
  | node4 =>
      rw [slot_node4 ht]
      simp only [findChild, ht]
      constructor
      · intro h
        exact ⟨List.mem_range.mp (List.mem_of_find?_eq_some h), by simpa using List.find?_some h⟩
      · rintro ⟨hi, hk⟩
        refine find?_range_eq_some hi (by simpa using hk) fun j hj hjk => ?_
        exact hm.slot (b := b) ((slot_node4 ht).mpr ⟨hj, by simpa using hjk⟩)
          ((slot_node4 ht).mpr ⟨hi, hk⟩)
  | node16 =>
      rw [slot_node16 ht]
      simp only [findChild, ht]
      constructor
      · intro h
        have := List.find?_some h
        simp only [Bool.and_eq_true, beq_iff_eq, decide_eq_true_eq] at this
        exact ⟨this.2, this.1⟩
      · rintro ⟨hi, hk⟩
        have hs : Slot n keys children b i := (slot_node16 ht).mpr ⟨hi, hk⟩
        have hcap : i < 16 := by simpa [ht, NodeType.capacity] using hm.bound hs
        refine find?_range_eq_some hcap (by simp [hi, hk]) fun j _ hjk => ?_
        simp only [Bool.and_eq_true, beq_iff_eq, decide_eq_true_eq] at hjk
        exact hm.slot (b := b) ((slot_node16 ht).mpr ⟨hjk.2, hjk.1⟩) hs
  | node48 =>
      rw [slot_node48 ht]
      simp only [findChild, ht]
      by_cases hk : keys b.toNat = 0
      · simp [hk]
      · rw [if_pos hk]
        simp [hk, eq_comm]
  | node256 =>
      rw [slot_node256 ht]
      simp only [findChild, ht]
      cases hk : (children b.toNat).isNull <;> simp [eq_comm]

end Matching

/-! ## the map of a node -/

/-- The child stored for a byte. -/
def childAt (n : Header) (keys : Nat → UInt8) (children : Nat → ArtNode V) (b : UInt8) :
    Option (ArtNode V) :=
  (findChild n keys children b).map children

namespace Matching

theorem childAt_eq_some_iff (hm : Matching n keys children) {b : UInt8} {x : ArtNode V} :
    childAt n keys children b = some x ↔ ∃ i, Slot n keys children b i ∧ children i = x := by
  simp only [childAt, Option.map_eq_some_iff, hm.findChild_eq_some_iff]

theorem childAt_of_slot (hm : Matching n keys children) {b : UInt8} {i : Nat}
    (h : Slot n keys children b i) : childAt n keys children b = some (children i) :=
  hm.childAt_eq_some_iff.mpr ⟨i, h, rfl⟩

/-- What holds of the children when one of them is exchanged. -/
theorem forall_update (hm : Matching n keys children) {P : UInt8 → ArtNode V → Prop} {b : UInt8}
    {o : Option (ArtNode V)} (hself : ∀ x, o = some x → P b x)
    (hother : ∀ b i, Slot n keys children b i → P b (children i)) :
    ∀ b' x, Function.update (childAt n keys children) b o b' = some x → P b' x := by
  intro b' x hx
  by_cases hb : b' = b
  · subst hb
    rw [Function.update_self] at hx
    exact hself x hx
  · rw [Function.update_of_ne hb] at hx
    obtain ⟨i, hi, rfl⟩ := hm.childAt_eq_some_iff.mp hx
    exact hother b' i hi

theorem childAt_eq_none_iff (hm : Matching n keys children) {b : UInt8} :
    childAt n keys children b = none ↔ ∀ i, ¬ Slot n keys children b i := by
  rw [childAt, Option.map_eq_none_iff]
  constructor
  · intro h i hs
    rw [hm.findChild_eq_some_iff.mpr hs] at h
    cases h
  · intro h
    cases hf : findChild n keys children b with
    | none => rfl
    | some i => exact absurd (hm.findChild_eq_some_iff.mp hf) (h i)

/-- The slots in use, listed byte by byte. -/
theorem childOrder_perm (hm : Matching n keys children) (hnd : (childOrder n keys children).Nodup) :
    (childOrder n keys children).Perm (allBytes.filterMap (findChild n keys children)) := by
  rw [List.perm_ext_iff_of_nodup hnd]
  · intro i
    simp only [mem_childOrder, List.mem_filterMap, hm.findChild_eq_some_iff]
    exact ⟨fun ⟨b, h⟩ => ⟨b, mem_allBytes b, h⟩, fun ⟨b, _, h⟩ => ⟨b, h⟩⟩
  · refine nodup_allBytes.filterMap fun b b' i hb hb' => ?_
    exact hm.byte (hm.findChild_eq_some_iff.mp hb) (hm.findChild_eq_some_iff.mp hb')

theorem nodup_childOrder (hm : Matching n keys children) : (childOrder n keys children).Nodup := by
  cases ht : n.type with
  | node4 => simpa [childOrder, ht] using List.nodup_range
  | node16 => simpa [childOrder, ht] using List.nodup_range
  | node48 =>
      simp only [childOrder, ht]
      refine List.Nodup.map_on ?_ (List.nodup_range.filter _)
      intro i hi j hj h
      simp only [List.mem_filter, List.mem_range, bne_iff_ne] at hi hj
      have hi' := toNat_ofNat_of_lt hi.1
      have hj' := toNat_ofNat_of_lt hj.1
      have hsi : Slot n keys children (UInt8.ofNat i) ((keys i).toNat - 1) :=
        (slot_node48 ht).mpr ⟨by rw [hi']; exact hi.2, by rw [hi']⟩
      have hsj : Slot n keys children (UInt8.ofNat j) ((keys i).toNat - 1) :=
        (slot_node48 ht).mpr ⟨by rw [hj']; exact hj.2, by rw [hj']; exact h⟩
      rw [← hi', ← hj', hm.byte hsi hsj]
  | node256 => simpa [childOrder, ht] using List.nodup_range.filter _

/-- Looping over the children is looping over the bytes that have one. -/
theorem flatMap_childOrder_perm {β : Type} (hm : Matching n keys children)
    (f : ArtNode V → List β) :
    ((childOrder n keys children).flatMap fun i => f (children i)).Perm
      (allBytes.flatMap fun b => (childAt n keys children b).elim [] f) := by
  refine ((hm.childOrder_perm hm.nodup_childOrder).flatMap_right _).trans (List.Perm.of_eq ?_)
  rw [flatMap_filterMap]
  refine List.flatMap_congr fun b _ => ?_
  rw [childAt]
  cases findChild n keys children b <;> rfl

/-- The loops visit as many children as there are bytes that have one. -/
theorem degree_eq (hm : Matching n keys children) : degree n keys children =
    (allBytes.filter fun b => (childAt n keys children b).isSome).length := by
  rw [degree, (hm.childOrder_perm hm.nodup_childOrder).length_eq, List.length_filterMap_eq_countP,
    List.countP_eq_length_filter]
  simp only [childAt, Option.isSome_map]

/-- Storing one more entry visits one more child. -/
theorem degree_of_update {n' : Header} {keys' : Nat → UInt8} {children' : Nat → ArtNode V}
    {c : UInt8} {x : ArtNode V} (hm : Matching n keys children)
    (hm' : Matching n' keys' children') (hc : childAt n keys children c = none)
    (h : childAt n' keys' children' = Function.update (childAt n keys children) c (some x)) :
    degree n' keys' children' = degree n keys children + 1 := by
  rw [hm.degree_eq, hm'.degree_eq, h]
  refine length_filter_of_update nodup_allBytes (mem_allBytes c) (by simp [hc]) (by simp) ?_
  intro b hb
  rw [Function.update_of_ne hb]

/-- Erasing an entry visits one child less. -/
theorem degree_of_erase {n' : Header} {keys' : Nat → UInt8} {children' : Nat → ArtNode V}
    {c : UInt8} {x : ArtNode V} (hm : Matching n keys children)
    (hm' : Matching n' keys' children') (hc : childAt n keys children c = some x)
    (h : childAt n' keys' children' = Function.update (childAt n keys children) c none) :
    degree n' keys' children' + 1 = degree n keys children := by
  refine (hm'.degree_of_update (c := c) (x := x) hm (by simp [h]) ?_).symm
  rw [h, Function.update_idem, ← hc, Function.update_eq_self]

/-- Two nodes that denote the same map visit equally many children. -/
theorem degree_congr {n' : Header} {keys' : Nat → UInt8} {children' : Nat → ArtNode V}
    (hm : Matching n keys children) (hm' : Matching n' keys' children')
    (h : childAt n' keys' children' = childAt n keys children) :
    degree n' keys' children' = degree n keys children := by
  rw [hm.degree_eq, hm'.degree_eq, h]

end Matching

/-! ## nodes up to layout -/

/-- Children are never NULL. -/
theorem Tidy.isNull_of_childAt (hl : Tidy n keys children) {b : UInt8} {x : ArtNode V}
    (h : childAt n keys children b = some x) : x.isNull = false := by
  obtain ⟨i, hs, rfl⟩ := hl.childAt_eq_some_iff.mp h
  exact hl.full hs

theorem numChildren_le_of_keyed (ht : n.type.Keyed) (hm : Matching n keys children) :
    n.numChildren.toNat ≤ n.type.capacity := by
  by_contra hgt
  have := hm.bound ((slot_keyed ht).mpr ⟨by omega, rfl⟩ :
    Slot n keys children (keys n.type.capacity) n.type.capacity)
  omega

theorem degree_le_of_node48 (ht : n.type = .node48) (hl : Matching n keys children) :
    degree n keys children ≤ 48 := by
  have hsub : childOrder n keys children ⊆ List.range 48 := by
    intro i hi
    obtain ⟨b, hs⟩ := mem_childOrder.mp hi
    exact List.mem_range.mpr (by simpa [ht, NodeType.capacity] using hl.bound hs)
  simpa [degree] using (List.subperm_of_subset hl.nodup_childOrder hsub).length_le

/-- A node with the same slots. -/
theorem Matching.of_slots {n' : Header} {keys' : Nat → UInt8} {children' : Nat → ArtNode V}
    (hm : Matching n keys children)
    (hslot : ∀ b i, Slot n' keys' children' b i ↔ Slot n keys children b i)
    (hbound : ∀ b i, Slot n keys children b i → i < n'.type.capacity) :
    Matching n' keys' children' where
  byte hb hb' := hm.byte ((hslot _ _).mp hb) ((hslot _ _).mp hb')
  slot hi hj := hm.slot ((hslot _ _).mp hi) ((hslot _ _).mp hj)
  bound hi := hbound _ _ ((hslot _ _).mp hi)

/-- A node whose slots follow a list of distinct bytes. -/
theorem Matching.of_listed {kept : List Nat} (hnd : kept.Nodup)
    (hslot : ∀ b j, Slot n keys children b j ↔ kept[j]? = some b.toNat)
    (hbound : kept.length ≤ n.type.capacity) : Matching n keys children where
  byte {b b' i} hb hb' := by
    rw [hslot] at hb hb'
    rw [hb, Option.some.injEq] at hb'
    exact UInt8.toNat_inj.mp hb'
  slot {b i j} hi hj := by
    rw [hslot] at hi hj
    exact (List.getElem?_inj (List.getElem?_eq_some_iff.mp hi).1 hnd).mp (hi.trans hj.symm)
  bound hi := by
    have := (List.getElem?_eq_some_iff.mp ((hslot _ _).mp hi)).1
    omega

/-- A node of another layout with the same children in other slots denotes the
same map. -/
theorem Tidy.convert {n' : Header} {keys' : Nat → UInt8} {children' : Nat → ArtNode V}
    (hl : Tidy n keys children) (hm' : Matching n' keys' children')
    (hto : ∀ b i, Slot n keys children b i →
      ∃ j, Slot n' keys' children' b j ∧ children' j = children i)
    (hfrom : ∀ b j, Slot n' keys' children' b j → ∃ i, Slot n keys children b i)
    (hfree : n'.type = .node48 → ∀ j < 48, (children' j).isNull = false →
      ∃ b, Slot n' keys' children' b j)
    (hnum : n'.numChildren = n.numChildren) (hfloor : n'.type.floor ≤ degree n keys children) :
    Layout n' keys' children' ∧ childAt n' keys' children' = childAt n keys children := by
  have hmap : childAt n' keys' children' = childAt n keys children := by
    funext b
    cases hb : childAt n keys children b with
    | none =>
        rw [hl.childAt_eq_none_iff] at hb
        rw [hm'.childAt_eq_none_iff]
        intro j hj
        obtain ⟨i, hi⟩ := hfrom b j hj
        exact hb i hi
    | some x =>
        obtain ⟨i, hi, rfl⟩ := hl.childAt_eq_some_iff.mp hb
        obtain ⟨j, hj, hx⟩ := hto b i hi
        rw [hm'.childAt_of_slot hj, hx]
  have hdeg := hl.toMatching.degree_congr hm' hmap
  refine ⟨{ toMatching := hm', full := ?_, free := hfree, count := ?_, floor := ?_ }, hmap⟩
  · intro b j hj
    have := hm'.childAt_of_slot hj
    rw [hmap] at this
    exact hl.isNull_of_childAt this
  · rw [hdeg, hnum, hl.count]
  · rwa [hdeg]

/-- The pointer leads to a well laid out node with this path length, these
stored path bytes and these children. -/
def Denotes (x : ArtNode V) (len : Nat) (stored : List UInt8) (m : UInt8 → Option (ArtNode V)) :
    Prop :=
  ∃ n keys children, x = .node n keys children ∧ Layout n keys children ∧
    n.partialLen = len ∧ n.stored = stored ∧ childAt n keys children = m

theorem Layout.denotes (hl : Layout n keys children) :
    Denotes (.node n keys children) n.partialLen n.stored (childAt n keys children) :=
  ⟨n, keys, children, rfl, hl, rfl, rfl, rfl⟩

@[simp] theorem copyHeader_type (t : NodeType) (n : Header) : (copyHeader t n).type = t := rfl

@[simp] theorem copyHeader_numChildren (t : NodeType) (n : Header) :
    (copyHeader t n).numChildren = n.numChildren := rfl

@[simp] theorem copyHeader_partialLen (t : NodeType) (n : Header) :
    (copyHeader t n).partialLen = n.partialLen := rfl

/-- `copy_header` copies every stored byte of the path. -/
@[simp] theorem copyHeader_stored (t : NodeType) (n : Header) :
    (copyHeader t n).stored = n.stored := by
  simp only [Header.stored, copyHeader_partialLen]
  refine List.map_congr_left fun i hi => ?_
  have hi' := List.mem_range.mp hi
  simp only [copyHeader, memmove]
  rw [if_pos ⟨Nat.zero_le i, by omega⟩]
  simp

end LightQuery
