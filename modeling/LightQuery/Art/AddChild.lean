import LightQuery.Art.Layout

/-!
# LightQuery.Art.AddChild

`add_child` stores one entry in the map of a node.

The step lemmas treat one layout each: storing in a keyed node (NODE4,
NODE16), storing in a NODE48 or NODE256, and growing into the next layout.
`addChild_denotes` assembles them along the calls of the source.
-/

namespace LightQuery

open CArray

variable {V : Type} {n : Header} {keys : Nat → UInt8} {children : Nat → ArtNode V} {c : UInt8}
  {child : ArtNode V}

/-! ## storing one entry, in any layout -/

section store

variable {n' : Header} {keys' : Nat → UInt8} {children' : Nat → ArtNode V} {pos : Nat}
  {e : Nat → Nat}

/-- If the slots are those from before, moved by `e`, and a new one for `c`,
the slots still match the bytes. -/
theorem Matching.store (hm : Matching n keys children) (hc : childAt n keys children c = none)
    (hslot : ∀ b j, Slot n' keys' children' b j ↔
      (j = pos ∧ b = c) ∨ ∃ i, Slot n keys children b i ∧ j = e i)
    (he : ∀ {b b' i i'}, Slot n keys children b i → Slot n keys children b' i' →
      e i = e i' → i = i')
    (hne : ∀ {b i}, Slot n keys children b i → e i ≠ pos)
    (hbound : ∀ b j, Slot n' keys' children' b j → j < n'.type.capacity) :
    Matching n' keys' children' := by
  have hfree := hm.childAt_eq_none_iff.mp hc
  refine ⟨?_, ?_, fun {b j} => hbound b j⟩
  · intro b b' j hb hb'
    rw [hslot] at hb hb'
    rcases hb with ⟨rfl, rfl⟩ | ⟨i, hi, rfl⟩ <;> rcases hb' with ⟨hj, rfl⟩ | ⟨i', hi', hj⟩
    · rfl
    · exact absurd hj.symm (hne hi')
    · exact absurd hj (hne hi)
    · exact hm.byte hi (he hi hi' hj ▸ hi')
  · intro b j j' hj hj'
    rw [hslot] at hj hj'
    rcases hj with ⟨rfl, rfl⟩ | ⟨i, hi, rfl⟩ <;> rcases hj' with ⟨rfl, h⟩ | ⟨i', hi', rfl⟩
    · rfl
    · exact absurd hi' (hfree i')
    · exact absurd (h ▸ hi) (hfree i)
    · rw [hm.slot hi hi']

/-- … and if the children moved along, the node denotes the map with `c` stored. -/
theorem childAt_store (hm : Matching n keys children) (hm' : Matching n' keys' children')
    (hslot : ∀ b j, Slot n' keys' children' b j ↔
      (j = pos ∧ b = c) ∨ ∃ i, Slot n keys children b i ∧ j = e i)
    (hpos : children' pos = child)
    (hold : ∀ {b i}, Slot n keys children b i → children' (e i) = children i) :
    childAt n' keys' children' = Function.update (childAt n keys children) c (some child) := by
  funext b
  by_cases hbc : b = c
  · subst hbc
    rw [Function.update_self, hm'.childAt_of_slot ((hslot _ _).mpr (.inl ⟨rfl, rfl⟩)), hpos]
  · rw [Function.update_of_ne hbc]
    cases hb : childAt n keys children b with
    | none =>
        rw [hm.childAt_eq_none_iff] at hb
        rw [hm'.childAt_eq_none_iff]
        intro j hj
        rcases (hslot _ _).mp hj with ⟨-, h⟩ | ⟨i, hi, -⟩
        · exact hbc h
        · exact hb i hi
    | some x =>
        obtain ⟨i, hi, rfl⟩ := hm.childAt_eq_some_iff.mp hb
        rw [hm'.childAt_of_slot ((hslot _ _).mpr (.inr ⟨i, hi, rfl⟩)), hold hi]

/-- Storing an entry gives a well laid out node, once the layout's own scan and
the counter are accounted for. -/
theorem Layout.store (hl : Layout n keys children) (hc : childAt n keys children c = none)
    (hx : child.isNull = false)
    (hslot : ∀ b j, Slot n' keys' children' b j ↔
      (j = pos ∧ b = c) ∨ ∃ i, Slot n keys children b i ∧ j = e i)
    (he : ∀ {b b' i i'}, Slot n keys children b i → Slot n keys children b' i' →
      e i = e i' → i = i')
    (hne : ∀ {b i}, Slot n keys children b i → e i ≠ pos)
    (hbound : ∀ b j, Slot n' keys' children' b j → j < n'.type.capacity)
    (hpos : children' pos = child)
    (hold : ∀ {b i}, Slot n keys children b i → children' (e i) = children i)
    (htype : n'.type = n.type) (hnum : n'.numChildren = n.numChildren + 1)
    (hfree : n.type = .node48 → ∀ j < 48, (children' j).isNull = false →
      ∃ b, Slot n' keys' children' b j)
    (hlen : n'.partialLen = n.partialLen) (hstored : n'.stored = n.stored) :
    Denotes (.node n' keys' children') n.partialLen n.stored
      (Function.update (childAt n keys children) c (some child)) := by
  have hm' := hl.toMatching.store hc hslot he hne hbound
  have hmap := childAt_store hl.toMatching hm' hslot hpos hold
  have hdeg := hl.toMatching.degree_of_update hm' hc hmap
  refine ⟨_, _, _, rfl, { toMatching := hm', full := ?_, free := ?_, count := ?_, floor := ?_ },
    hlen, hstored, hmap⟩
  · intro b j hj
    rcases (hslot b j).mp hj with ⟨rfl, -⟩ | ⟨i, hi, rfl⟩
    · rwa [hpos]
    · rw [hold hi]
      exact hl.full hi
  · intro h48
    exact hfree (htype ▸ h48)
  · rw [hdeg, hnum, UInt8.toNat_add, hl.count]
    simp
  · have := hl.floor
    rw [htype, hdeg]
    omega

end store

/-! ## storing in a keyed node -/

/-- Where an old slot goes when room is made at `idx`. -/
def shift (idx i : Nat) : Nat := if i < idx then i else i + 1

theorem shift_inj {idx i j : Nat} (h : shift idx i = shift idx j) : i = j := by
  unfold shift at h
  split at h <;> split at h <;> omega

theorem shift_ne (idx i : Nat) : shift idx i ≠ idx := by
  unfold shift
  split <;> omega

/-- An old element is found at its shifted index. -/
theorem insertAt_shift {α : Type} (a : Nat → α) (x : α) {idx i m : Nat} (hi : i < m) :
    insertAt a idx x m (shift idx i) = a i := by
  unfold shift
  by_cases hlt : i < idx
  · rw [if_pos hlt, insertAt_lt a x _ hlt]
  · rw [if_neg hlt, insertAt_succ a x (by omega) hi]

/-- The slots after making room at `idx`: the new one, and the old ones with
those from `idx` on shifted by one. -/
theorem slot_insertChild (keys : Nat → UInt8) (children : Nat → ArtNode V) (c : UInt8)
    (child : ArtNode V) {idx : Nat} (ht : n.type.Keyed)
    (hcap : n.numChildren.toNat < n.type.capacity) (hidx : idx ≤ n.numChildren.toNat) (b : UInt8)
    (j : Nat) :
    Slot { n with numChildren := n.numChildren + 1 } (insertAt keys idx c n.numChildren.toNat)
        (insertAt children idx child n.numChildren.toNat) b j ↔
      (j = idx ∧ b = c) ∨ ∃ i, Slot n keys children b i ∧ j = shift idx i := by
  have h16 := capacity_le_of_keyed ht
  rw [slot_keyed (n := { n with numChildren := n.numChildren + 1 }) ht]
  simp only [slot_keyed ht, toNat_add_one (x := n.numChildren) (by omega)]
  constructor
  · rintro ⟨hj, rfl⟩
    rcases Nat.lt_trichotomy j idx with hlt | rfl | hgt
    · exact .inr ⟨j, ⟨by omega, (insertAt_lt keys c _ hlt).symm⟩, by rw [shift, if_pos hlt]⟩
    · exact .inl ⟨rfl, insertAt_self ..⟩
    · obtain ⟨i, rfl⟩ : ∃ i, j = i + 1 := ⟨j - 1, by omega⟩
      exact .inr ⟨i, ⟨by omega, (insertAt_succ keys c (by omega) (by omega)).symm⟩,
        by rw [shift, if_neg (by omega)]⟩
  · rintro (⟨rfl, rfl⟩ | ⟨i, ⟨hi, rfl⟩, rfl⟩)
    · exact ⟨by omega, insertAt_self ..⟩
    · refine ⟨?_, insertAt_shift keys c hi⟩
      unfold shift
      split <;> omega

/-- A keyed node with room takes the child. -/
theorem insertChild_denotes {idx : Nat} (ht : n.type.Keyed) (hl : Layout n keys children)
    (hcap : n.numChildren.toNat < n.type.capacity) (hidx : idx ≤ n.numChildren.toNat)
    (hc : childAt n keys children c = none) (hx : child.isNull = false) :
    Denotes (insertChild n keys children idx c child) n.partialLen n.stored
      (Function.update (childAt n keys children) c (some child)) := by
  have hslot := slot_insertChild keys children c child ht hcap hidx
  refine hl.store hc hx hslot (fun _ _ h => shift_inj h) (fun _ => shift_ne _ _) ?_
    (insertAt_self ..) (fun hi => insertAt_shift children child ((slot_keyed ht).mp hi).1)
    rfl rfl ?_ rfl rfl
  · intro b j hj
    show j < n.type.capacity
    rcases (hslot b j).mp hj with ⟨rfl, -⟩ | ⟨i, hi, rfl⟩
    · omega
    · have := ((slot_keyed ht).mp hi).1
      unfold shift
      split <;> omega
  · intro h48
    rcases ht with ht | ht <;> exact absurd (ht.symm.trans h48) (by decide)

/-! ## storing in a NODE48 or a NODE256 -/

/-- A NODE48 with fewer than 48 children has a free slot. -/
theorem exists_free_of_node48 (ht : n.type = .node48) (hl : Layout n keys children)
    (hroom : n.numChildren < 48) : ∃ i < 48, (children i).isNull = true := by
  by_contra hno
  have hsub : List.range 48 ⊆ childOrder n keys children := by
    intro i hi
    have hi48 := List.mem_range.mp hi
    have hused : (children i).isNull = false := by
      cases hb : (children i).isNull with
      | true => exact absurd ⟨i, hi48, hb⟩ hno
      | false => rfl
    exact mem_childOrder.mpr (hl.free ht i hi48 hused)
  have hlen := (List.subperm_of_subset List.nodup_range hsub).length_le
  have hle := degree_le_of_node48 ht hl.toMatching
  have hcount := hl.count
  have hlt := UInt8.lt_iff_toNat_lt.mp hroom
  simp only [List.length_range, degree] at hlen hle hcount
  simp at hlt
  omega

/-- The slots after storing `c` in the free slot `pos`. -/
theorem slot_addChild48 (child : ArtNode V) (ht : n.type = .node48) {pos : Nat} (hpos : pos < 48)
    (hc : ∀ i, ¬ Slot n keys children c i) (b : UInt8) (j : Nat) :
    Slot { n with numChildren := n.numChildren + 1 }
        (Function.update keys c.toNat (UInt8.ofNat (pos + 1)))
        (Function.update children pos child) b j ↔
      (j = pos ∧ b = c) ∨ ∃ i, Slot n keys children b i ∧ j = id i := by
  have hp : (UInt8.ofNat (pos + 1)).toNat = pos + 1 := toNat_ofNat_of_lt (by omega)
  rw [slot_node48 (n := { n with numChildren := n.numChildren + 1 }) ht]
  simp only [slot_node48 ht, id_eq, exists_eq_right']
  by_cases hbc : b = c
  · subst hbc
    have hk : keys b.toNat = 0 := by
      by_contra hk
      exact hc _ ((slot_node48 ht).mpr ⟨hk, rfl⟩)
    have hne : UInt8.ofNat (pos + 1) ≠ 0 := fun h => by rw [h] at hp; simp at hp
    rw [Function.update_self, hp, hk]
    constructor
    · rintro ⟨-, hj⟩
      exact .inl ⟨by omega, rfl⟩
    · rintro (⟨hj, -⟩ | ⟨h, -⟩)
      · exact ⟨hne, by omega⟩
      · exact absurd rfl h
  · have hne : b.toNat ≠ c.toNat := fun h => hbc (UInt8.toNat_inj.mp h)
    rw [Function.update_of_ne hne]
    simp [hbc]

/-- A NODE48 with room takes the child. -/
theorem addChild48_denotes_of_lt (ht : n.type = .node48) (hl : Layout n keys children)
    (hroom : n.numChildren < 48) (hc : childAt n keys children c = none)
    (hx : child.isNull = false) :
    Denotes (addChild48 n keys children c child) n.partialLen n.stored
      (Function.update (childAt n keys children) c (some child)) := by
  obtain ⟨hpos, hnull⟩ := firstIndex_spec (exists_free_of_node48 ht hl hroom)
  rw [addChild48, if_pos hroom]
  generalize firstIndex 48 (fun i => (children i).isNull) = pos at hpos hnull
  have hslot := slot_addChild48 child ht hpos (hl.childAt_eq_none_iff.mp hc)
  -- an old slot is not the free one
  have hne : ∀ {b j}, Slot n keys children b j → id j ≠ pos := by
    rintro b j hs rfl
    exact absurd (hl.full hs) (by simpa using hnull)
  refine hl.store hc hx hslot (fun _ _ h => h) hne ?_ (Function.update_self ..)
    (fun hi => Function.update_of_ne (hne hi) _ _) rfl rfl ?_ rfl rfl
  · intro b j hj
    show j < n.type.capacity
    rcases (hslot b j).mp hj with ⟨rfl, -⟩ | ⟨i, hi, rfl⟩
    · simpa [ht, NodeType.capacity] using hpos
    · exact hl.bound hi
  · intro _ j hj hj'
    by_cases hjp : j = pos
    · exact ⟨c, (hslot _ _).mpr (.inl ⟨hjp, rfl⟩)⟩
    · rw [Function.update_of_ne hjp] at hj'
      obtain ⟨b, hb⟩ := hl.free ht j hj hj'
      exact ⟨b, (hslot _ _).mpr (.inr ⟨j, hb, rfl⟩)⟩

/-- A NODE256 takes the child. -/
theorem addChild256_denotes (ht : n.type = .node256) (hl : Layout n keys children)
    (hc : childAt n keys children c = none) (hx : child.isNull = false) :
    Denotes (addChild256 n keys children c child) n.partialLen n.stored
      (Function.update (childAt n keys children) c (some child)) := by
  have hnone := hl.childAt_eq_none_iff.mp hc
  have hslot : ∀ b j, Slot { n with numChildren := n.numChildren + 1 } keys
      (Function.update children c.toNat child) b j ↔
      (j = c.toNat ∧ b = c) ∨ ∃ i, Slot n keys children b i ∧ j = id i := by
    intro b j
    rw [slot_node256 (n := { n with numChildren := n.numChildren + 1 }) ht]
    simp only [slot_node256 ht, id_eq, exists_eq_right']
    by_cases hbc : b = c
    · subst hbc
      have : ¬ ((children b.toNat).isNull = false) := fun h =>
        hnone _ ((slot_node256 ht).mpr ⟨h, rfl⟩)
      simp [hx, this]
    · have hne : b.toNat ≠ c.toNat := fun h => hbc (UInt8.toNat_inj.mp h)
      simp [hne, hbc]
  have hne : ∀ {b j}, Slot n keys children b j → id j ≠ c.toNat := by
    intro b j hs h
    obtain ⟨hb, rfl⟩ := (slot_node256 ht).mp hs
    have : b = c := UInt8.toNat_inj.mp h
    subst this
    exact hnone _ hs
  refine hl.store hc hx hslot (fun _ _ h => h) hne ?_ (Function.update_self ..)
    (fun hi => Function.update_of_ne (hne hi) _ _) rfl rfl ?_ rfl rfl
  · intro b j hj
    show j < n.type.capacity
    rw [ht]
    rcases (hslot b j).mp hj with ⟨rfl, -⟩ | ⟨i, hi, rfl⟩
    · exact c.toNat_lt
    · simpa [ht] using hl.bound hi
  · intro h48
    exact absurd (ht.symm.trans h48) (by decide)

/-! ## growing -/

/-- A copy of a node with parallel arrays into another such layout. -/
theorem Tidy.copyKeyed (hl : Tidy n keys children) (ht : n.type.Keyed) {t : NodeType}
    (ht' : t.Keyed) {m : Nat} (hm : n.numChildren.toNat ≤ m)
    (hcap : n.numChildren.toNat ≤ t.capacity) (hfloor : t.floor ≤ n.numChildren.toNat) :
    Layout (copyHeader t n) (memmove (fun _ => 0) 0 keys 0 m)
        (memmove (fun _ => .null) 0 children 0 m) ∧
      childAt (copyHeader t n) (memmove (fun _ => 0) 0 keys 0 m)
        (memmove (fun _ => .null) 0 children 0 m) = childAt n keys children := by
  have hslot : ∀ b i, Slot (copyHeader t n) (memmove (fun _ => 0) 0 keys 0 m)
      (memmove (fun _ => .null) 0 children 0 m) b i ↔ Slot n keys children b i := by
    intro b i
    rw [slot_keyed (show (copyHeader t n).type.Keyed from ht'), slot_keyed ht,
      copyHeader_numChildren]
    refine and_congr_right fun hi => ?_
    rw [memmove_front _ _ (by omega)]
  have hbound : ∀ b i, Slot n keys children b i → i < t.capacity := fun b i hi =>
    Nat.lt_of_lt_of_le ((slot_keyed ht).mp hi).1 hcap
  refine hl.convert (hl.toMatching.of_slots hslot hbound)
    (fun b i hi => ⟨i, (hslot b i).mpr hi, ?_⟩) (fun b j hj => ⟨j, (hslot b j).mp hj⟩) ?_ rfl ?_
  · exact memmove_front _ _ (Nat.lt_of_lt_of_le ((slot_keyed ht).mp hi).1 hm)
  · intro h48
    rw [copyHeader_type] at h48
    rcases ht' with rfl | rfl <;> cases h48
  · rwa [degree_keyed ht]

/-- The NODE16 that replaces a full NODE4. -/
theorem grow16_layout (ht : n.type = .node4) (hl : Layout n keys children)
    (hnum : n.numChildren = 4) :
    Layout (copyHeader .node16 n) (memmove (fun _ => 0) 0 keys 0 n.numChildren.toNat)
        (memmove (fun _ => .null) 0 children 0 n.numChildren.toNat) ∧
      childAt (copyHeader .node16 n) (memmove (fun _ => 0) 0 keys 0 n.numChildren.toNat)
        (memmove (fun _ => .null) 0 children 0 n.numChildren.toNat) = childAt n keys children := by
  have hnum' : n.numChildren.toNat = 4 := by rw [hnum]; rfl
  refine hl.toTidy.copyKeyed (.inl ht) (.inr rfl) le_rfl ?_ ?_
  · rw [hnum']
    decide
  · rw [hnum']
    decide

/-- The NODE48 that replaces a full NODE16. -/
theorem grow48_layout (ht : n.type = .node16) (hl : Layout n keys children)
    (hnum : n.numChildren = 16) :
    Layout (copyHeader .node48 n) (grow48 n keys)
        (memmove (fun _ => .null) 0 children 0 n.numChildren.toNat) ∧
      childAt (copyHeader .node48 n) (grow48 n keys)
        (memmove (fun _ => .null) 0 children 0 n.numChildren.toNat) = childAt n keys children := by
  have hnum' : n.numChildren.toNat = 16 := by rw [hnum]; rfl
  have hcopy : ∀ i < n.numChildren.toNat,
      memmove (fun _ => .null) 0 children 0 n.numChildren.toNat i = children i :=
    fun i hi => memmove_front _ _ hi
  have hnd : ((List.range n.numChildren.toNat).map fun i => (keys i).toNat).Nodup := by
    refine List.Nodup.map_on (fun i hi j hj h => ?_) List.nodup_range
    exact hl.slot ((slot_node16 ht).mpr ⟨List.mem_range.mp hi, rfl⟩)
      ((slot_node16 ht).mpr ⟨List.mem_range.mp hj, (UInt8.toNat_inj.mp h).symm⟩)
  have hslot : ∀ b i, Slot (copyHeader .node48 n) (grow48 n keys)
      (memmove (fun _ => .null) 0 children 0 n.numChildren.toNat) b i ↔
      Slot n keys children b i := by
    intro b i
    rw [slot_node48 (copyHeader_type ..), slot_node16 ht]
    by_cases hb : ∃ j < n.numChildren.toNat, keys j = b
    · obtain ⟨j, hj, hjb⟩ := hb
      have hk : grow48 n keys b.toNat = UInt8.ofNat (j + 1) := by
        rw [← hjb]
        exact foldl_update_of_mem hnd (List.mem_range.mpr hj)
      have hv : (UInt8.ofNat (j + 1)).toNat = j + 1 := toNat_ofNat_of_lt (by omega)
      rw [hk, hv]
      constructor
      · rintro ⟨-, rfl⟩
        exact ⟨hj, hjb⟩
      · rintro ⟨hi, hib⟩
        refine ⟨fun h => by rw [h] at hv; simp at hv, ?_⟩
        exact hl.slot ((slot_node16 ht).mpr ⟨hi, hib⟩) ((slot_node16 ht).mpr ⟨hj, hjb⟩)
    · have hk : grow48 n keys b.toNat = 0 := foldl_update_of_ne fun j hj h =>
        hb ⟨j, List.mem_range.mp hj, UInt8.toNat_inj.mp h⟩
      exact ⟨fun h => absurd hk h.1, fun h => absurd ⟨i, h⟩ hb⟩
  have hm' : Matching (copyHeader .node48 n) (grow48 n keys)
      (memmove (fun _ => .null) 0 children 0 n.numChildren.toNat) := by
    refine hl.toMatching.of_slots hslot fun b j hj => ?_
    have := ((slot_node16 ht).mp hj).1
    show j < 48
    omega
  refine hl.toTidy.convert hm' (fun b i hi => ⟨i, (hslot b i).mpr hi, ?_⟩)
    (fun b j hj => ⟨j, (hslot b j).mp hj⟩) (fun _ j _ hj => ?_) rfl ?_
  · exact hcopy i ((slot_node16 ht).mp hi).1
  · have hj' : j < n.numChildren.toNat := by
      by_contra hge
      rw [memmove, if_neg (by omega)] at hj
      cases hj
    exact ⟨keys j, (hslot _ _).mpr ((slot_node16 ht).mpr ⟨hj', rfl⟩)⟩
  · rw [degree_node16 ht, hnum']
    show 13 ≤ 16
    decide

/-- The NODE256 that replaces a full NODE48. -/
theorem grow256_layout (ht : n.type = .node48) (hl : Layout n keys children)
    (hnum : ¬ n.numChildren < 48) :
    Layout (copyHeader .node256 n) (fun _ => 0) (grow256 keys children) ∧
      childAt (copyHeader .node256 n) (fun _ => 0) (grow256 keys children) =
        childAt n keys children := by
  have hgrow : ∀ b i, Slot n keys children b i → grow256 keys children b.toNat = children i := by
    intro b i hi
    obtain ⟨hk, rfl⟩ := (slot_node48 ht).mp hi
    rw [grow256, if_pos ⟨b.toNat_lt, hk⟩]
  have hfrom : ∀ b j, Slot (copyHeader .node256 n) (fun _ => 0) (grow256 keys children) b j →
      ∃ i, Slot n keys children b i := by
    intro b j hj
    obtain ⟨hb, -⟩ := (slot_node256 (copyHeader_type ..)).mp hj
    refine ⟨_, (slot_node48 ht).mpr ⟨fun hk => ?_, rfl⟩⟩
    rw [grow256, if_neg (by simp [hk])] at hb
    cases hb
  have hm' : Matching (copyHeader .node256 n) (fun _ => 0) (grow256 keys children) := by
    refine ⟨fun {b b' i} hb hb' => ?_, fun {b i j} hj hj' => ?_, fun {b j} hj => ?_⟩
    · rw [slot_node256 (copyHeader_type ..)] at hb hb'
      exact UInt8.toNat_inj.mp (hb.2.symm.trans hb'.2)
    · rw [slot_node256 (copyHeader_type ..)] at hj hj'
      exact hj.2.trans hj'.2.symm
    · rw [slot_node256 (copyHeader_type ..)] at hj
      show j < 256
      exact hj.2 ▸ b.toNat_lt
  refine hl.toTidy.convert hm' (fun b i hi => ⟨b.toNat, ?_, hgrow b i hi⟩) hfrom
    (fun h => by cases h) rfl ?_
  · rw [slot_node256 (copyHeader_type ..), hgrow b i hi]
    exact ⟨hl.full hi, rfl⟩
  · have hle := degree_le_of_node48 ht hl.toMatching
    have hcount := hl.count
    have hge := fun h => hnum (UInt8.lt_iff_toNat_lt.mpr h)
    simp at hge
    show 38 ≤ _
    omega

/-! ## add_child -/

/-- `add_child48` stores the child, in a NODE256 when the node is full. -/
theorem addChild48_denotes (ht : n.type = .node48) (hl : Layout n keys children)
    (hc : childAt n keys children c = none) (hx : child.isNull = false) :
    Denotes (addChild48 n keys children c child) n.partialLen n.stored
      (Function.update (childAt n keys children) c (some child)) := by
  by_cases hroom : n.numChildren < 48
  · exact addChild48_denotes_of_lt ht hl hroom hc hx
  · obtain ⟨hl', hmap⟩ := grow256_layout ht hl hroom
    rw [addChild48, if_neg hroom]
    have := addChild256_denotes (copyHeader_type ..) hl' (by rwa [hmap]) hx
    rwa [hmap, copyHeader_partialLen, copyHeader_stored] at this

/-- `add_child16` stores the child, in a NODE48 when the node is full. -/
theorem addChild16_denotes (build : Build) (ht : n.type = .node16) (hl : Layout n keys children)
    (hc : childAt n keys children c = none) (hx : child.isNull = false) :
    Denotes (addChild16 build n keys children c child) n.partialLen n.stored
      (Function.update (childAt n keys children) c (some child)) := by
  have hle := numChildren_le_of_keyed (.inr ht) hl.toMatching
  rw [addChild16]
  by_cases hroom : n.numChildren < 16
  · rw [if_pos hroom]
    exact insertChild_denotes (.inr ht) hl (by rw [ht]; exact UInt8.lt_iff_toNat_lt.mp hroom)
      (firstIndex_le _ _) hc hx
  · rw [if_neg hroom]
    have hnum : n.numChildren = 16 := by
      have hge := fun h => hroom (UInt8.lt_iff_toNat_lt.mpr h)
      rw [ht, NodeType.capacity] at hle
      apply UInt8.toNat_inj.mp
      simp at hge ⊢
      omega
    obtain ⟨hl', hmap⟩ := grow48_layout ht hl hnum
    have := addChild48_denotes (copyHeader_type ..) hl' (by rwa [hmap]) hx
    rwa [hmap, copyHeader_partialLen, copyHeader_stored] at this

/-- `add_child4` stores the child, in a NODE16 when the node is full. -/
theorem addChild4_denotes (build : Build) (ht : n.type = .node4) (hl : Layout n keys children)
    (hc : childAt n keys children c = none) (hx : child.isNull = false) :
    Denotes (addChild4 build n keys children c child) n.partialLen n.stored
      (Function.update (childAt n keys children) c (some child)) := by
  have hle := numChildren_le_of_keyed (.inl ht) hl.toMatching
  rw [addChild4]
  by_cases hroom : n.numChildren < 4
  · rw [if_pos hroom]
    exact insertChild_denotes (.inl ht) hl (by rw [ht]; exact UInt8.lt_iff_toNat_lt.mp hroom)
      (firstIndex_le _ _) hc hx
  · rw [if_neg hroom]
    have hnum : n.numChildren = 4 := by
      have hge := fun h => hroom (UInt8.lt_iff_toNat_lt.mpr h)
      rw [ht, NodeType.capacity] at hle
      apply UInt8.toNat_inj.mp
      simp at hge ⊢
      omega
    obtain ⟨hl', hmap⟩ := grow16_layout ht hl hnum
    have := addChild16_denotes build (copyHeader_type ..) hl' (by rwa [hmap]) hx
    rwa [hmap, copyHeader_partialLen, copyHeader_stored] at this

/-- **`add_child` stores one entry**: in every layout the node afterwards
denotes the map with the child stored, and keeps its compressed path. -/
theorem addChild_denotes (build : Build) (hl : Layout n keys children)
    (hc : childAt n keys children c = none) (hx : child.isNull = false) :
    Denotes (addChild build n keys children c child) n.partialLen n.stored
      (Function.update (childAt n keys children) c (some child)) := by
  unfold addChild
  cases ht : n.type with
  | node4 => exact addChild4_denotes build ht hl hc hx
  | node16 => exact addChild16_denotes build ht hl hc hx
  | node48 => exact addChild48_denotes ht hl hc hx
  | node256 => exact addChild256_denotes ht hl hc hx

end LightQuery
