import LightQuery.Art.AddChild

/-!
# LightQuery.Art.RemoveChild

`remove_child` erases one entry from the map of a node.

As for `add_child`, one step lemma erases an entry in any layout, the four
routines instantiate it, and shrinking is a change of layout.  A NODE4 that is
left with one child is replaced by that child, whose header takes over the
path: `mergeHeader_stored` says that the ten-byte cap of the concatenation
keeps the stored bytes exact.
-/

namespace LightQuery

open CArray

variable {V : Type} {n : Header} {keys : Nat → UInt8} {children : Nat → ArtNode V} {c : UInt8}

/-! ## erasing one entry, in any layout -/

section erase

variable {n' : Header} {keys' : Nat → UInt8} {children' : Nat → ArtNode V} {pos : Nat}
  {e : Nat → Nat}

/-- If the slots are those of the other bytes, moved by `e`, and the children
moved along, the node is tidy and denotes the map with `c` erased. -/
theorem Tidy.erase (hl : Tidy n keys children) (hpos : Slot n keys children c pos)
    (hslot : ∀ b j, Slot n' keys' children' b j ↔
      ∃ i, Slot n keys children b i ∧ b ≠ c ∧ j = e i)
    (he : ∀ {b b' i i'}, Slot n keys children b i → Slot n keys children b' i' → b ≠ c → b' ≠ c →
      e i = e i' → i = i')
    (hbound : ∀ b j, Slot n' keys' children' b j → j < n'.type.capacity)
    (hold : ∀ {b i}, Slot n keys children b i → b ≠ c → children' (e i) = children i)
    (hnum : n'.numChildren = n.numChildren - 1)
    (hfree : n'.type = .node48 → ∀ j < 48, (children' j).isNull = false →
      ∃ b, Slot n' keys' children' b j) :
    Tidy n' keys' children' ∧
      childAt n' keys' children' = Function.update (childAt n keys children) c none := by
  have hm' : Matching n' keys' children' := by
    refine ⟨?_, ?_, fun {b j} => hbound b j⟩
    · intro b b' j hb hb'
      obtain ⟨i, hi, hbc, rfl⟩ := (hslot b j).mp hb
      obtain ⟨i', hi', hbc', hj⟩ := (hslot b' _).mp hb'
      exact hl.byte hi (he hi hi' hbc hbc' hj ▸ hi')
    · intro b j j' hj hj'
      obtain ⟨i, hi, -, rfl⟩ := (hslot b j).mp hj
      obtain ⟨i', hi', -, rfl⟩ := (hslot b j').mp hj'
      rw [hl.slot hi hi']
  have hmap : childAt n' keys' children' = Function.update (childAt n keys children) c none := by
    funext b
    by_cases hbc : b = c
    · subst hbc
      rw [Function.update_self, hm'.childAt_eq_none_iff]
      intro j hj
      obtain ⟨i, -, h, -⟩ := (hslot _ _).mp hj
      exact h rfl
    · rw [Function.update_of_ne hbc]
      cases hb : childAt n keys children b with
      | none =>
          rw [hl.childAt_eq_none_iff] at hb
          rw [hm'.childAt_eq_none_iff]
          intro j hj
          obtain ⟨i, hi, -, -⟩ := (hslot _ _).mp hj
          exact hb i hi
      | some x =>
          obtain ⟨i, hi, rfl⟩ := hl.childAt_eq_some_iff.mp hb
          rw [hm'.childAt_of_slot ((hslot _ _).mpr ⟨i, hi, hbc, rfl⟩), hold hi hbc]
  refine ⟨{ toMatching := hm', full := ?_, free := hfree, count := ?_ }, hmap⟩
  · intro b j hj
    obtain ⟨i, hi, hbc, rfl⟩ := (hslot b j).mp hj
    rw [hold hi hbc]
    exact hl.full hi
  · have hdeg := hl.toMatching.degree_of_erase hm' (hl.childAt_of_slot hpos) hmap
    have hcount := hl.count
    rw [hnum, UInt8.toNat_sub]
    simp
    omega

end erase

/-! ## erasing from a keyed node -/

/-- Where a later slot goes when the gap at `pos` is closed. -/
def unshift (pos i : Nat) : Nat := if i < pos then i else i - 1

theorem unshift_inj {pos i j : Nat} (hi : i ≠ pos) (hj : j ≠ pos)
    (h : unshift pos i = unshift pos j) : i = j := by
  unfold unshift at h
  split at h <;> split at h <;> omega

theorem eraseAt_unshift {α : Type} (a : Nat → α) {pos i m : Nat} (hi : i < m) (hne : i ≠ pos) :
    eraseAt a pos m (unshift pos i) = a i := by
  unfold unshift
  by_cases hlt : i < pos
  · rw [if_pos hlt, eraseAt_lt a hlt]
  · rw [if_neg hlt, eraseAt_ge a (by omega) (by omega)]
    congr 1
    omega

theorem toNat_sub_one {x : UInt8} (h : 0 < x.toNat) : (x - 1).toNat = x.toNat - 1 := by
  rw [UInt8.toNat_sub]
  have := x.toNat_lt
  simp
  omega

/-- Closing the gap at `pos` erases the entry of its byte. -/
theorem eraseChild_tidy {pos : Nat} (ht : n.type.Keyed) (hl : Tidy n keys children)
    (hpos : Slot n keys children c pos) :
    Tidy { n with numChildren := n.numChildren - 1 } (eraseAt keys pos n.numChildren.toNat)
        (eraseAt children pos n.numChildren.toNat) ∧
      childAt { n with numChildren := n.numChildren - 1 } (eraseAt keys pos n.numChildren.toNat)
        (eraseAt children pos n.numChildren.toNat) =
        Function.update (childAt n keys children) c none := by
  have hp := (slot_keyed ht).mp hpos
  -- the other bytes are those of the other slots
  have hne : ∀ {b i}, Slot n keys children b i → (b ≠ c ↔ i ≠ pos) := by
    intro b i hi
    constructor
    · rintro hbc rfl
      exact hbc (hl.byte hi hpos)
    · rintro hip rfl
      exact hip (hl.slot hi hpos)
  have hnum : (n.numChildren - 1).toNat = n.numChildren.toNat - 1 := toNat_sub_one (by omega)
  refine hl.erase (e := unshift pos) hpos ?_ ?_ ?_ ?_ rfl ?_
  · intro b j
    rw [slot_keyed (n := { n with numChildren := n.numChildren - 1 }) ht, hnum]
    constructor
    · rintro ⟨hj, rfl⟩
      by_cases hlt : j < pos
      · have hs : Slot n keys children (eraseAt keys pos n.numChildren.toNat j) j :=
          (slot_keyed ht).mpr ⟨by omega, (eraseAt_lt keys hlt).symm⟩
        exact ⟨j, hs, (hne hs).mpr (by omega), by rw [unshift, if_pos hlt]⟩
      · have hs : Slot n keys children (eraseAt keys pos n.numChildren.toNat j) (j + 1) :=
          (slot_keyed ht).mpr ⟨by omega, (eraseAt_ge keys (by omega) (by omega)).symm⟩
        exact ⟨j + 1, hs, (hne hs).mpr (by omega), by rw [unshift, if_neg (by omega)]; rfl⟩
    · rintro ⟨i, hi, hbc, rfl⟩
      have hip := (hne hi).mp hbc
      obtain ⟨hlt, rfl⟩ := (slot_keyed ht).mp hi
      refine ⟨?_, eraseAt_unshift keys hlt hip⟩
      unfold unshift
      split <;> omega
  · intro b b' i i' hi hi' hbc hbc'
    exact unshift_inj ((hne hi).mp hbc) ((hne hi').mp hbc')
  · intro b j hj
    have hj' := ((slot_keyed (n := { n with numChildren := n.numChildren - 1 }) ht).mp hj).1
    have := numChildren_le_of_keyed ht hl.toMatching
    show j < n.type.capacity
    simp only [hnum] at hj'
    omega
  · intro b i hi hbc
    exact eraseAt_unshift children ((slot_keyed ht).mp hi).1 ((hne hi).mp hbc)
  · intro h48
    rcases ht with ht | ht <;> exact absurd (ht.symm.trans h48) (by decide)

/-! ## erasing from a NODE48 or a NODE256 -/

theorem removeChild48_tidy {pos : Nat} (ht : n.type = .node48) (hl : Tidy n keys children)
    (hpos : Slot n keys children c pos) :
    Tidy { n with numChildren := n.numChildren - 1 } (Function.update keys c.toNat 0)
        (Function.update children ((keys c.toNat).toNat - 1) .null) ∧
      childAt { n with numChildren := n.numChildren - 1 } (Function.update keys c.toNat 0)
        (Function.update children ((keys c.toNat).toNat - 1) .null) =
        Function.update (childAt n keys children) c none := by
  obtain ⟨hk, rfl⟩ := (slot_node48 ht).mp hpos
  have hslot : ∀ b j, Slot { n with numChildren := n.numChildren - 1 }
      (Function.update keys c.toNat 0)
      (Function.update children ((keys c.toNat).toNat - 1) .null) b j ↔
      ∃ i, Slot n keys children b i ∧ b ≠ c ∧ j = id i := by
    intro b j
    rw [slot_node48 (n := { n with numChildren := n.numChildren - 1 }) ht]
    simp only [slot_node48 ht, id_eq]
    by_cases hbc : b = c
    · subst hbc
      simp
    · have hne : b.toNat ≠ c.toNat := fun h => hbc (UInt8.toNat_inj.mp h)
      rw [Function.update_of_ne hne]
      simp [hbc]
  have hother : ∀ {b i}, Slot n keys children b i → b ≠ c → i ≠ (keys c.toNat).toNat - 1 := by
    rintro b i hi hbc rfl
    exact hbc (hl.byte hi hpos)
  refine hl.erase hpos hslot (fun _ _ _ _ h => h) ?_
    (fun hi hbc => Function.update_of_ne (hother hi hbc) _ _) rfl ?_
  · intro b j hj
    obtain ⟨i, hi, -, rfl⟩ := (hslot b j).mp hj
    exact hl.bound hi
  · intro _ j hj hj'
    by_cases hjp : j = (keys c.toNat).toNat - 1
    · rw [hjp, Function.update_self] at hj'
      cases hj'
    · rw [Function.update_of_ne hjp] at hj'
      obtain ⟨b, hb⟩ := hl.free ht j hj hj'
      refine ⟨b, (hslot _ _).mpr ⟨j, hb, ?_, rfl⟩⟩
      rintro rfl
      exact hjp (hl.slot hb hpos)

theorem removeChild256_tidy {pos : Nat} (ht : n.type = .node256) (hl : Tidy n keys children)
    (hpos : Slot n keys children c pos) :
    Tidy { n with numChildren := n.numChildren - 1 } keys
        (Function.update children c.toNat .null) ∧
      childAt { n with numChildren := n.numChildren - 1 } keys
        (Function.update children c.toNat .null) =
        Function.update (childAt n keys children) c none := by
  have hslot : ∀ b j, Slot { n with numChildren := n.numChildren - 1 } keys
      (Function.update children c.toNat .null) b j ↔
      ∃ i, Slot n keys children b i ∧ b ≠ c ∧ j = id i := by
    intro b j
    rw [slot_node256 (n := { n with numChildren := n.numChildren - 1 }) ht]
    simp only [slot_node256 ht, id_eq]
    by_cases hbc : b = c
    · subst hbc
      simp [ArtNode.isNull]
    · have hne : b.toNat ≠ c.toNat := fun h => hbc (UInt8.toNat_inj.mp h)
      rw [Function.update_of_ne hne]
      simp [hbc]
  refine hl.erase hpos hslot (fun _ _ _ _ h => h) ?_ ?_ rfl ?_
  · intro b j hj
    obtain ⟨i, hi, -, rfl⟩ := (hslot b j).mp hj
    exact hl.bound hi
  · intro b i hi hbc
    refine Function.update_of_ne ?_ _ _
    rw [((slot_node256 ht).mp hi).2]
    exact fun h => hbc (UInt8.toNat_inj.mp h)
  · intro h48
    exact absurd (ht.symm.trans h48) (by decide)

/-! ## shrinking -/

/-- The NODE4 that replaces a NODE16 left with three children. -/
theorem shrink4_layout (ht : n.type = .node16) (hl : Tidy n keys children)
    (hnum : n.numChildren = 3) :
    Layout (copyHeader .node4 n) (memmove (fun _ => 0) 0 keys 0 4)
        (memmove (fun _ => .null) 0 children 0 4) ∧
      childAt (copyHeader .node4 n) (memmove (fun _ => 0) 0 keys 0 4)
        (memmove (fun _ => .null) 0 children 0 4) = childAt n keys children := by
  have hnum' : n.numChildren.toNat = 3 := by rw [hnum]; rfl
  refine hl.copyKeyed (.inr ht) (.inl rfl) (by omega) ?_ (Nat.zero_le _)
  rw [hnum']
  decide

/-- The NODE16 that replaces a NODE48 left with twelve children: the `pos`-th
byte with a child goes to slot `pos`. -/
theorem shrink16_layout (ht : n.type = .node48) (hl : Tidy n keys children)
    (hnum : n.numChildren = 12) :
    let kept := (List.range 256).filter fun i => keys i != 0
    let keys' : Nat → UInt8 := fun child => (kept[child]?).elim 0 UInt8.ofNat
    let children' : Nat → ArtNode V :=
      fun child => (kept[child]?).elim .null fun i => children ((keys i).toNat - 1)
    Layout (copyHeader .node16 n) keys' children' ∧
      childAt (copyHeader .node16 n) keys' children' = childAt n keys children := by
  intro kept keys' children'
  have hdeg : degree n keys children = 12 := by
    have hle := degree_le_of_node48 ht hl.toMatching
    have hcount := hl.count
    rw [hnum] at hcount
    simp at hcount
    omega
  have hlen : kept.length = 12 := by
    rw [← hdeg]
    simp [degree, childOrder, ht, kept]
  have hmem : ∀ {j k : Nat}, kept[j]? = some k → k < 256 ∧ keys k ≠ 0 := by
    intro j k hj
    simpa [kept] using List.mem_of_getElem? hj
  have hslot : ∀ b j, Slot (copyHeader .node16 n) keys' children' b j ↔ kept[j]? = some b.toNat := by
    intro b j
    rw [slot_node16 (copyHeader_type ..), copyHeader_numChildren, hnum]
    show j < 12 ∧ keys' j = b ↔ _
    cases hj : kept[j]? with
    | none =>
        have := List.getElem?_eq_none_iff.mp hj
        simp
        omega
    | some k =>
        have hjlt := (List.getElem?_eq_some_iff.mp hj).1
        have hk := toNat_ofNat_of_lt (hmem hj).1
        simp only [keys', hj, Option.elim_some, Option.some.injEq]
        constructor
        · rintro ⟨-, rfl⟩
          exact hk.symm
        · rintro rfl
          exact ⟨by omega, UInt8.ofNat_toNat⟩
  have hfrom : ∀ b j, Slot (copyHeader .node16 n) keys' children' b j →
      Slot n keys children b ((keys b.toNat).toNat - 1) ∧
        children' j = children ((keys b.toNat).toNat - 1) := by
    intro b j hj
    have hj' := (hslot b j).mp hj
    exact ⟨(slot_node48 ht).mpr ⟨(hmem hj').2, rfl⟩, by simp only [children', hj', Option.elim_some]⟩
  have hcap : kept.length ≤ 16 := by omega
  have hm' := Matching.of_listed (n := copyHeader .node16 n) (List.nodup_range.filter _) hslot hcap
  refine hl.convert hm' (fun b i hi => ?_) (fun b j hj => ⟨_, (hfrom b j hj).1⟩)
    (fun h => by cases h) rfl ?_
  · obtain ⟨hk, rfl⟩ := (slot_node48 ht).mp hi
    have hin : b.toNat ∈ kept := by simp [kept, hk, b.toNat_lt]
    obtain ⟨j, hj⟩ := List.getElem?_of_mem hin
    exact ⟨j, (hslot b j).mpr hj, (hfrom b j ((hslot b j).mpr hj)).2⟩
  · rw [hdeg]
    show 4 ≤ 12
    decide

/-- The NODE48 that replaces a NODE256 left with 37 children: the `pos`-th
child goes to slot `pos`. -/
theorem shrink48_layout (ht : n.type = .node256) (hl : Tidy n keys children)
    (hdeg : degree n keys children = 37) :
    let kept := (List.range 256).filter fun i => !(children i).isNull
    let keys' : Nat → UInt8 :=
      kept.zipIdx.foldl (fun ks p => Function.update ks p.1 (UInt8.ofNat (p.2 + 1))) fun _ => 0
    let children' : Nat → ArtNode V := fun pos => (kept[pos]?).elim .null children
    Layout (copyHeader .node48 n) keys' children' ∧
      childAt (copyHeader .node48 n) keys' children' = childAt n keys children := by
  intro kept keys' children'
  have hlen : kept.length = 37 := by
    rw [← hdeg]
    simp [degree, childOrder, ht, kept]
  have hnd : (kept.zipIdx.map Prod.fst).Nodup := by
    rw [List.zipIdx_map_fst]
    exact List.nodup_range.filter _
  -- the key map points at the position in `kept`
  have hkeys : ∀ {j k : Nat}, kept[j]? = some k → keys' k = UInt8.ofNat (j + 1) := by
    intro j k hj
    exact foldl_update_of_mem (l := kept.zipIdx) (k := Prod.fst)
      (v := fun p => UInt8.ofNat (p.2 + 1)) hnd (a := (k, j))
      (List.mem_zipIdx_iff_getElem?.mpr hj)
  have hzero : ∀ {k}, k ∉ kept → keys' k = 0 := by
    intro k hk
    refine foldl_update_of_ne (l := kept.zipIdx) (k := Prod.fst)
      (v := fun p => UInt8.ofNat (p.2 + 1)) fun p hp h => hk ?_
    rw [← h]
    exact List.mem_of_getElem? (List.mem_zipIdx_iff_getElem?.mp hp)
  have hslot : ∀ b j, Slot (copyHeader .node48 n) keys' children' b j ↔ kept[j]? = some b.toNat := by
    intro b j
    rw [slot_node48 (copyHeader_type ..)]
    by_cases hb : b.toNat ∈ kept
    · obtain ⟨i, hi⟩ := List.getElem?_of_mem hb
      have hilt := (List.getElem?_eq_some_iff.mp hi).1
      have hv : (UInt8.ofNat (i + 1)).toNat = i + 1 := toNat_ofNat_of_lt (by omega)
      rw [hkeys hi, hv]
      constructor
      · rintro ⟨-, rfl⟩
        exact hi
      · intro hj
        refine ⟨fun h => by rw [h] at hv; simp at hv, ?_⟩
        exact (List.getElem?_inj (List.getElem?_eq_some_iff.mp hj).1
          (List.nodup_range.filter _)).mp (hj.trans hi.symm)
    · rw [hzero hb]
      exact ⟨fun h => absurd rfl h.1, fun h => absurd (List.mem_of_getElem? h) hb⟩
  have hcap : kept.length ≤ 48 := by omega
  have hm' := Matching.of_listed (n := copyHeader .node48 n) (List.nodup_range.filter _) hslot hcap
  refine hl.convert hm' (fun b i hi => ?_) (fun b j hj => ?_) (fun _ j _ hj => ?_) rfl ?_
  · obtain ⟨hk, rfl⟩ := (slot_node256 ht).mp hi
    have hin : b.toNat ∈ kept := by simp [kept, hk, b.toNat_lt]
    obtain ⟨j, hj⟩ := List.getElem?_of_mem hin
    exact ⟨j, (hslot b j).mpr hj, by simp only [children', hj, Option.elim_some]⟩
  · have := List.mem_of_getElem? ((hslot b j).mp hj)
    refine ⟨b.toNat, (slot_node256 ht).mpr ⟨?_, rfl⟩⟩
    simpa [kept] using (List.mem_filter.mp this).2
  · cases hk : kept[j]? with
    | none =>
        simp only [children', hk, Option.elim_none] at hj
        cases hj
    | some k =>
        have hk256 : k < 256 := List.mem_range.mp (List.mem_filter.mp (List.mem_of_getElem? hk)).1
        exact ⟨UInt8.ofNat k, (hslot _ _).mpr (by rw [toNat_ofNat_of_lt hk256, hk])⟩
  · rw [hdeg]
    show 13 ≤ 37
    decide

/-! ## remove_child -/

theorem Tidy.denotes_of_floor (hl : Tidy n keys children)
    (hfloor : n.type.floor ≤ degree n keys children) :
    Denotes (.node n keys children) n.partialLen n.stored (childAt n keys children) :=
  Layout.denotes { toTidy := hl, floor := hfloor }

/-- One child less than before. -/
theorem Tidy.degree_of_erase {n' : Header} {keys' : Nat → UInt8} {children' : Nat → ArtNode V}
    {pos : Nat} (hl : Tidy n keys children) (hpos : Slot n keys children c pos)
    (h : Tidy n' keys' children' ∧
      childAt n' keys' children' = Function.update (childAt n keys children) c none) :
    degree n' keys' children' + 1 = degree n keys children :=
  hl.toMatching.degree_of_erase h.1.toMatching (hl.childAt_of_slot hpos) h.2

/-- `remove_child` erases one entry of a NODE16, shrinking it at three. -/
theorem removeChild16_denotes {pos : Nat} (ht : n.type = .node16) (hl : Layout n keys children)
    (hpos : Slot n keys children c pos) :
    Denotes (removeChild16 n keys children pos) n.partialLen n.stored
      (Function.update (childAt n keys children) c none) := by
  have he := eraseChild_tidy (.inr ht) hl.toTidy hpos
  have hdeg := hl.toTidy.degree_of_erase hpos he
  rw [removeChild16]
  by_cases h3 : n.numChildren - 1 = 3
  · obtain ⟨hl', hmap⟩ :=
      shrink4_layout (n := { n with numChildren := n.numChildren - 1 }) ht he.1 h3
    rw [if_pos h3]
    have := hl'.denotes
    rwa [hmap, he.2, copyHeader_partialLen, copyHeader_stored] at this
  · rw [if_neg h3]
    have := he.1.denotes_of_floor ?_
    · rwa [he.2] at this
    · show n.type.floor ≤ _
      have hfloor := hl.floor
      have hp := ((slot_keyed (.inr ht)).mp hpos).1
      have hd : degree n keys children = n.numChildren.toNat := degree_node16 ht
      have hne : (n.numChildren - 1).toNat ≠ 3 := fun h => h3 (UInt8.toNat_inj.mp h)
      have hf : n.type.floor = 4 := by rw [ht]; rfl
      rw [toNat_sub_one (by omega)] at hne
      omega

/-- `remove_child` erases one entry of a NODE48, shrinking it at twelve. -/
theorem removeChild48_denotes {pos : Nat} (ht : n.type = .node48) (hl : Layout n keys children)
    (hpos : Slot n keys children c pos) :
    Denotes (removeChild48 n keys children c) n.partialLen n.stored
      (Function.update (childAt n keys children) c none) := by
  have he := removeChild48_tidy ht hl.toTidy hpos
  have hdeg := hl.toTidy.degree_of_erase hpos he
  rw [removeChild48]
  by_cases h12 : n.numChildren - 1 = 12
  · obtain ⟨hl', hmap⟩ :=
      shrink16_layout (n := { n with numChildren := n.numChildren - 1 }) ht he.1 h12
    rw [if_pos h12]
    have := hl'.denotes
    rwa [hmap, he.2, copyHeader_partialLen, copyHeader_stored] at this
  · rw [if_neg h12]
    have := he.1.denotes_of_floor ?_
    · rwa [he.2] at this
    · show n.type.floor ≤ _
      have hfloor := hl.floor
      have hle := degree_le_of_node48 ht hl.toMatching
      have hcount := hl.count
      have hne : (n.numChildren - 1).toNat ≠ 12 := fun h => h12 (UInt8.toNat_inj.mp h)
      have hf : n.type.floor = 13 := by rw [ht]; rfl
      rw [toNat_sub_one (by omega)] at hne
      omega

theorem degree_le_256 (hm : Matching n keys children) : degree n keys children ≤ 256 := by
  rw [hm.degree_eq, ← length_allBytes]
  exact List.length_filter_le _ _

/-- `remove_child` erases one entry of a NODE256, shrinking it at 37.  The
counter of a full NODE256 has wrapped to 0, and is 255 afterwards. -/
theorem removeChild256_denotes {pos : Nat} (ht : n.type = .node256) (hl : Layout n keys children)
    (hpos : Slot n keys children c pos) :
    Denotes (removeChild256 n keys children c) n.partialLen n.stored
      (Function.update (childAt n keys children) c none) := by
  have he := removeChild256_tidy ht hl.toTidy hpos
  have hdeg := hl.toTidy.degree_of_erase hpos he
  have hle := degree_le_256 hl.toMatching
  have hcount : (n.numChildren - 1).toNat = _ := he.1.count
  rw [removeChild256]
  by_cases h37 : n.numChildren - 1 = 37
  · have hnum : (n.numChildren - 1).toNat = 37 := by rw [h37]; rfl
    obtain ⟨hl', hmap⟩ := shrink48_layout (n := { n with numChildren := n.numChildren - 1 }) ht
      he.1 (by omega)
    rw [if_pos h37]
    have := hl'.denotes
    rwa [hmap, he.2, copyHeader_partialLen, copyHeader_stored] at this
  · rw [if_neg h37]
    have := he.1.denotes_of_floor ?_
    · rwa [he.2] at this
    · show n.type.floor ≤ _
      have hfloor := hl.floor
      have hne : (n.numChildren - 1).toNat ≠ 37 := fun h => h37 (UInt8.toNat_inj.mp h)
      have hf : n.type.floor = 38 := by rw [ht]; rfl
      omega

/-- **`remove_child` erases one entry**: unless it leaves a NODE4 with a single
child, the node afterwards denotes the map without the child and keeps its
compressed path. -/
theorem removeChild_denotes {pos : Nat} (hl : Layout n keys children)
    (hpos : Slot n keys children c pos) (h2 : 2 ≤ degree n keys children)
    (hmany : n.type = .node4 → degree n keys children ≠ 2) :
    Denotes (removeChild n keys children c pos) n.partialLen n.stored
      (Function.update (childAt n keys children) c none) := by
  unfold removeChild
  cases ht : n.type with
  | node4 =>
      have he := eraseChild_tidy (.inl ht) hl.toTidy hpos
      have hd : degree n keys children = n.numChildren.toNat := degree_node4 ht
      have hne : ¬ n.numChildren - 1 = 1 := by
        intro h
        have h1 : (n.numChildren - 1).toNat = 1 := by rw [h]; rfl
        rw [toNat_sub_one (by omega)] at h1
        exact hmany ht (by omega)
      show Denotes (removeChild4 n keys children pos) _ _ _
      rw [removeChild4, if_neg hne]
      have := he.1.denotes_of_floor (by show n.type.floor ≤ _; rw [ht]; exact Nat.zero_le _)
      rwa [he.2] at this
  | node16 => exact removeChild16_denotes ht hl hpos
  | node48 => exact removeChild48_denotes ht hl hpos
  | node256 => exact removeChild256_denotes ht hl hpos

/-! ## the collapse of a NODE4 -/

/-- What becomes of the only child that is left in a NODE4: an inner node takes
over the path, a leaf stays as it is. -/
def absorb (n : Header) (k : UInt8) : ArtNode V → ArtNode V
  | .node m ks ch => .node (mergeHeader n k m) ks ch
  | child => child

/-- A NODE4 with two children is replaced by the one that stays. -/
theorem removeChild_of_two {pos i : Nat} {b : UInt8} (ht : n.type = .node4)
    (hl : Layout n keys children) (hpos : Slot n keys children c pos)
    (hi : Slot n keys children b i) (hbc : b ≠ c) (h2 : degree n keys children = 2) :
    removeChild n keys children c pos = absorb n b (children i) := by
  have hd : degree n keys children = n.numChildren.toNat := degree_node4 ht
  have hp := (slot_node4 ht).mp hpos
  obtain ⟨hi2, rfl⟩ := (slot_node4 ht).mp hi
  have hip : i ≠ pos := fun h => hbc (hl.byte (h ▸ hi) hpos)
  have h1 : n.numChildren - 1 = 1 := by
    apply UInt8.toNat_inj.mp
    rw [toNat_sub_one (by omega)]
    show n.numChildren.toNat - 1 = 1
    omega
  have hz : unshift pos i = 0 := by
    unfold unshift
    split <;> omega
  have hk : eraseAt keys pos n.numChildren.toNat 0 = keys i := by
    rw [← hz, eraseAt_unshift keys hi2 hip]
  have hch : eraseAt children pos n.numChildren.toNat 0 = children i := by
    rw [← hz, eraseAt_unshift children hi2 hip]
  simp only [removeChild, ht]
  rw [removeChild4, if_pos h1, hk, hch]
  cases children i <;> rfl

theorem getElem_stored {i : Nat} (h : i < n.stored.length) : n.stored[i] = n.partialBytes i := by
  simp [Header.stored]

theorem length_stored (n : Header) : n.stored.length = min maxPrefixLen n.partialLen := by
  simp [Header.stored]

/-- Byte `i` of the concatenated path comes from the parent's path, is the slot
byte, or comes from the child's path. -/
theorem mergeHeader_partialBytes {m : Header} {k : UInt8} {i : Nat}
    (hi : i < min maxPrefixLen (m.partialLen + n.partialLen + 1)) :
    (mergeHeader n k m).partialBytes i =
      if i < n.partialLen then n.partialBytes i
      else if i = n.partialLen then k else m.partialBytes (i - n.partialLen - 1) := by
  by_cases hL : n.partialLen < maxPrefixLen
  · by_cases hL1 : n.partialLen + 1 < maxPrefixLen
    · simp only [mergeHeader, memmove, if_pos hL, if_pos hL1, Nat.zero_add,
        Nat.sub_zero]
      rw [if_pos ⟨Nat.zero_le i, by omega⟩]
      rcases Nat.lt_trichotomy i n.partialLen with hlt | rfl | hgt
      · rw [if_neg (by omega), if_pos hlt, Function.update_of_ne (by omega)]
      · rw [if_neg (by omega), if_neg (by omega), if_pos rfl, Function.update_self]
      · rw [if_pos (by omega), if_neg (by omega), if_neg (by omega)]
        congr 1
    · simp only [mergeHeader, memmove, if_pos hL, if_neg hL1, Nat.zero_add,
        Nat.sub_zero, Nat.add_zero]
      rw [if_pos ⟨Nat.zero_le i, by omega⟩, if_neg (by omega)]
      by_cases hlt : i < n.partialLen
      · rw [if_pos hlt, Function.update_of_ne (by omega)]
      · have heq : i = n.partialLen := by omega
        subst heq
        rw [if_neg hlt, if_pos rfl, Function.update_self]
  · simp only [mergeHeader, memmove, if_neg hL, Nat.zero_add, Nat.sub_zero,
      Nat.add_zero]
    rw [if_pos ⟨Nat.zero_le i, by omega⟩, if_neg (by omega), if_pos (by omega)]

/-- The concatenated path keeps its first ten bytes exact. -/
theorem mergeHeader_stored {m : Header} {k : UInt8} {p q : List UInt8}
    (hp : p.length = n.partialLen) (hq : q.length = m.partialLen)
    (hn : n.stored = p.take maxPrefixLen) (hm : m.stored = q.take maxPrefixLen) :
    (mergeHeader n k m).stored = (p ++ k :: q).take maxPrefixLen := by
  have hnb : ∀ i < min maxPrefixLen n.partialLen, p[i]? = some (n.partialBytes i) := by
    intro i hi
    have h1 : i < n.stored.length := by rwa [length_stored]
    have h2 : n.stored[i]? = some (n.partialBytes i) := by
      rw [List.getElem?_eq_getElem h1, getElem_stored h1]
    rwa [hn, List.getElem?_take_of_lt (by omega)] at h2
  have hmb : ∀ i < min maxPrefixLen m.partialLen, q[i]? = some (m.partialBytes i) := by
    intro i hi
    have h1 : i < m.stored.length := by rwa [length_stored]
    have h2 : m.stored[i]? = some (m.partialBytes i) := by
      rw [List.getElem?_eq_getElem h1, getElem_stored h1]
    rwa [hm, List.getElem?_take_of_lt (by omega)] at h2
  apply List.ext_getElem?
  intro i
  have hlen : (mergeHeader n k m).partialLen = m.partialLen + n.partialLen + 1 := rfl
  by_cases hi : i < min maxPrefixLen (m.partialLen + n.partialLen + 1)
  · have hi10 : i < maxPrefixLen := by omega
    have hst : (mergeHeader n k m).stored[i]? = some ((mergeHeader n k m).partialBytes i) := by
      have h1 : i < (mergeHeader n k m).stored.length := by rw [length_stored, hlen]; exact hi
      rw [List.getElem?_eq_getElem h1, getElem_stored h1]
    rw [hst, List.getElem?_take_of_lt hi10]
    rw [mergeHeader_partialBytes hi]
    rcases Nat.lt_trichotomy i n.partialLen with hlt | rfl | hgt
    · rw [List.getElem?_append_left (by omega), hnb i (by omega), if_pos hlt]
    · rw [List.getElem?_append_right (by omega), hp, Nat.sub_self, List.getElem?_cons_zero,
        if_neg (by omega), if_pos rfl]
    · obtain ⟨j, hj⟩ : ∃ j, i - n.partialLen = j + 1 := ⟨i - n.partialLen - 1, by omega⟩
      rw [List.getElem?_append_right (by omega), hp, hj, List.getElem?_cons_succ,
        hmb j (by omega), if_neg (by omega), if_neg (by omega), Nat.add_sub_cancel]
  · rw [List.getElem?_eq_none (by rw [length_stored, hlen]; omega), List.getElem?_eq_none]
    rw [List.length_take, List.length_append, List.length_cons]
    omega

end LightQuery
