import LightQuery.Art.Delete

/-!
# LightQuery.Art.Ordered

The order in which the loops over the children meet the keys.

A subtree is `Sorted` when its entries come in strictly increasing order of
their keys, and a node `Ascends` when its slots come in increasing order of
their bytes; a well-formed node is sorted when it ascends and its children are
sorted (`sorted_node_iff`).  Removing a child keeps the order.  Adding one keeps
it too, unless the signed comparison of the SSE2 build puts a byte on the wrong
side of those that differ from it in the top bit (`Misplaces`).
-/

namespace LightQuery

open CArray PrefixFamily

variable {V : Type} {n : Header} {keys : Nat → UInt8} {children : Nat → ArtNode V}

/-! ## keys that part at a byte -/

theorem lt_of_branch {p xs ys : List UInt8} {a b : UInt8} (hab : a < b) (hx : p ++ [a] <+: xs)
    (hy : p ++ [b] <+: ys) : xs < ys := by
  obtain ⟨s, rfl⟩ := hx
  obtain ⟨t, rfl⟩ := hy
  rw [List.append_assoc, List.append_assoc]
  exact List.append_left_lt (List.cons_lt_cons_iff.mpr (.inl hab))

/-- Keys that part at a byte are ordered like the two bytes. -/
theorem lt_iff_of_branch {p xs ys : List UInt8} {a b : UInt8} (hab : a ≠ b)
    (hx : p ++ [a] <+: xs) (hy : p ++ [b] <+: ys) : xs < ys ↔ a < b := by
  refine ⟨fun h => ?_, fun h => lt_of_branch h hx hy⟩
  by_contra hge
  have hba : b < a := by
    rw [UInt8.lt_iff_toNat_lt] at hge ⊢
    have hne : a.toNat ≠ b.toNat := fun heq => hab (UInt8.toNat_inj.mp heq)
    omega
  exact List.lt_irrefl xs (List.lt_trans h (lt_of_branch hba hy hx))

/-! ## sorted subtrees -/

/-- The entries come in strictly increasing order of their keys. -/
def Sorted (x : ArtNode V) : Prop := (entries x).Pairwise fun e e' => e.1 < e'.1

@[simp] theorem sorted_null : Sorted (.null : ArtNode V) := List.Pairwise.nil

@[simp] theorem sorted_leaf (l : ArtLeaf V) : Sorted (.leaf l) := List.pairwise_singleton _ _

/-- The loop over the children meets their bytes in increasing order. -/
def Ascends : ArtNode V → Prop
  | .node n keys children => (childOrder n keys children).Pairwise fun i j =>
      ∀ b b', Slot n keys children b i → Slot n keys children b' j → b < b'
  | _ => True

/-- **A node is sorted** when it ascends and its children are sorted. -/
theorem sorted_node_iff {path c : List UInt8} (hl : Layout n keys children)
    (hchild : ∀ b i, Slot n keys children b i → WF (path ++ c ++ [b]) (children i)) :
    Sorted (.node n keys children) ↔ Ascends (.node n keys children) ∧
      ∀ b i, Slot n keys children b i → Sorted (children i) := by
  have hentries : entries (.node n keys children) =
      (childOrder n keys children).flatMap fun i => entries (children i) := by
    rw [entries, leaves, List.map_flatMap]
    rfl
  have hcross : ∀ {i j b b'}, Slot n keys children b i → Slot n keys children b' j → i ≠ j →
      ((∀ e ∈ entries (children i), ∀ e' ∈ entries (children j), e.1 < e'.1) ↔ b < b') := by
    intro i j b b' hb hb' hij
    have hbb : b ≠ b' := fun h => hij (hl.slot hb (h ▸ hb'))
    constructor
    · intro hall
      obtain ⟨e, he⟩ := List.exists_mem_of_ne_nil _ (hchild b i hb).entries_ne_nil
      obtain ⟨e', he'⟩ := List.exists_mem_of_ne_nil _ (hchild b' j hb').entries_ne_nil
      exact (lt_iff_of_branch hbb ((hchild b i hb).starts_with e he)
        ((hchild b' j hb').starts_with e' he')).mp (hall e he e' he')
    · intro hlt e he e' he'
      exact lt_of_branch hlt ((hchild b i hb).starts_with e he)
        ((hchild b' j hb').starts_with e' he')
  rw [Sorted, hentries, List.pairwise_flatMap, and_comm]
  refine and_congr ?_ ⟨fun h b i hb => h i (mem_childOrder.mpr ⟨b, hb⟩), fun h i hi => ?_⟩
  · rw [Ascends]
    have hnd := hl.nodup_childOrder
    constructor
    · intro h
      refine (h.and hnd).imp fun {i j} hij b b' hb hb' => ?_
      exact (hcross hb hb' hij.2).mp hij.1
    · intro h
      refine (h.and hnd).imp_of_mem fun {i j} hi hj hij => ?_
      obtain ⟨b, hb⟩ := mem_childOrder.mp hi
      obtain ⟨b', hb'⟩ := mem_childOrder.mp hj
      exact (hcross hb hb' hij.2).mpr (hij.1 b b' hb hb')
  · obtain ⟨b, hb⟩ := mem_childOrder.mp hi
    exact h b i hb

/-- The same in terms of the map that the node denotes. -/
theorem WF.sorted_iff_of_denotes {path : List UInt8} {x : ArtNode V} {len : Nat}
    {stored : List UInt8} {m : UInt8 → Option (ArtNode V)} (h : WF path x)
    (hd : Denotes x len stored m) :
    Sorted x ↔ Ascends x ∧ ∀ b y, m b = some y → Sorted y := by
  obtain ⟨n, keys, children, rfl, -, -, -, rfl⟩ := hd
  cases h with
  | node c hl htwo hlen hstored hchild =>
      rw [sorted_node_iff hl hchild]
      refine and_congr_right fun _ => ⟨fun h b y hb => ?_, fun h b i hb => ?_⟩
      · obtain ⟨i, hi, rfl⟩ := hl.childAt_eq_some_iff.mp hb
        exact h b i hi
      · exact h b _ (hl.childAt_of_slot hb)

/-! ## nodes that ascend -/

/-- A NODE48 and a NODE256 are walked byte by byte. -/
theorem ascends_of_not_keyed (hm : Matching n keys children) (ht : ¬ n.type.Keyed) :
    Ascends (.node n keys children) := by
  rw [Ascends]
  cases htype : n.type with
  | node4 => exact absurd (.inl htype) ht
  | node16 => exact absurd (.inr htype) ht
  | node48 =>
      simp only [childOrder, htype, List.pairwise_map]
      refine (List.pairwise_lt_range.filter _).imp_of_mem fun {i j} hi hj hij b b' hb hb' => ?_
      simp only [List.mem_filter, List.mem_range, bne_iff_ne] at hi hj
      have hslot : ∀ {i}, i < 256 → keys i ≠ 0 →
          Slot n keys children (UInt8.ofNat i) ((keys i).toNat - 1) := fun hi hk =>
        (slot_node48 htype).mpr ⟨by rwa [toNat_ofNat_of_lt hi], by rw [toNat_ofNat_of_lt hi]⟩
      rw [hm.byte hb (hslot hi.1 hi.2), hm.byte hb' (hslot hj.1 hj.2), UInt8.lt_iff_toNat_lt,
        toNat_ofNat_of_lt hi.1, toNat_ofNat_of_lt hj.1]
      exact hij
  | node256 =>
      simp only [childOrder, htype]
      refine (List.pairwise_lt_range.filter _).imp fun {i j} hij b b' hb hb' => ?_
      obtain ⟨-, rfl⟩ := (slot_node256 htype).mp hb
      obtain ⟨-, rfl⟩ := (slot_node256 htype).mp hb'
      exact UInt8.lt_iff_toNat_lt.mpr hij

/-- The first `m` bytes of an array are in increasing order. -/
def Increasing (keys : Nat → UInt8) (m : Nat) : Prop := ∀ i j, i < j → j < m → keys i < keys j

/-- A NODE4 and a NODE16 are walked in the order of the array `keys`. -/
theorem ascends_keyed_iff (ht : n.type.Keyed) :
    Ascends (.node n keys children) ↔ Increasing keys n.numChildren.toNat := by
  have horder : childOrder n keys children = List.range n.numChildren.toNat := by
    rcases ht with ht | ht <;> simp [childOrder, ht]
  rw [Ascends, horder, List.pairwise_iff_getElem]
  simp only [List.length_range, List.getElem_range, slot_keyed ht]
  constructor
  · intro h i j hij hj
    exact h i j (by omega) hj hij _ _ ⟨by omega, rfl⟩ ⟨hj, rfl⟩
  · rintro h i j hi hj hij b b' ⟨-, rfl⟩ ⟨-, rfl⟩
    exact h i j hij hj

theorem Increasing.congr {keys' : Nat → UInt8} {m : Nat} (h : Increasing keys m)
    (heq : ∀ i < m, keys' i = keys i) : Increasing keys' m := by
  intro i j hij hj
  rw [heq i (by omega), heq j hj]
  exact h i j hij hj

/-! ## adding a child -/

/-- A byte stored at `idx` keeps the order when it belongs there. -/
theorem increasing_insertAt_iff {idx m : Nat} {c : UInt8} (h : Increasing keys m) (hidx : idx ≤ m) :
    Increasing (insertAt keys idx c m) (m + 1) ↔
      (∀ i < idx, keys i < c) ∧ ∀ i, idx ≤ i → i < m → c < keys i := by
  constructor
  · intro hinc
    refine ⟨fun i hi => ?_, fun i hi him => ?_⟩
    · have := hinc i idx hi (by omega)
      rwa [insertAt_lt keys c m hi, insertAt_self] at this
    · have := hinc idx (i + 1) (by omega) (by omega)
      rwa [insertAt_self, insertAt_succ keys c hi him] at this
  · rintro ⟨hbelow, habove⟩ i j hij hj
    rcases Nat.lt_trichotomy j idx with hlt | rfl | hgt
    · rw [insertAt_lt keys c m hlt, insertAt_lt keys c m (by omega)]
      exact h i j hij (by omega)
    · rw [insertAt_lt keys c m hij, insertAt_self]
      exact hbelow i hij
    · obtain ⟨j, rfl⟩ : ∃ j', j = j' + 1 := ⟨j - 1, by omega⟩
      rw [insertAt_succ keys c (by omega) (by omega)]
      rcases Nat.lt_trichotomy i idx with hi | rfl | hi
      · rw [insertAt_lt keys c m hi]
        exact h i j (by omega) (by omega)
      · rw [insertAt_self]
        exact habove j (by omega) (by omega)
      · obtain ⟨i, rfl⟩ : ∃ i', i = i' + 1 := ⟨i - 1, by omega⟩
        rw [insertAt_succ keys c (by omega) (by omega)]
        exact h i j (by omega) (by omega)

/-- The unsigned scan finds where a new byte belongs. -/
theorem unsigned_position {m : Nat} {c : UInt8} (h : Increasing keys m)
    (hfresh : ∀ i < m, keys i ≠ c) :
    (∀ i < firstIndex m (fun i => decide (c < keys i)), keys i < c) ∧
      ∀ i, firstIndex m (fun i => decide (c < keys i)) ≤ i → i < m → c < keys i := by
  constructor
  · intro i hi
    have him : i < m := Nat.lt_of_lt_of_le hi (firstIndex_le _ _)
    have hnot : ¬ c < keys i := by simpa using firstIndex_not hi
    have hne : (keys i).toNat ≠ c.toNat := fun heq => hfresh i him (UInt8.toNat_inj.mp heq)
    rw [UInt8.lt_iff_toNat_lt] at hnot ⊢
    omega
  · intro i hi him
    have hp : c < keys (firstIndex m fun i => decide (c < keys i)) := by
      simpa using firstIndex_hit (Nat.lt_of_le_of_lt hi him)
    rcases Nat.eq_or_lt_of_le hi with heq | hlt
    · exact heq ▸ hp
    · exact UInt8.lt_trans hp (h _ i hlt him)

/-- A new byte and bytes of the array lie on both sides of 128, and the signed
comparison takes them for ordered the other way round. -/
def AcrossSign (keys : Nat → UInt8) (m : Nat) (c : UInt8) : Prop :=
  (c < 128 ∧ (∀ i < m, keys i < 128 → keys i < c) ∧ ∃ i < m, 128 ≤ keys i) ∨
    (128 ≤ c ∧ ∃ i < m, keys i < 128)

/-- What `_mm_cmplt_epi8` compares. -/
theorem byteLt_sse2 (c k : UInt8) : byteLt .sse2 c k = true ↔
    (c < 128 ∧ k < 128 ∧ c < k) ∨ (128 ≤ c ∧ (k < 128 ∨ c < k)) := by
  have hsign : ∀ x : UInt8, x.toInt8.toInt = if 2 * x.toNat < 256 then (x.toNat : Int)
      else (x.toNat : Int) - 256 := fun x => BitVec.toInt_eq_toNat_cond x.toBitVec
  have hc := c.toNat_lt
  have hk := k.toNat_lt
  simp only [byteLt, decide_eq_true_eq, Int8.lt_iff_toInt_lt, hsign, UInt8.lt_iff_toNat_lt,
    UInt8.le_iff_toNat_le, UInt8.reduceToNat]
  split <;> split <;> omega

/-- **The signed scan finds where a new byte belongs**, unless it lies across
the sign from bytes of the array. -/
theorem signed_position_iff {m : Nat} {c : UInt8} (h : Increasing keys m)
    (hfresh : ∀ i < m, keys i ≠ c) :
    ((∀ i < firstIndex m (fun i => byteLt .sse2 c (keys i)), keys i < c) ∧
      ∀ i, firstIndex m (fun i => byteLt .sse2 c (keys i)) ≤ i → i < m → c < keys i) ↔
      ¬ AcrossSign keys m c := by
  constructor
  · rintro ⟨hbelow, habove⟩ (⟨hc, hall, i, hi, hk⟩ | ⟨hc, i, hi, hk⟩)
    · -- no byte is above `c`, and the scan runs to the end
      have hend : firstIndex m (fun i => byteLt .sse2 c (keys i)) = m := by
        refine firstIndex_eq (Nat.le_refl m) (fun j hj => ?_) fun h => absurd h (Nat.lt_irrefl m)
        rw [Bool.eq_false_iff, Ne, byteLt_sse2]
        have := hall j hj
        simp only [UInt8.lt_iff_toNat_lt, UInt8.le_iff_toNat_le, UInt8.reduceToNat] at this hc ⊢
        omega
      have := hbelow i (hend.symm ▸ hi)
      simp only [UInt8.lt_iff_toNat_lt, UInt8.le_iff_toNat_le, UInt8.reduceToNat] at this hc hk
      omega
    · have hle : firstIndex m (fun i => byteLt .sse2 c (keys i)) ≤ i := by
        by_contra hgt
        have := firstIndex_not (Nat.lt_of_not_le hgt)
        rw [(byteLt_sse2 c (keys i)).mpr (.inr ⟨hc, .inl hk⟩)] at this
        cases this
      have := habove i hle hi
      simp only [UInt8.lt_iff_toNat_lt, UInt8.le_iff_toNat_le, UInt8.reduceToNat] at this hc hk
      omega
  · intro hno
    obtain ⟨hbelow, habove⟩ := unsigned_position h hfresh
    have heq : firstIndex m (fun i => byteLt .sse2 c (keys i)) =
        firstIndex m fun i => decide (c < keys i) := by
      refine firstIndex_eq (firstIndex_le _ _) (fun i hi => ?_) fun hlt => ?_
      · have him : i < m := Nat.lt_of_lt_of_le hi (firstIndex_le _ _)
        have hk := hbelow i hi
        rw [Bool.eq_false_iff, Ne, byteLt_sse2]
        rintro (⟨-, -, hck⟩ | ⟨hc, hk' | hck⟩)
        · exact UInt8.lt_irrefl c (UInt8.lt_trans hck hk)
        · exact hno (.inr ⟨hc, i, him, hk'⟩)
        · exact UInt8.lt_irrefl c (UInt8.lt_trans hck hk)
      · set u := firstIndex m fun i => decide (c < keys i) with hu
        have hcu : c < keys u := habove u (Nat.le_refl u) hlt
        rw [byteLt_sse2]
        by_cases hc : c < 128
        · refine .inl ⟨hc, ?_, hcu⟩
          by_contra hk
          refine hno (.inl ⟨hc, fun i hi hki => ?_, u, hlt, UInt8.not_lt.mp hk⟩)
          -- behind `u` the bytes are larger still
          rcases Nat.lt_trichotomy i u with hiu | rfl | hiu
          · exact hbelow i hiu
          · exact absurd hki hk
          · exact absurd (UInt8.lt_trans (h u i hiu hi) hki) hk
        · exact .inr ⟨UInt8.not_lt.mp hc, .inr hcu⟩
    rw [heq]
    exact ⟨hbelow, habove⟩

/-- Where `add_child16` puts a byte on the wrong side: the SSE2 build, in a
NODE16 with room or one that replaces a full NODE4. -/
def Misplaces (build : Build) (n : Header) (keys : Nat → UInt8) (c : UInt8) : Prop :=
  build = .sse2 ∧
    (n.type = .node16 ∧ n.numChildren < 16 ∨ n.type = .node4 ∧ ¬ n.numChildren < 4) ∧
    AcrossSign keys n.numChildren.toNat c

variable {c : UInt8} {child : ArtNode V}

theorem AcrossSign.congr {keys' : Nat → UInt8} {m : Nat} (heq : ∀ i < m, keys' i = keys i) :
    AcrossSign keys' m c ↔ AcrossSign keys m c := by
  refine or_congr (and_congr_right fun _ => and_congr ?_ ?_) (and_congr_right fun _ => ?_)
  · exact forall₂_congr fun i hi => by rw [heq i hi]
  · exact exists_congr fun i => and_congr_right fun hi => by rw [heq i hi]
  · exact exists_congr fun i => and_congr_right fun hi => by rw [heq i hi]

theorem ascends_insertChild_iff (ht : n.type.Keyed) (hroom : n.numChildren.toNat < 255) {idx : Nat} :
    Ascends (insertChild n keys children idx c child) ↔
      Increasing (insertAt keys idx c n.numChildren.toNat) (n.numChildren.toNat + 1) := by
  rw [insertChild, ascends_keyed_iff (n := { n with numChildren := n.numChildren + 1 }) ht,
    toNat_add_one hroom]

theorem ascends_addChild16_iff (build : Build) (ht : n.type = .node16) (hroom : n.numChildren < 16)
    (hinc : Increasing keys n.numChildren.toNat) (hfresh : ∀ i < n.numChildren.toNat, keys i ≠ c) :
    Ascends (addChild16 build n keys children c child) ↔
      ¬ (build = .sse2 ∧ AcrossSign keys n.numChildren.toNat c) := by
  have hlt : n.numChildren.toNat < 255 := by
    have : n.numChildren.toNat < 16 := UInt8.lt_iff_toNat_lt.mp hroom
    omega
  rw [addChild16, if_pos hroom, ascends_insertChild_iff (.inr ht) hlt,
    increasing_insertAt_iff hinc (firstIndex_le _ _)]
  cases build with
  | sse2 => simpa using signed_position_iff hinc hfresh
  | portable =>
      refine iff_of_true ?_ (by simp)
      exact unsigned_position hinc hfresh

/-- The node that `add_child48` leaves is walked byte by byte. -/
theorem ascends_addChild48 (ht : n.type = .node48) (hl : Layout n keys children)
    (hc : childAt n keys children c = none) (hx : child.isNull = false) :
    Ascends (addChild48 n keys children c child) := by
  obtain ⟨n', keys', children', heq, hl', -⟩ := addChild48_denotes ht hl hc hx
  rw [heq]
  refine ascends_of_not_keyed hl'.toMatching ?_
  rw [addChild48] at heq
  split at heq
  · obtain ⟨rfl, -, -⟩ := ArtNode.node.inj heq
    rintro (h | h) <;> exact absurd (h.symm.trans ht) (by decide)
  · rw [addChild256] at heq
    obtain ⟨rfl, -, -⟩ := ArtNode.node.inj heq
    rintro (h | h) <;> cases h

/-- A node with parallel arrays that has no room is full. -/
theorem numChildren_of_full (hm : Matching n keys children) (ht : n.type.Keyed)
    (hfull : n.type.capacity ≤ n.numChildren.toNat) : n.numChildren.toNat = n.type.capacity :=
  Nat.le_antisymm (numChildren_le_of_keyed ht hm) hfull

/-- A full NODE4 is copied into a NODE16 first. -/
theorem ascends_grow16_iff (build : Build) (hnum : n.numChildren.toNat = 4)
    (hinc : Increasing keys n.numChildren.toNat) (hfresh : ∀ i < n.numChildren.toNat, keys i ≠ c) :
    Ascends (addChild16 build (copyHeader .node16 n)
      (memmove (fun _ => 0) 0 keys 0 n.numChildren.toNat)
      (memmove (fun _ => .null) 0 children 0 n.numChildren.toNat) c child) ↔
      ¬ (build = .sse2 ∧ AcrossSign keys n.numChildren.toNat c) := by
  have hcopy : ∀ i < n.numChildren.toNat,
      memmove (fun _ => 0) 0 keys 0 n.numChildren.toNat i = keys i :=
    fun i hi => memmove_front _ _ hi
  have hroom : (copyHeader .node16 n).numChildren < 16 := by
    rw [copyHeader_numChildren, UInt8.lt_iff_toNat_lt, hnum]
    decide
  have hfresh' : ∀ i < n.numChildren.toNat,
      memmove (fun _ => 0) 0 keys 0 n.numChildren.toNat i ≠ c := by
    intro i hi
    rw [hcopy i hi]
    exact hfresh i hi
  rw [ascends_addChild16_iff build (copyHeader_type ..) hroom (hinc.congr hcopy) hfresh',
    copyHeader_numChildren, AcrossSign.congr hcopy]

/-- **`add_child` keeps the order** if and only if it does not misplace the byte. -/
theorem ascends_addChild_iff (build : Build) (hl : Layout n keys children)
    (hs : Ascends (.node n keys children)) (hc : childAt n keys children c = none)
    (hx : child.isNull = false) :
    Ascends (addChild build n keys children c child) ↔ ¬ Misplaces build n keys c := by
  have hfresh : n.type.Keyed → ∀ i < n.numChildren.toNat, keys i ≠ c := fun ht i hi hk =>
    hl.childAt_eq_none_iff.mp hc i ((slot_keyed ht).mpr ⟨hi, hk⟩)
  cases ht : n.type with
  | node4 =>
      have hkeyed : n.type.Keyed := .inl ht
      have hinc := (ascends_keyed_iff hkeyed).mp hs
      by_cases hroom : n.numChildren < 4
      · have hlt : n.numChildren.toNat < 4 := UInt8.lt_iff_toNat_lt.mp hroom
        simp only [addChild, ht]
        rw [addChild4, if_pos hroom, ascends_insertChild_iff hkeyed (by omega),
          increasing_insertAt_iff hinc (firstIndex_le _ _)]
        refine iff_of_true (unsigned_position hinc (hfresh hkeyed)) ?_
        simp [Misplaces, ht, hroom]
      · have hge : ¬ n.numChildren.toNat < 4 := fun h => hroom (UInt8.lt_iff_toNat_lt.mpr h)
        have hnum := numChildren_of_full hl.toMatching hkeyed
          (by rw [ht]; exact Nat.le_of_not_lt hge)
        rw [ht] at hnum
        simp only [addChild, ht]
        rw [addChild4, if_neg hroom, ascends_grow16_iff build hnum hinc (hfresh hkeyed), Misplaces]
        simp [ht, hroom]
  | node16 =>
      have hkeyed : n.type.Keyed := .inr ht
      have hinc := (ascends_keyed_iff hkeyed).mp hs
      simp only [addChild, ht]
      by_cases hroom : n.numChildren < 16
      · rw [ascends_addChild16_iff build ht hroom hinc (hfresh hkeyed), Misplaces]
        simp [ht, hroom]
      · have hge : ¬ n.numChildren.toNat < 16 := fun h => hroom (UInt8.lt_iff_toNat_lt.mpr h)
        have hfull := numChildren_of_full hl.toMatching hkeyed
          (by rw [ht]; exact Nat.le_of_not_lt hge)
        rw [ht] at hfull
        have hnum : n.numChildren = 16 := UInt8.toNat_inj.mp hfull
        obtain ⟨hl', hmap⟩ := grow48_layout ht hl hnum
        rw [addChild16, if_neg hroom]
        refine iff_of_true (ascends_addChild48 (copyHeader_type ..) hl' (by rwa [hmap]) hx) ?_
        simp [Misplaces, ht, hroom]
  | node48 =>
      simp only [addChild, ht]
      refine iff_of_true (ascends_addChild48 ht hl hc hx) ?_
      simp [Misplaces, ht]
  | node256 =>
      obtain ⟨n', keys', children', heq, hl', -⟩ := addChild256_denotes ht hl hc hx
      simp only [addChild, ht]
      refine iff_of_true ?_ (by simp [Misplaces, ht])
      rw [heq]
      refine ascends_of_not_keyed hl'.toMatching ?_
      rw [addChild256] at heq
      obtain ⟨rfl, -, -⟩ := ArtNode.node.inj heq
      rintro (h | h) <;> exact absurd (h.symm.trans ht) (by decide)

/-! ## removing a child -/

/-- The array without one of its bytes. -/
theorem increasing_eraseAt {m : Nat} (h : Increasing keys m) (pos : Nat) :
    Increasing (eraseAt keys pos m) (m - 1) := by
  intro i j hij hj
  by_cases hjp : j < pos
  · rw [eraseAt_lt keys hjp, eraseAt_lt keys (by omega)]
    exact h i j hij (by omega)
  · rw [eraseAt_ge keys (i := j) (by omega) (by omega)]
    by_cases hip : i < pos
    · rw [eraseAt_lt keys hip]
      exact h i (j + 1) (by omega) (by omega)
    · rw [eraseAt_ge keys (by omega) (by omega)]
      exact h (i + 1) (j + 1) (by omega) (by omega)

/-- A list of bytes in order, as an array. -/
theorem increasing_of_pairwise {kept : List Nat} (h : kept.Pairwise (· < ·))
    (hlt : ∀ k ∈ kept, k < 256) :
    Increasing (fun child => (kept[child]?).elim 0 UInt8.ofNat) kept.length := by
  intro i j hij hj
  have hi : i < kept.length := by omega
  simp only [List.getElem?_eq_getElem hj, List.getElem?_eq_getElem hi, Option.elim_some]
  rw [UInt8.lt_iff_toNat_lt, toNat_ofNat_of_lt (hlt _ (List.getElem_mem hi)),
    toNat_ofNat_of_lt (hlt _ (List.getElem_mem hj))]
  exact List.pairwise_iff_getElem.mp h i j hi hj hij

/-- **`remove_child` keeps the order**, whatever layout it leaves. -/
theorem ascends_removeChild {pos : Nat} {b : UInt8} (hl : Layout n keys children)
    (hpos : Slot n keys children b pos) (htwo : 2 ≤ degree n keys children)
    (hmany : n.type = .node4 → degree n keys children ≠ 2)
    (hs : Ascends (.node n keys children)) : Ascends (removeChild n keys children b pos) := by
  obtain ⟨n', keys', children', heq, hl', -⟩ := removeChild_denotes hl hpos htwo hmany
  by_cases hkeyed : n'.type.Keyed
  swap
  · rw [heq]
    exact ascends_of_not_keyed hl'.toMatching hkeyed
  have hcount : 1 ≤ n.numChildren.toNat → (n.numChildren - 1).toNat = n.numChildren.toNat - 1 :=
    toNat_sub_one
  rw [heq, ascends_keyed_iff hkeyed]
  cases ht : n.type with
  | node4 =>
      have hinc := (ascends_keyed_iff (.inl ht)).mp hs
      have hd : degree n keys children = n.numChildren.toNat := degree_node4 ht
      simp only [removeChild, ht, removeChild4] at heq
      split at heq
      · next h1 =>
          have := congrArg UInt8.toNat h1
          rw [hcount (by omega)] at this
          exact absurd (show degree n keys children = 2 by simp at this; omega) (hmany ht)
      · obtain ⟨rfl, rfl, -⟩ := ArtNode.node.inj heq
        show Increasing _ (n.numChildren - 1).toNat
        rw [hcount (by omega)]
        exact increasing_eraseAt hinc pos
  | node16 =>
      have hinc := (ascends_keyed_iff (.inr ht)).mp hs
      have hd : degree n keys children = n.numChildren.toNat := degree_node16 ht
      have herase := increasing_eraseAt hinc pos
      simp only [removeChild, ht, removeChild16] at heq
      split at heq
      · next h3 =>
          obtain ⟨rfl, rfl, -⟩ := ArtNode.node.inj heq
          have hnum : (n.numChildren - 1).toNat = 3 := by rw [h3]; rfl
          show Increasing _ (n.numChildren - 1).toNat
          rw [← hcount (by omega), hnum] at herase
          rw [hnum]
          exact herase.congr fun i hi => memmove_front _ _ (by omega)
      · obtain ⟨rfl, rfl, -⟩ := ArtNode.node.inj heq
        show Increasing _ (n.numChildren - 1).toNat
        rw [hcount (by omega)]
        exact herase
  | node48 =>
      have he := (removeChild48_tidy ht hl.toTidy hpos).1
      have hle := degree_le_of_node48 (n := { n with numChildren := n.numChildren - 1 }) ht
        he.toMatching
      have hcount48 := he.count
      rw [degree, childOrder] at hle hcount48
      simp only [removeChild, ht, removeChild48] at heq
      simp only [ht, List.length_map] at hle hcount48
      split at heq
      · -- the NODE16 lists the bytes of the key map in order
        next h12 =>
          obtain ⟨rfl, rfl, -⟩ := ArtNode.node.inj heq
          have hnum : (n.numChildren - 1).toNat = 12 := by rw [h12]; rfl
          show Increasing _ (n.numChildren - 1).toNat
          rw [hcount48, Nat.mod_eq_of_lt (by omega)]
          refine increasing_of_pairwise (List.pairwise_lt_range.filter _) fun k hk => ?_
          exact List.mem_range.mp (List.mem_filter.mp hk).1
      · obtain ⟨rfl, -, -⟩ := ArtNode.node.inj heq
        rcases hkeyed with h | h <;> cases h
  | node256 =>
      simp only [removeChild, ht, removeChild256] at heq
      split at heq
      · obtain ⟨rfl, -, -⟩ := ArtNode.node.inj heq
        rcases hkeyed with h | h <;> cases h
      · obtain ⟨rfl, -, -⟩ := ArtNode.node.inj heq
        rcases hkeyed with h | h <;> cases h

/-! ## updates below a node -/

section Node

variable {path : List UInt8} {d : List UInt8} (hl : Layout n keys children)
  (htwo : 2 ≤ degree n keys children) (hlen : d.length = n.partialLen)
  (hstored : n.stored = d.take maxPrefixLen)
  (hchild : ∀ b i, Slot n keys children b i → WF (path ++ d ++ [b]) (children i)) {b : UInt8}
include hl htwo hlen hstored hchild

/-- Replacing a child leaves the order of the slots. -/
theorem sorted_replace_iff {i : Nat} (hi : Slot n keys children b i) {x : ArtNode V}
    (hx : WF (path ++ d ++ [b]) x) (hs : Sorted (.node n keys children)) :
    Sorted (.node n keys (Function.update children i x)) ↔ Sorted x := by
  obtain ⟨hl', hmap⟩ := hl.replace hi hx.isNull
  obtain ⟨hwf, -⟩ := WF.replaceChild hl htwo hlen hstored hchild hi hx
  obtain ⟨hascends, hsub⟩ := (sorted_node_iff hl hchild).mp hs
  have hnull := isNull_update (hx.isNull.trans (hl.full hi).symm)
  have hslot := slot_congr n keys hnull
  have hkeep : Ascends (.node n keys (Function.update children i x)) := by
    rw [Ascends, childOrder_congr hnull]
    exact hascends.imp fun h b b' hb hb' => h b b' ((hslot _ _).mp hb) ((hslot _ _).mp hb')
  rw [hwf.sorted_iff_of_denotes hl'.denotes, hmap]
  constructor
  · exact fun h => h.2 b x (Function.update_self ..)
  · intro hsx
    exact ⟨hkeep, hl.forall_update (fun _ h => by cases h; exact hsx) hsub⟩

/-- Adding a leaf leaves the node sorted unless its byte is misplaced. -/
theorem sorted_addChild_iff (build : Build) (hb : childAt n keys children b = none)
    {key : List UInt8} (hkey : path ++ d ++ [b] <+: key) (v : Option V)
    (hs : Sorted (.node n keys children)) :
    Sorted (addChild build n keys children b (.leaf (makeLeaf key v))) ↔
      ¬ Misplaces build n keys b := by
  obtain ⟨hascends, hsub⟩ := (sorted_node_iff hl hchild).mp hs
  obtain ⟨hwf, -⟩ := WF.graftLeaf build hl htwo hlen hstored hchild hb hkey v
  rw [hwf.sorted_iff_of_denotes (addChild_denotes build hl hb rfl),
    ascends_addChild_iff build hl hascends hb rfl, and_iff_left]
  exact hl.forall_update (fun _ h => by cases h; exact sorted_leaf _) hsub

/-- Removing a child leaves the node sorted, also where it collapses. -/
theorem sorted_removeChild {pos : Nat} (hpos : Slot n keys children b pos)
    (hs : Sorted (.node n keys children)) : Sorted (removeChild n keys children b pos) := by
  obtain ⟨hascends, hsub⟩ := (sorted_node_iff hl hchild).mp hs
  by_cases hmany : n.type = .node4 ∧ degree n keys children = 2
  · obtain ⟨ht, h2⟩ := hmany
    obtain ⟨b', i, hi, hne, -⟩ := exists_other_slot hl hpos h2
    obtain ⟨-, hentries⟩ := absorb_wf hlen hstored (hchild b' i hi)
    rw [removeChild_of_two ht hl hpos hi hne h2, Sorted, hentries]
    exact hsub b' i hi
  · have hmany' : n.type = .node4 → degree n keys children ≠ 2 := fun ht h2 => hmany ⟨ht, h2⟩
    obtain ⟨hwf, -⟩ := removeChild_wf hl htwo hlen hstored hchild hpos
    rw [hwf.sorted_iff_of_denotes (removeChild_denotes hl hpos htwo hmany')]
    exact ⟨ascends_removeChild hl hpos htwo hmany' hascends,
      hl.forall_update (fun _ h => by cases h) hsub⟩

end Node

/-- A fresh NODE4 over two sorted subtrees is sorted. -/
theorem IsPair.sorted {build : Build} {path : List UInt8} {x₁ x₂ x : ArtNode V}
    (h : IsPair build x₁ x₂ x) (hwf : WF path x) (hn₁ : x₁.isNull = false)
    (hn₂ : x₂.isNull = false) (h₁ : Sorted x₁) (h₂ : Sorted x₂) : Sorted x := by
  obtain ⟨n, a, b, ht, hz, hab, rfl⟩ := h
  rw [hwf.sorted_iff_of_denotes (pairNode_denotes build ht hz hab hn₁ hn₂)]
  constructor
  · obtain ⟨n', ks, ch, hadd, ht', hnum, hl', -, -, hmap⟩ := addChild4_fresh build ht hz a hn₁
    have hone : Ascends (.node n' ks ch) := by
      rw [ascends_keyed_iff (.inl ht'), hnum]
      intro i j hij hj
      have : j < 1 := hj
      omega
    have hb : childAt n' ks ch b = none := by rw [hmap, Function.update_of_ne hab.symm]
    have hplace : ¬ Misplaces build n' ks b := by simp [Misplaces, ht', hnum]
    have := (ascends_addChild_iff build hl' hone hb hn₂).mpr hplace
    simp only [addChild, ht'] at this
    rwa [pairNode, hadd]
  · intro b' y hb'
    by_cases hb : b' = b
    · subst hb
      rw [Function.update_self] at hb'
      cases hb'
      exact h₂
    · rw [Function.update_of_ne hb] at hb'
      by_cases ha : b' = a
      · subst ha
        rw [Function.update_self] at hb'
        cases hb'
        exact h₁
      · rw [Function.update_of_ne ha] at hb'
        cases hb'

/-! ## inserts and removals -/

/-- The insert of `key` adds a leaf to a node at a byte that is misplaced: the
descent comes to the node through compressed paths that agree with the key, and
the node has no slot for the next byte. -/
def InsertMisplaces (build : Build) (key : List UInt8) : ArtNode V → (depth : Nat) → Prop
  | .null, _ => False
  | .leaf _, _ => False
  | .node n keys children, depth =>
      (∀ e ∈ entries (.node n keys children), e.1.take (depth + n.partialLen) <+: key) ∧
        ∃ b, key[depth + n.partialLen]? = some b ∧
          ((∀ i, ¬ Slot n keys children b i) ∧ Misplaces build n keys b ∨
            ∃ i, Slot n keys children b i ∧
              InsertMisplaces build key (children i) (depth + n.partialLen + 1))

/-- The portable build misplaces nothing. -/
theorem not_insertMisplaces_portable (key : List UInt8) (x : ArtNode V) (depth : Nat) :
    ¬ InsertMisplaces .portable key x depth := by
  induction x generalizing depth with
  | null => exact id
  | leaf l => exact id
  | node n keys children ih =>
      rintro ⟨-, b, -, ⟨-, hmis⟩ | ⟨i, -, hrec⟩⟩
      · cases hmis.1
      · exact ih i _ hrec

/-- What the paths and the next byte say where the key goes on below a node. -/
theorem insertMisplaces_node_iff (build : Build) {path d key : List UInt8} {b : UInt8}
    (hlen : d.length = n.partialLen)
    (hpaths : ∀ e ∈ entries (.node n keys children), path ++ d <+: e.1)
    (hbk : path ++ d ++ [b] <+: key) :
    InsertMisplaces build key (.node n keys children) path.length ↔
      ((∀ i, ¬ Slot n keys children b i) ∧ Misplaces build n keys b ∨
        ∃ i, Slot n keys children b i ∧
          InsertMisplaces build key (children i) (path ++ d ++ [b]).length) := by
  have hkb : key[path.length + n.partialLen]? = some b := hlen ▸ getElem?_below_slot hbk
  have hpath : ∀ e ∈ entries (.node n keys children),
      e.1.take (path.length + n.partialLen) <+: key := by
    intro e he
    have htake := List.prefix_iff_eq_take.mp (hpaths e he)
    rw [List.length_append, hlen] at htake
    rw [← htake]
    exact (List.prefix_append _ _).trans hbk
  rw [InsertMisplaces, List.length_append, List.length_append, List.length_singleton, hlen]
  constructor
  · rintro ⟨-, b', hb', h⟩
    rw [hkb] at hb'
    obtain rfl := Option.some.inj hb'
    exact h
  · exact fun h => ⟨hpath, b, hkb, h⟩

/-- **`recursive_insert` keeps a subtree sorted** if and only if it misplaces
no byte. -/
theorem recursiveInsert_sorted_iff (past : Past) (build : Build) {path key : List UInt8}
    {x : ArtNode V} (h : WF path x) (hpk : path <+: key)
    (hkey : ∀ e ∈ entries x, e.1 = key ∨ Incomparable e.1 key) (value : Option V)
    (hs : Sorted x) {x' : ArtNode V} {r : Option V × Bool}
    (hrun : recursiveInsert past build key value x path.length = .ok (x', r)) :
    Sorted x' ↔ ¬ InsertMisplaces build key x path.length := by
  induction h generalizing x' r with
  | @leaf path l hlen hpath =>
      refine iff_of_true ?_ id
      rw [recursiveInsert, leafMatches_eq past hlen] at hrun
      by_cases heq : l.bytes = key
      · simp only [bind, Except.bind, heq, decide_true, if_true] at hrun
        cases hrun
        exact sorted_leaf _
      · have hinc : Incomparable l.bytes key := (hkey l.entry (by simp)).resolve_left heq
        obtain ⟨x, hx, hwf, -, hpair⟩ :=
          splitLeaf_spec past build (.leaf hlen hpath) hpk hinc value
        simp only [bind, Except.bind, heq, decide_false, Bool.false_eq_true, if_false,
          longestCommonPrefix_eq past hlen, hx] at hrun
        cases hrun
        exact hpair.sorted hwf rfl rfl (sorted_leaf _) (sorted_leaf _)
  | @node path n keys children c hl htwo hlen hstored hchild ih =>
      have hwf : WF path (.node n keys children) := .node c hl htwo hlen hstored hchild
      have hpaths := WF.compressed hl hchild
      rw [recursiveInsert, pathDiff_eq past hlen hstored hwf hpaths hpk] at hrun
      by_cases hc : path ++ c <+: key
      · obtain ⟨b, hb⟩ := exists_slot_byte hwf.entries_ne_nil (WF.through_slot hl hchild) hkey hc
        obtain ⟨-, -, hread⟩ := below_slot hb
        rw [if_pos hc, ← hlen, hread] at hrun
        rw [insertMisplaces_node_iff build hlen hpaths hb]
        cases hf : findChild n keys children b with
        | some i =>
            have hi := hl.findChild_eq_some_iff.mp hf
            have hsub : ∀ e ∈ entries (children i), e.1 = key ∨ Incomparable e.1 key :=
              fun e he => hkey e ((mem_entries_node hl.toMatching).mpr ⟨b, i, hi, he⟩)
            obtain ⟨x, old, oldVal, hx, hxwf, -, -⟩ :=
              recursiveInsert_spec past build (hchild b i hi) hb hsub value
            have hrec := ih b i hi hb hsub (((sorted_node_iff hl hchild).mp hs).2 b i hi) hx
            rw [List.length_append, List.length_append, List.length_singleton] at hx
            simp only [bind, Except.bind, hf, hx] at hrun
            cases hrun
            rw [sorted_replace_iff hl htwo hlen hstored hchild hi hxwf hs, hrec]
            refine not_congr ⟨fun h => .inr ⟨i, hi, h⟩, ?_⟩
            rintro (⟨hno, -⟩ | ⟨j, hj, h⟩)
            · exact absurd hi (hno i)
            · rwa [hl.slot hi hj]
        | none =>
            have hnone : childAt n keys children b = none := by rw [childAt, hf]; rfl
            have hno := hl.childAt_eq_none_iff.mp hnone
            simp only [bind, Except.bind, hf] at hrun
            cases hrun
            rw [sorted_addChild_iff hl htwo hlen hstored hchild build hnone hb value hs]
            refine not_congr ⟨fun h => .inl ⟨hno, h⟩, ?_⟩
            rintro (⟨-, h⟩ | ⟨j, hj, -⟩)
            · exact h
            · exact absurd hj (hno j)
      · have hinc := incomparable_of_not_path hwf.entries_ne_nil hpaths hkey hc
        obtain ⟨x, hx, hwf', -, m, hmt, hmc, hpair⟩ :=
          splitPath_spec past build hl htwo hlen hstored hchild hpk hinc value
        simp only [if_neg hc, bind, Except.bind, hx] at hrun
        cases hrun
        have hsm : Sorted (.node m keys children) := by
          have horder : childOrder m keys children = childOrder n keys children := by
            unfold childOrder
            rw [hmt, hmc]
          rw [Sorted, entries, leaves, horder]
          exact hs
        refine iff_of_true (hpair.sorted hwf' rfl rfl hsm (sorted_leaf _)) fun hmis => hc ?_
        obtain ⟨e, he⟩ := List.exists_mem_of_ne_nil _ hwf.entries_ne_nil
        have htake := List.prefix_iff_eq_take.mp (hpaths e he)
        have := hmis.1 e he
        rw [List.length_append, hlen] at htake
        rwa [← htake] at this

/-- **`recursive_delete` keeps a subtree sorted.** -/
theorem recursiveDelete_sorted (past : Past) {path key : List UInt8} {x : ArtNode V}
    (h : WF path x) {v : Option V} (hv : (key, v) ∈ entries x) (hs : Sorted x) {x' : ArtNode V}
    {r : Option (ArtLeaf V)} (hrun : recursiveDelete past key x path.length = .ok (x', r)) :
    Sorted x' := by
  induction h generalizing x' r with
  | @leaf path l hlen hpath =>
      rw [recursiveDelete, leafMatches_eq past hlen] at hrun
      simp only [bind, Except.bind] at hrun
      split at hrun
      · cases hrun
        exact sorted_null
      · cases hrun
        exact sorted_leaf l
  | @node path n keys children c hl htwo hlen hstored hchild ih =>
      obtain ⟨b, i, hi, hex⟩ := (mem_entries_node hl.toMatching).mp hv
      have hbk := (hchild b i hi).starts_with _ hex
      by_cases hleaf : ∃ l, children i = .leaf l
      · obtain ⟨l, hcl⟩ := hleaf
        have hwf := hchild b i hi
        rw [hcl] at hwf hex
        cases hwf with
        | leaf hbuf hpath =>
            have hk : l.bytes = key := congrArg Prod.fst (List.mem_singleton.mp hex).symm
            rw [recursiveDelete_leaf_slot past hl hlen hstored hi hbk hcl hbuf hk] at hrun
            cases hrun
            exact sorted_removeChild hl htwo hlen hstored hchild hi hs
      · have hnl : ∀ l, children i ≠ .leaf l := fun l hl => hleaf ⟨l, hl⟩
        obtain ⟨y, l, hy, -, -, hcase⟩ := recursiveDelete_present past (hchild b i hi) hex
        have hwfy : WF (path ++ c ++ [b]) y := by
          rcases hcase with ⟨-, l, hl'⟩ | hwfy
          · exact absurd hl' (hnl l)
          · exact hwfy
        rw [recursiveDelete_inner_slot past hl hlen hstored hi hbk hnl hy] at hrun
        cases hrun
        refine (sorted_replace_iff hl htwo hlen hstored hchild hi hwfy hs).mpr ?_
        exact ih b i hi hex (((sorted_node_iff hl hchild).mp hs).2 b i hi) hy

end LightQuery
