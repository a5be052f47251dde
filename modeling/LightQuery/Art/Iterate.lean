import LightQuery.Art.Search

/-!
# LightQuery.Art.Iterate

`art_iter`, `art_minimum` and `art_maximum`.

The three walk the children in the order of the arrays: the iteration hands
every entry to its callback until that returns nonzero (`artIter_eq`), and the
other two return the first and the last leaf of the same walk.
-/

namespace LightQuery

open CArray

variable {V σ : Type} {n : Header} {keys : Nat → UInt8} {children : Nat → ArtNode V}

/-- `art_callback`: the result, nonzero to stop, and `*data` after the call. -/
abbrev ArtCallback (V σ : Type) := σ → List UInt8 → Option V → Int × σ

/-- `recursive_iter`: the result, and `*data` afterwards. -/
def recursiveIter (cb : ArtCallback V σ) : ArtNode V → σ → Int × σ
  | .null, data => (0, data)
  | .leaf l, data => cb data l.bytes l.value
  | .node n keys children, data =>
      (childOrder n keys children).foldl
        (fun r i => if r.1 ≠ 0 then r else recursiveIter cb (children i) r.2) (0, data)

/-- `art_iter`. -/
def artIter (cb : ArtCallback V σ) (t : ArtTree V) (data : σ) : Int × σ :=
  recursiveIter cb t.root data

/-- `maximum`.  The scans of NODE48 and NODE256 count down from 255. -/
def maximum : ArtNode V → Option (ArtLeaf V)
  | .null => none
  | .leaf l => some l
  | .node n keys children =>
      match n.type with
      | .node4 | .node16 => maximum (children (n.numChildren.toNat - 1))
      | .node48 => maximum (children ((keys (lastIndex 256 fun i => keys i != 0)).toNat - 1))
      | .node256 => maximum (children (lastIndex 256 fun i => !(children i).isNull))

/-- `art_minimum`. -/
def artMinimum (t : ArtTree V) : Option (ArtLeaf V) := minimum t.root

/-- `art_maximum`. -/
def artMaximum (t : ArtTree V) : Option (ArtLeaf V) := maximum t.root

/-! ## the iteration -/

/-- Entries are handed to a callback one after the other, until it returns
nonzero. -/
def feed (cb : ArtCallback V σ) (es : List (List UInt8 × Option V)) (r : Int × σ) : Int × σ :=
  es.foldl (fun r e => if r.1 ≠ 0 then r else cb r.2 e.1 e.2) r

theorem feed_of_ne (cb : ArtCallback V σ) (es : List (List UInt8 × Option V)) {r : Int × σ}
    (h : r.1 ≠ 0) : feed cb es r = r := by
  induction es with
  | nil => rfl
  | cons e es ih =>
      show feed cb es (if r.1 ≠ 0 then r else cb r.2 e.1 e.2) = r
      rw [if_pos h, ih]

theorem recursiveIter_eq (cb : ArtCallback V σ) (x : ArtNode V) (data : σ) :
    recursiveIter cb x data = feed cb (entries x) (0, data) := by
  induction x generalizing data with
  | null => rfl
  | leaf l => rfl
  | node n keys children ih =>
      rw [recursiveIter, feed, entries, leaves, List.map_flatMap, List.foldl_flatMap]
      congr 1
      funext r i
      split
      · next h => exact (feed_of_ne cb (entries (children i)) h).symm
      · next h =>
          obtain ⟨res, data⟩ := r
          have hz : res = 0 := by simpa using h
          subst hz
          exact ih i data

/-- **`art_iter` hands the entries to its callback**, until that returns nonzero. -/
theorem artIter_eq (cb : ArtCallback V σ) (t : ArtTree V) (data : σ) :
    artIter cb t data = feed cb (entries t.root) (0, data) :=
  recursiveIter_eq cb t.root data

/-- The callback that keeps what it is given and never stops. -/
def record : ArtCallback V (List (List UInt8 × Option V)) :=
  fun data key value => (0, data ++ [(key, value)])

theorem feed_record (es acc : List (List UInt8 × Option V)) :
    feed record es (0, acc) = (0, acc ++ es) := by
  induction es generalizing acc with
  | nil => simp [feed]
  | cons e es ih =>
      have hstep : feed record (e :: es) (0, acc) = feed record es (0, acc ++ [e]) := rfl
      rw [hstep, ih, List.append_assoc]
      rfl

/-! ## the first and the last leaf -/

theorem exists_slot_of_degree (htwo : 2 ≤ degree n keys children) :
    ∃ i b, Slot n keys children b i := by
  obtain ⟨i, hi⟩ := List.exists_mem_of_length_pos (l := childOrder n keys children)
    (by show 0 < degree n keys children; omega)
  obtain ⟨b, hb⟩ := mem_childOrder.mp hi
  exact ⟨i, b, hb⟩

/-- `minimum` goes to the first child of the walk. -/
theorem minimum_node_head (htwo : 2 ≤ degree n keys children) :
    ∃ i, (childOrder n keys children).head? = some i ∧
      minimum (.node n keys children) = minimum (children i) := by
  obtain ⟨i, b, hs⟩ := exists_slot_of_degree htwo
  cases ht : n.type with
  | node4 =>
      rw [degree_node4 ht] at htwo
      exact ⟨0, by simp [childOrder, ht, List.head?_range]; omega, by simp [minimum, ht]⟩
  | node16 =>
      rw [degree_node16 ht] at htwo
      exact ⟨0, by simp [childOrder, ht, List.head?_range]; omega, by simp [minimum, ht]⟩
  | node48 =>
      have hex : ∃ i < 256, (fun i => keys i != 0) i = true :=
        ⟨b.toNat, b.toNat_lt, by simpa using ((slot_node48 ht).mp hs).1⟩
      refine ⟨_, ?_, by simp [minimum, ht]; rfl⟩
      simp [childOrder, ht, head?_filter_range hex]
  | node256 =>
      have hex : ∃ i < 256, (fun i => !(children i).isNull) i = true :=
        ⟨b.toNat, b.toNat_lt, by simpa using ((slot_node256 ht).mp hs).1⟩
      refine ⟨_, ?_, by simp [minimum, ht]; rfl⟩
      simp [childOrder, ht, head?_filter_range hex]

/-- `maximum` goes to the last one. -/
theorem maximum_node_getLast (htwo : 2 ≤ degree n keys children) :
    ∃ i, (childOrder n keys children).getLast? = some i ∧
      maximum (.node n keys children) = maximum (children i) := by
  obtain ⟨i, b, hs⟩ := exists_slot_of_degree htwo
  cases ht : n.type with
  | node4 =>
      rw [degree_node4 ht] at htwo
      refine ⟨n.numChildren.toNat - 1, ?_, by simp [maximum, ht]⟩
      simp [childOrder, ht, List.getLast?_range]
      omega
  | node16 =>
      rw [degree_node16 ht] at htwo
      refine ⟨n.numChildren.toNat - 1, ?_, by simp [maximum, ht]⟩
      simp [childOrder, ht, List.getLast?_range]
      omega
  | node48 =>
      have hex : ∃ i < 256, (fun i => keys i != 0) i = true :=
        ⟨b.toNat, b.toNat_lt, by simpa using ((slot_node48 ht).mp hs).1⟩
      refine ⟨_, ?_, by simp [maximum, ht]; rfl⟩
      simp [childOrder, ht, getLast?_filter_range hex]
  | node256 =>
      have hex : ∃ i < 256, (fun i => !(children i).isNull) i = true :=
        ⟨b.toNat, b.toNat_lt, by simpa using ((slot_node256 ht).mp hs).1⟩
      refine ⟨_, ?_, by simp [maximum, ht]; rfl⟩
      simp [childOrder, ht, getLast?_filter_range hex]

/-- `minimum` and `maximum` return the first and the last leaf of a
well-formed subtree. -/
theorem WF.minimum_maximum {path : List UInt8} {x : ArtNode V} (h : WF path x) :
    minimum x = (leaves x).head? ∧ maximum x = (leaves x).getLast? := by
  induction h with
  | leaf hlen hpath => exact ⟨rfl, rfl⟩
  | @node path n keys children c hl htwo hlen hstored hchild ih =>
      have hleaf : ∀ {i}, i ∈ childOrder n keys children → leaves (children i) ≠ [] := by
        intro i hi hnil
        obtain ⟨b, hb⟩ := mem_childOrder.mp hi
        refine (hchild b i hb).entries_ne_nil ?_
        rw [entries, hnil]
        rfl
      constructor
      · obtain ⟨i, hi, hmin⟩ := minimum_node_head htwo
        obtain ⟨rest, hrest⟩ := List.head?_eq_some_iff.mp hi
        have hmem : i ∈ childOrder n keys children := by rw [hrest]; exact List.mem_cons_self
        obtain ⟨b, hb⟩ := mem_childOrder.mp hmem
        rw [hmin, (ih b i hb).1, leaves, hrest, List.flatMap_cons, List.head?_append]
        cases hl : leaves (children i) with
        | nil => exact absurd hl (hleaf hmem)
        | cons l ls => rfl
      · obtain ⟨i, hi, hmax⟩ := maximum_node_getLast htwo
        obtain ⟨rest, hrest⟩ := List.getLast?_eq_some_iff.mp hi
        have hmem : i ∈ childOrder n keys children := by rw [hrest]; simp
        obtain ⟨b, hb⟩ := mem_childOrder.mp hmem
        rw [hmax, (ih b i hb).2, leaves, hrest, List.flatMap_append, List.getLast?_append,
          List.flatMap_singleton]
        cases hl : (leaves (children i)).getLast? with
        | none => exact absurd (List.getLast?_eq_none_iff.mp hl) (hleaf hmem)
        | some l => rfl

/-- **`art_minimum` and `art_maximum` return the first and the last entry** of
the iteration. -/
theorem artMinimum_artMaximum_eq {t : ArtTree V} (h : t.WF) :
    (artMinimum t).map ArtLeaf.entry = (entries t.root).head? ∧
      (artMaximum t).map ArtLeaf.entry = (entries t.root).getLast? := by
  rw [artMinimum, artMaximum, entries, List.head?_map, List.getLast?_map]
  rcases h with hnull | hwf
  · rw [hnull]
    exact ⟨rfl, rfl⟩
  · rw [hwf.minimum_maximum.1, hwf.minimum_maximum.2]
    exact ⟨rfl, rfl⟩

end LightQuery
