import LightQuery.Art.Iterate
import LightQuery.Art.Ordered
import LightQuery.Index.Stored

/-!
# LightQuery.Index.Ordered

Runs of inserts and removals, and the order in which `art_iter` enumerates what
they store.

The iteration, the least and the greatest leaf are right as long as no insert
misplaces a byte (`ordered_of_run`), which only the SSE2 build does; the first
insert that does leaves a tree that is enumerated out of order.
-/

namespace LightQuery

open PrefixFamily

variable {V : Type}

/-- An insert of any value or a removal, whose terminated key is comparable to
no other key of the sequence. -/
def StoreStep (ops : List (IndexOp V)) (_ : ArtTree V) (op : IndexOp V) : Prop :=
  (∀ op' ∈ ops, op'.key = op.key ∨ Incomparable (loadKey op'.key) (loadKey op.key)) ∧
    match op with
    | .insert _ _ => True
    | .removeKey _ => True
    | .disable _ => False

/-- An insert misplaces no byte. -/
def PlacedRight (build : Build) (t : ArtTree V) : IndexOp V → Prop
  | .insert k _ => ¬ InsertMisplaces build (loadKey k) t.root 0
  | _ => True

/-- What an ordered traversal is: `art_iter` hands every stored key to its
callback once, in strictly increasing lexicographic order of unsigned bytes,
and `art_minimum` and `art_maximum` return the first and the last of them. -/
def OrderedTraversal (ops : List (IndexOp V)) (t : ArtTree V) : Prop :=
  ∃ es : List (List UInt8 × Option V),
    (∀ (σ : Type) (cb : ArtCallback V σ) (data : σ), artIter cb t data = feed cb es (0, data)) ∧
    es.Pairwise (fun e e' => e.1 < e'.1) ∧
    (∀ e, e ∈ es ↔ ∃ k, e.1 = loadKey k ∧ storedAfter ops k = some e.2) ∧
    (artMinimum t).map ArtLeaf.entry = es.head? ∧ (artMaximum t).map ArtLeaf.entry = es.getLast?

theorem Stores.orderedTraversal_iff {ops : List (IndexOp V)} {t : ArtTree V} (h : Stores ops t) :
    OrderedTraversal ops t ↔ Sorted t.root := by
  constructor
  · rintro ⟨es, hiter, hsorted, -⟩
    have hes := hiter _ record []
    rw [artIter_eq, feed_record, feed_record] at hes
    have heq : entries t.root = es := (Prod.mk.inj hes).2
    rwa [Sorted, heq]
  · intro hs
    obtain ⟨hmin, hmax⟩ := artMinimum_artMaximum_eq h.wf
    exact ⟨entries t.root, fun σ cb data => artIter_eq cb t data, hs, h.mem, hmin, hmax⟩

/-! ## one step -/

/-- The tree after an insert is what `recursive_insert` makes of its root. -/
theorem root_of_insert {past : Past} {build : Build} {t t' : ArtTree V} {k : List UInt8}
    {v : Option V} (h : RadixTreeIndex.insert past build t k v = .ok t') :
    ∃ r, recursiveInsert past build (loadKey k) v t.root 0 = .ok (t'.root, r) := by
  rw [RadixTreeIndex.insert, artInsert] at h
  cases hrec : recursiveInsert past build (loadKey k) v t.root 0 with
  | error e => rw [hrec] at h; cases h
  | ok w =>
      obtain ⟨root, old, oldVal⟩ := w
      rw [hrec] at h
      cases h
      exact ⟨_, rfl⟩

/-- The tree after a removal is what `recursive_delete` makes of its root. -/
theorem root_of_removeKey {past : Past} {t t' : ArtTree V} {k : List UInt8}
    (h : RadixTreeIndex.removeKey past t k = .ok t') :
    ∃ r, recursiveDelete past (loadKey k) t.root 0 = .ok (t'.root, r) := by
  rw [RadixTreeIndex.removeKey, artDelete] at h
  cases hrec : recursiveDelete past (loadKey k) t.root 0 with
  | error e => rw [hrec] at h; cases h
  | ok w =>
      obtain ⟨root, l⟩ := w
      rw [hrec] at h
      cases l <;> cases h <;> exact ⟨_, rfl⟩

variable {build : Build} {ops : List (IndexOp V)} {t t' : ArtTree V} {op : IndexOp V}
  {mem : Nat → UInt8}

theorem Stores.key_of_storeStep (h : Stores ops t) {k : List UInt8} {v : Option V}
    (hop : StoreStep ops t (.insert k v)) :
    ∀ e ∈ entries t.root, e.1 = loadKey k ∨ Incomparable e.1 (loadKey k) := by
  intro e he
  obtain ⟨k', hk', hv⟩ := (h.mem e).mp he
  rw [hk', loadKey_inj]
  exact hop.1 _ (exists_insert_of_storedAfter hv)

/-- What a step stores. -/
theorem Stores.storeStep (h : Stores ops t) (hop : StoreStep ops t op)
    (hexec : op.exec (Past.lenient mem) build t = .ok t') : Stores (op :: ops) t' := by
  cases op with
  | insert k v =>
      obtain ⟨t'', hrun, hst⟩ := h.insert v (h.key_of_storeStep hop) (Past.lenient mem) build
      rw [IndexOp.exec, hrun] at hexec
      cases hexec
      exact hst
  | removeKey k =>
      obtain ⟨t'', hrun, hst⟩ := h.removeKey mem k
      rw [IndexOp.exec, hrun] at hexec
      cases hexec
      exact hst
  | disable p => exact absurd hop.2 id

/-- **A step keeps the order** if and only if it places its byte right. -/
theorem sorted_storeStep_iff (h : Stores ops t) (hop : StoreStep ops t op) (hs : Sorted t.root)
    (hexec : op.exec (Past.lenient mem) build t = .ok t') :
    Sorted t'.root ↔ PlacedRight build t op := by
  cases op with
  | insert k v =>
      obtain ⟨r, hrun⟩ := root_of_insert hexec
      rcases h.wf with hnull | hwf
      · rw [hnull, recursiveInsert] at hrun
        have hroot := (Prod.mk.inj (Except.ok.inj hrun)).1
        rw [PlacedRight, hnull, ← hroot]
        exact iff_of_true (sorted_leaf _) id
      · exact recursiveInsert_sorted_iff _ build hwf List.nil_prefix (h.key_of_storeStep hop) v hs
          hrun
  | removeKey k =>
      refine iff_of_true ?_ trivial
      by_cases hk : ∃ v, (loadKey k, v) ∈ entries t.root
      · obtain ⟨v, hv⟩ := hk
        obtain ⟨r, hrun⟩ := root_of_removeKey hexec
        rcases h.wf with hnull | hwf
        · rw [hnull] at hv
          cases hv
        · exact recursiveDelete_sorted _ hwf hv hs hrun
      · have habs : ∀ e ∈ entries t.root, e.1 ≠ loadKey k := fun e he hek => hk ⟨e.2, hek ▸ he⟩
        rw [IndexOp.exec, RadixTreeIndex.removeKey, artDelete_absent mem h.wf habs] at hexec
        cases hexec
        exact hs
  | disable p => exact absurd hop.2 id

/-! ## runs -/

/-- A step that places its byte right. -/
def OrderedStep (build : Build) (ops : List (IndexOp V)) (t : ArtTree V) (op : IndexOp V) : Prop :=
  StoreStep ops t op ∧ PlacedRight build t op

theorem stores_of_run {P : List (IndexOp V) → ArtTree V → IndexOp V → Prop}
    (hP : ∀ ops t op, P ops t op → StoreStep ops t op) (h : Run build P ops t) : Stores ops t := by
  induction h with
  | init => exact .init
  | step mem h hop hexec ih => exact ih.storeStep (hP _ _ _ hop) hexec

theorem sorted_of_run (h : Run build (OrderedStep build) ops t) : Sorted t.root := by
  induction h with
  | init => exact sorted_null
  | step mem h hop hexec ih =>
      exact (sorted_storeStep_iff (stores_of_run (fun _ _ _ h => h.1) h) hop.1 ih hexec).mpr hop.2

/-- **Ordered traversal.**  In every run whose inserts misplace no byte the
traversal is ordered in every state reached, and the next call keeps it so if
and only if it misplaces no byte either. -/
theorem ordered_of_run (h : Run build (OrderedStep build) ops t) :
    OrderedTraversal ops t ∧ ∀ op, StoreStep ops t op →
      ∀ mem t', op.exec (Past.lenient mem) build t = .ok t' →
        (OrderedTraversal (op :: ops) t' ↔ PlacedRight build t op) := by
  have hst := stores_of_run (fun _ _ _ h => h.1) h
  have hs := sorted_of_run h
  refine ⟨hst.orderedTraversal_iff.mpr hs, fun op hop mem t' hexec => ?_⟩
  rw [(hst.storeStep hop hexec).orderedTraversal_iff, sorted_storeStep_iff hst hop hs hexec]

/-- Two keys, inserted against their order: the hypothesis of `ordered_of_run`
can be met. -/
theorem ordered_of_run_two_keys :
    OrderedTraversal [.insert [1] (some 20), .insert [200] (some (10 : Nat))]
      (replay (fun _ => 7) .sse2 [.insert [1] (some 20), .insert [200] (some 10)]) := by
  have h0 : Run .sse2 (OrderedStep .sse2) [] (replay (fun _ => 7) .sse2 ([] : List (IndexOp Nat))) :=
    .init
  have h1 := h0.replay_step (.insert [200] (some 10)) ⟨⟨by simp, trivial⟩, id⟩ (by decide +kernel)
  have h2 := h1.replay_step (.insert [1] (some 20))
    ⟨⟨by simp [IndexOp.key, Incomparable, loadKey], trivial⟩, id⟩ (by decide +kernel)
  exact (ordered_of_run h2).1

/-- The portable build enumerates every store in order. -/
theorem ordered_of_portable_run (h : Run .portable StoreStep ops t) : OrderedTraversal ops t := by
  have hplaced : Run .portable (OrderedStep .portable) ops t := h.mono fun ops t op hop =>
    ⟨hop, by cases op <;> first | exact not_insertMisplaces_portable _ _ _ | trivial⟩
  exact (stores_of_run (fun _ _ _ h => h) h).orderedTraversal_iff.mpr (sorted_of_run hplaced)

/-- The key [200] after the keys [1], [2], [3] and [4]: the SSE2 build puts it
first. -/
theorem traversal_out_of_order : ¬ ∀ (build : Build) (ops : List (IndexOp Nat)) (t : ArtTree Nat),
    Run build StoreStep ops t → OrderedTraversal ops t := by
  intro hall
  have hstep : ∀ (k : UInt8) (v : Nat) (ks : List (UInt8 × Nat)), (∀ kv ∈ ks, kv.1 ≠ k) → ∀ t,
      StoreStep (ks.map fun kv => .insert [kv.1] (some kv.2)) t (.insert [k] (some v)) := by
    intro k v ks hne t
    refine ⟨fun op hop => .inr ?_, trivial⟩
    obtain ⟨kv, hkv, rfl⟩ := List.mem_map.mp hop
    have := hne kv hkv
    simp [IndexOp.key, Incomparable, loadKey, this, Ne.symm this]
  have h0 : Run .sse2 StoreStep [] (replay (fun _ => 7) .sse2 ([] : List (IndexOp Nat))) := .init
  have h1 := h0.replay_step (.insert [1] (some 10)) (hstep 1 10 [] (by simp) _) (by decide +kernel)
  have h2 := h1.replay_step (.insert [2] (some 20)) (hstep 2 20 [(1, 10)] (by decide) _)
    (by decide +kernel)
  have h3 := h2.replay_step (.insert [3] (some 30)) (hstep 3 30 [(2, 20), (1, 10)] (by decide) _)
    (by decide +kernel)
  have h4 := h3.replay_step (.insert [4] (some 40))
    (hstep 4 40 [(3, 30), (2, 20), (1, 10)] (by decide) _) (by decide +kernel)
  have h5 := h4.replay_step (.insert [200] (some 50))
    (hstep 200 50 [(4, 40), (3, 30), (2, 20), (1, 10)] (by decide) _) (by decide +kernel)
  have hsorted : Sorted _ := (stores_of_run (fun _ _ _ h => h) h5).orderedTraversal_iff.mp
    (hall .sse2 _ _ h5)
  have hkeys : ¬ ((entries (replay (fun _ => 7) .sse2 [.insert [200] (some 50), .insert [4] (some 40),
      .insert [3] (some 30), .insert [2] (some 20), .insert [1] (some (10 : Nat))]).root).map
        Prod.fst).Pairwise (· < ·) := by
    decide +kernel
  exact hkeys (List.pairwise_map.mpr hsorted)

end LightQuery
