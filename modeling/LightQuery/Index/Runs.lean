import LightQuery.Index.Refine

/-!
# LightQuery.Index.Runs

Runs of index operations from the empty index, and what every run keeps.

A run lists its operations newest first.  Which operations may come next is a
parameter, so that the address format, the non-empty tree of a `disable` and so
on are conditions on single steps.  `mapOf` is the map that the operations make
of the empty one.
-/

namespace LightQuery

open PrefixFamily

variable {V : Type}

/-! ## operations and runs -/

/-- A call on the index; a value is a pointer, NULL is `none`. -/
inductive IndexOp (V : Type) where
  | insert (key : List UInt8) (value : Option V)
  | disable (p : List UInt8)
  | removeKey (key : List UInt8)

/-- The index after a call. -/
def IndexOp.exec (past : Past) (build : Build) (t : ArtTree V) :
    IndexOp V → Except Fault (ArtTree V)
  | .insert key value => RadixTreeIndex.insert past build t key value
  | .disable p => do
      let (t, _) ← RadixTreeIndex.disable past build t p
      .ok t
  | .removeKey key => RadixTreeIndex.removeKey past t key

/-- The runs whose steps are all permitted.  A read past the end of a key
yields a byte of any memory `mem`, another one at every step. -/
inductive Run (build : Build) (permitted : List (IndexOp V) → ArtTree V → IndexOp V → Prop) :
    List (IndexOp V) → ArtTree V → Prop
  | init : Run build permitted [] ArtTree.init
  | step {ops : List (IndexOp V)} {t t' : ArtTree V} {op : IndexOp V} (mem : Nat → UInt8)
      (h : Run build permitted ops t) (hop : permitted ops t op)
      (hexec : op.exec (Past.lenient mem) build t = .ok t') :
      Run build permitted (op :: ops) t'

theorem Run.mono {build : Build} {P Q : List (IndexOp V) → ArtTree V → IndexOp V → Prop}
    (hPQ : ∀ ops t op, P ops t op → Q ops t op) {ops : List (IndexOp V)} {t : ArtTree V}
    (h : Run build P ops t) : Run build Q ops t := by
  induction h with
  | init => exact .init
  | step mem h hop hexec ih => exact .step mem ih (hPQ _ _ _ hop) hexec

/-- The tree that the operations make of the empty one; a call that faults
leaves it as it is. -/
def replay (mem : Nat → UInt8) (build : Build) : List (IndexOp V) → ArtTree V
  | [] => ArtTree.init
  | op :: ops =>
      match op.exec (Past.lenient mem) build (replay mem build ops) with
      | .ok t => t
      | .error _ => replay mem build ops

/-- A run may be replayed. -/
theorem Run.replay_step {build : Build}
    {permitted : List (IndexOp V) → ArtTree V → IndexOp V → Prop} {mem : Nat → UInt8}
    {ops : List (IndexOp V)} (h : Run build permitted ops (replay mem build ops)) (op : IndexOp V)
    (hop : permitted ops (replay mem build ops) op)
    (hok : (op.exec (Past.lenient mem) build (replay mem build ops)).isOk = true) :
    Run build permitted (op :: ops) (replay mem build (op :: ops)) := by
  cases hexec : op.exec (Past.lenient mem) build (replay mem build ops) with
  | error e => rw [hexec] at hok; cases hok
  | ok t =>
      have ht : replay mem build (op :: ops) = t := by rw [replay, hexec]
      rw [ht]
      exact .step mem h hop hexec

/-- The value of the last insert of a key that no removal of the key follows. -/
def valueAfter : List (IndexOp V) → List UInt8 → Option V
  | [], _ => none
  | .insert k v :: ops, key => if k = key then v else valueAfter ops key
  | .removeKey k :: ops, key => if k = key then none else valueAfter ops key
  | .disable _ :: ops, key => valueAfter ops key

/-- What a call makes of the map; a NULL is not stored. -/
def IndexOp.onMap (m : MapIndex V) : IndexOp V → MapIndex V
  | .insert key (some v) => m.insert key v
  | .insert key none => m.erase key
  | .disable p => m.disable p
  | .removeKey key => m.erase key

/-- The map after the operations. -/
def mapOf : List (IndexOp V) → MapIndex V
  | [] => MapIndex.empty
  | op :: ops => op.onMap (mapOf ops)

/-- The disabled prefixes are those of the disable calls. -/
theorem mem_disabled_mapOf {ops : List (IndexOp V)} {p : List UInt8} :
    p ∈ (mapOf ops).disabled ↔ .disable p ∈ ops := by
  induction ops with
  | nil => simp [mapOf, MapIndex.empty]
  | cons op ops ih =>
      rcases op with ⟨k, v | v⟩ | q | k
      all_goals simp [mapOf, IndexOp.onMap, MapIndex.insert, MapIndex.erase, MapIndex.disable, ih]

theorem covers_mapOf {ops : List (IndexOp V)} {a : List UInt8} :
    (mapOf ops).Covers a ↔ ∃ p, .disable p ∈ ops ∧ p <+: a := by
  simp only [MapIndex.Covers, mem_disabled_mapOf]

/-- A stored value was inserted. -/
theorem insert_mem_of_valueAfter {ops : List (IndexOp V)} {a : List UInt8} {v : V}
    (h : valueAfter ops a = some v) : .insert a (some v) ∈ ops := by
  induction ops with
  | nil => cases h
  | cons op ops ih =>
      rcases op with ⟨k, w⟩ | q | k
      · rw [valueAfter] at h
        split at h
        · next hk => rw [hk, h]; exact List.mem_cons_self
        · exact List.mem_cons_of_mem _ (ih h)
      · exact List.mem_cons_of_mem _ (ih h)
      · rw [valueAfter] at h
        split at h
        · cases h
        · exact List.mem_cons_of_mem _ (ih h)

/-- What the map holds was inserted last and is not covered. -/
theorem valueAfter_of_mem_live {ops : List (IndexOp V)} {a : List UInt8} {v : V}
    (h : (a, v) ∈ (mapOf ops).live) : valueAfter ops a = some v := by
  induction ops with
  | nil => cases h
  | cons op ops ih =>
      rcases op with ⟨k, w | w⟩ | q | k
      · obtain ⟨hne, h⟩ := MapIndex.mem_erase.mp h
        rw [valueAfter, if_neg (Ne.symm hne), ih h]
      · rcases MapIndex.mem_insert.mp h with ⟨rfl, rfl⟩ | ⟨hne, h⟩
        · rw [valueAfter, if_pos rfl]
        · rw [valueAfter, if_neg (Ne.symm hne), ih h]
      · exact ih (MapIndex.mem_disable.mp h).2
      · obtain ⟨hne, h⟩ := MapIndex.mem_erase.mp h
        rw [valueAfter, if_neg (Ne.symm hne), ih h]

/-! ## disabling actors: insert on a miss, disable on a non-empty tree -/

/-- What the address format gives: the terminated key is comparable to no other
inserted one, and is not a prefix of a disabled prefix or equal to it. -/
def AddressFormat (ops : List (IndexOp V)) : IndexOp V → Prop
  | .insert k _ =>
      (∀ k' v', .insert k' v' ∈ ops → k' = k ∨ Incomparable (loadKey k') (loadKey k)) ∧
        ∀ p, .disable p ∈ ops → ¬ loadKey k <+: p
  | .disable p => ∀ k v, .insert k v ∈ ops → ¬ loadKey k <+: p
  | .removeKey _ => True

/-- The calls of `process_mailbox` and of the cancellations: a value that is not
NULL is inserted after a lookup that returns 0, and a non-empty prefix is
disabled while the tree is not empty. -/
def DispatchStep (ops : List (IndexOp V)) (t : ArtTree V) (op : IndexOp V) : Prop :=
  AddressFormat ops op ∧
    match op with
    | .insert k v => v.isSome ∧
        ∃ mem out, RadixTreeIndex.lookup (Past.lenient mem) t k = .ok (0, out)
    | .disable p => p ≠ [] ∧ t.root ≠ .null
    | .removeKey _ => False

theorem ne_null_of_isNull {x : ArtNode V} (h : x.isNull = false) : x ≠ .null := by
  rintro rfl
  cases h

theorem readsInside_of_ne_nil {p : List UInt8} (h : p ≠ []) (x : ArtNode V) :
    ReadsInside [] p x := by
  unfold ReadsInside
  split
  · exact .inl (List.length_pos_of_ne_nil h)
  · trivial

/-- **A dispatch step keeps the refinement**, and reads inside its arguments. -/
theorem dispatchStep_spec {build : Build} {ops : List (IndexOp V)} {t : ArtTree V} {op : IndexOp V}
    (h : Refines t (mapOf ops)) (hop : DispatchStep ops t op) (past : Past) :
    ∃ t', op.exec past build t = .ok t' ∧ Refines t' (mapOf (op :: ops)) := by
  obtain ⟨hformat, hop⟩ := hop
  cases op with
  | insert k v =>
      obtain ⟨hv, mem, out, hlook⟩ := hop
      obtain ⟨v, rfl⟩ := Option.isSome_iff_exists.mp hv
      rw [h.lookup_eq] at hlook
      have hc : ¬ (mapOf ops).Covers k := by
        intro hc
        rw [MapIndex.lookup, if_pos hc] at hlook
        cases hlook
      obtain ⟨t', hrun, href, -⟩ := h.insert_spec past build v
        (fun b w hb => hformat.1 b (some w) (insert_mem_of_valueAfter (valueAfter_of_mem_live hb)))
        (fun p hp => by
          have hp' := mem_disabled_mapOf.mp hp
          refine ⟨fun hpk => ?_, hformat.2 p hp'⟩
          have hne : p ≠ loadKey k := fun heq => hformat.2 p hp' (heq ▸ List.prefix_rfl)
          exact hc ⟨p, hp, proper_prefix_loadKey.mp ⟨hpk, hne⟩⟩)
      exact ⟨t', hrun, href⟩
  | disable p =>
      obtain ⟨hne, hroot⟩ := hop
      obtain ⟨t', ret, hrun, href, -⟩ := h.disable_spec past build hroot
        (readsInside_of_ne_nil hne _)
        (fun b w hb => hformat b (some w) (insert_mem_of_valueAfter (valueAfter_of_mem_live hb)))
      exact ⟨t', by rw [IndexOp.exec, hrun]; rfl, href⟩
  | removeKey k => exact absurd hop id

/-- Every dispatch run refines the map of its operations. -/
theorem refines_of_dispatch {build : Build} {ops : List (IndexOp V)} {t : ArtTree V}
    (h : Run build DispatchStep ops t) : Refines t (mapOf ops) := by
  induction h with
  | init => exact refines_init
  | step mem h hop hexec ih =>
      obtain ⟨t', hrun, href⟩ := dispatchStep_spec ih hop (Past.lenient mem)
      rw [hexec] at hrun
      cases hrun
      exact href

/-- What is inserted and not covered is in the map. -/
theorem mem_live_of_dispatch {build : Build} {ops : List (IndexOp V)} {t : ArtTree V}
    (h : Run build DispatchStep ops t) {a : List UInt8} {v : V} (hv : valueAfter ops a = some v)
    (hc : ¬ (mapOf ops).Covers a) : (a, v) ∈ (mapOf ops).live := by
  induction h with
  | init => cases hv
  | @step ops t t' op mem h hop hexec ih =>
      obtain ⟨-, hop⟩ := hop
      cases op with
      | insert k w =>
          obtain ⟨hw, -⟩ := hop
          obtain ⟨w, rfl⟩ := Option.isSome_iff_exists.mp hw
          refine MapIndex.mem_insert.mpr ?_
          rw [valueAfter] at hv
          by_cases hk : k = a
          · rw [if_pos hk] at hv
            exact .inl ⟨hk.symm, (Option.some.inj hv).symm⟩
          · rw [if_neg hk] at hv
            exact .inr ⟨Ne.symm hk, ih hv hc⟩
      | disable p =>
          have hc' := mt MapIndex.covers_disable.mpr hc
          exact MapIndex.mem_disable.mpr
            ⟨fun hp => hc' (.inl hp), ih hv fun hcov => hc' (.inr hcov)⟩
      | removeKey k => exact absurd hop id

/-- **Lookup and get after any dispatch run.**  A key answers -1 exactly when a
disabled prefix is a proper prefix of its terminated form; otherwise it answers
1 with the inserted value, or 0; and no next step leaves its buffers. -/
theorem lookup_of_dispatch_run {build : Build} {ops : List (IndexOp V)} {t : ArtTree V}
    (h : Run build DispatchStep ops t) :
    (∀ (mem : Nat → UInt8) (k : List UInt8),
      let covered := ∃ p, .disable p ∈ ops ∧ p <+: loadKey k ∧ p ≠ loadKey k
      (covered → RadixTreeIndex.lookup (Past.lenient mem) t k = .ok (-1, none) ∧
        RadixTreeIndex.get (Past.lenient mem) t k = .ok none) ∧
      (¬ covered → ∀ v, valueAfter ops k = some v →
        RadixTreeIndex.lookup (Past.lenient mem) t k = .ok (1, some v) ∧
        RadixTreeIndex.get (Past.lenient mem) t k = .ok (some v)) ∧
      (¬ covered → valueAfter ops k = none →
        RadixTreeIndex.lookup (Past.lenient mem) t k = .ok (0, none) ∧
        RadixTreeIndex.get (Past.lenient mem) t k = .ok none)) ∧
    ∀ op, DispatchStep ops t op → ∃ t', op.exec Past.strict build t = .ok t' := by
  have href := refines_of_dispatch h
  refine ⟨fun mem k => ?_, fun op hop => ?_⟩
  · have hcov : (∃ p, .disable p ∈ ops ∧ p <+: loadKey k ∧ p ≠ loadKey k) ↔
        (mapOf ops).Covers k := by
      rw [covers_mapOf]
      simp only [proper_prefix_loadKey]
    simp only [hcov, href.lookup_eq, href.get_eq, Except.ok.injEq, MapIndex.lookup]
    refine ⟨fun hc => ?_, fun hc v hv => ?_, fun hc hnone => ?_⟩
    · have hg : (mapOf ops).get k = none :=
        MapIndex.get_eq_none_iff.mpr fun v hv => href.not_covers hv hc
      exact ⟨if_pos hc, hg⟩
    · have hg := href.functional.get_eq_some_iff.mpr (mem_live_of_dispatch h hv hc)
      rw [if_neg hc, hg]
      exact ⟨rfl, rfl⟩
    · have hg : (mapOf ops).get k = none := MapIndex.get_eq_none_iff.mpr fun v hv => by
        rw [valueAfter_of_mem_live hv] at hnone
        cases hnone
      rw [if_neg hc, hg]
      exact ⟨rfl, rfl⟩
  · obtain ⟨t', hrun, -⟩ := dispatchStep_spec href hop Past.strict
    exact ⟨t', hrun⟩

/-- Two disjoint scopes, one of them disabled: the hypothesis of
`lookup_of_dispatch_run` can be met. -/
theorem lookup_of_dispatch_run_two_scopes :
    RadixTreeIndex.lookup (Past.lenient fun _ => 7) (replay (fun _ => 7) .sse2
        [.disable [1], .insert [3, 4] (some 20), .insert [1, 2] (some (10 : Nat))]) [1, 2] =
      .ok (-1, none) ∧
    RadixTreeIndex.lookup (Past.lenient fun _ => 7) (replay (fun _ => 7) .sse2
        [.disable [1], .insert [3, 4] (some 20), .insert [1, 2] (some (10 : Nat))]) [3, 4] =
      .ok (1, some 20) := by
  have h0 : Run .sse2 DispatchStep [] (replay (fun _ => 7) .sse2 ([] : List (IndexOp Nat))) := .init
  have h1 := h0.replay_step (.insert [1, 2] (some 10))
    ⟨⟨by simp, by simp⟩, rfl, fun _ => 7, none, by decide +kernel⟩ (by decide +kernel)
  have h2 := h1.replay_step (.insert [3, 4] (some 20))
    ⟨⟨by simp [Incomparable, loadKey], by simp⟩, rfl, fun _ => 7, none, by decide +kernel⟩
    (by decide +kernel)
  have h3 := h2.replay_step (.disable [1])
    ⟨fun k v hk => by
      simp only [List.mem_cons, IndexOp.insert.injEq, List.not_mem_nil, or_false] at hk
      rcases hk with ⟨rfl, -⟩ | ⟨rfl, -⟩ <;> decide,
      by simp, ne_null_of_isNull (by decide +kernel)⟩ (by decide +kernel)
  have hmain := (lookup_of_dispatch_run h3).1 (fun _ => 7)
  refine ⟨((hmain [1, 2]).1 ⟨[1], by simp, by decide, by decide⟩).1, ?_⟩
  exact ((hmain [3, 4]).2.1 (by simp [loadKey]) 20 (by decide)).1

/-! ## inserting and removing: a finite map -/

/-- The key of a call. -/
def IndexOp.key : IndexOp V → List UInt8
  | .insert k _ | .removeKey k | .disable k => k

/-- An insert of a value that is not NULL, or a removal, whose terminated key is
comparable to no other key of the sequence. -/
def MapStep (ops : List (IndexOp V)) (_ : ArtTree V) (op : IndexOp V) : Prop :=
  (∀ op' ∈ ops, op'.key = op.key ∨ Incomparable (loadKey op'.key) (loadKey op.key)) ∧
    match op with
    | .insert _ v => v.isSome
    | .removeKey _ => True
    | .disable _ => False

/-- A map step keeps the refinement, and `size` follows the map. -/
theorem mapStep_spec {build : Build} {ops : List (IndexOp V)} {t : ArtTree V} {op : IndexOp V}
    (h : Refines t (mapOf ops)) (hdis : (mapOf ops).disabled = [])
    (hsize : t.size = (mapOf ops).size) (hop : MapStep ops t op) (mem : Nat → UInt8) :
    ∃ t', op.exec (Past.lenient mem) build t = .ok t' ∧ Refines t' (mapOf (op :: ops)) ∧
      (mapOf (op :: ops)).disabled = [] ∧ t'.size = (mapOf (op :: ops)).size := by
  obtain ⟨hformat, hop⟩ := hop
  cases op with
  | insert k v =>
      obtain ⟨v, rfl⟩ := Option.isSome_iff_exists.mp hop
      obtain ⟨t', hrun, href, -, hsize'⟩ := h.insert_spec (Past.lenient mem) build v
        (fun b w hb => hformat _ (insert_mem_of_valueAfter (valueAfter_of_mem_live hb)))
        (fun p hp => by rw [hdis] at hp; cases hp)
      refine ⟨t', hrun, href, hdis, ?_⟩
      rw [hsize', hsize]
      exact ((mapOf ops).size_insert h.nodup_keys k v).symm
  | removeKey k =>
      obtain ⟨t', hrun, href, hsize'⟩ := h.removeKey_spec mem (a := k)
        (by rw [hdis]; exact List.not_mem_nil)
      refine ⟨t', hrun, href, hdis, ?_⟩
      rw [hsize', hsize]
      exact ((mapOf ops).size_erase h.nodup_keys k).symm
  | disable p => exact absurd hop id

theorem refines_of_mapRun {build : Build} {ops : List (IndexOp V)} {t : ArtTree V}
    (h : Run build MapStep ops t) :
    Refines t (mapOf ops) ∧ (mapOf ops).disabled = [] ∧ t.size = (mapOf ops).size := by
  induction h with
  | init => exact ⟨refines_init, rfl, rfl⟩
  | step mem h hop hexec ih =>
      obtain ⟨t', hrun, hnext⟩ := mapStep_spec ih.1 ih.2.1 ih.2.2 hop mem
      rw [hexec] at hrun
      cases hrun
      exact hnext

/-- What was inserted last and not removed is in the map. -/
theorem mem_live_of_mapRun {build : Build} {ops : List (IndexOp V)} {t : ArtTree V}
    (h : Run build MapStep ops t) {a : List UInt8} {v : V} (hv : valueAfter ops a = some v) :
    (a, v) ∈ (mapOf ops).live := by
  induction h with
  | init => cases hv
  | @step ops t t' op mem h hop hexec ih =>
      obtain ⟨-, hop⟩ := hop
      cases op with
      | insert k w =>
          obtain ⟨w, rfl⟩ := Option.isSome_iff_exists.mp hop
          refine MapIndex.mem_insert.mpr ?_
          rw [valueAfter] at hv
          by_cases hk : k = a
          · rw [if_pos hk] at hv
            exact .inl ⟨hk.symm, (Option.some.inj hv).symm⟩
          · rw [if_neg hk] at hv
            exact .inr ⟨Ne.symm hk, ih hv⟩
      | removeKey k =>
          rw [valueAfter] at hv
          by_cases hk : k = a
          · rw [if_pos hk] at hv
            cases hv
          · rw [if_neg hk] at hv
            exact MapIndex.mem_erase.mpr ⟨Ne.symm hk, ih hv⟩
      | disable p => exact absurd hop id

/-- **The index is a finite map.**  After any run of inserts and removals, `get`
returns the last value inserted and not removed, `contains` says whether there
is one, and `get_size` counts the keys that have one; and the next call returns. -/
theorem finite_map_of_run {build : Build} {ops : List (IndexOp V)} {t : ArtTree V}
    (h : Run build MapStep ops t) :
    (∀ (mem : Nat → UInt8) (k : List UInt8),
      RadixTreeIndex.get (Past.lenient mem) t k = .ok (valueAfter ops k) ∧
      RadixTreeIndex.contains (Past.lenient mem) t k = .ok (valueAfter ops k).isSome) ∧
    (∃ keys : List (List UInt8), keys.Nodup ∧ (∀ k, k ∈ keys ↔ (valueAfter ops k).isSome) ∧
      RadixTreeIndex.getSize t = keys.length) ∧
    ∀ op, MapStep ops t op → ∀ mem, ∃ t', op.exec (Past.lenient mem) build t = .ok t' := by
  obtain ⟨href, hdis, hsize⟩ := refines_of_mapRun h
  have hget : ∀ k, (mapOf ops).get k = valueAfter ops k := by
    intro k
    cases hv : valueAfter ops k with
    | some v => exact href.functional.get_eq_some_iff.mpr (mem_live_of_mapRun h hv)
    | none =>
        refine MapIndex.get_eq_none_iff.mpr fun v hv' => ?_
        rw [valueAfter_of_mem_live hv'] at hv
        cases hv
  refine ⟨fun mem k => ⟨by rw [href.get_eq, hget], by rw [href.contains_eq, hget]⟩,
    ⟨(mapOf ops).live.map Prod.fst, href.nodup_keys, fun k => ?_, ?_⟩, fun op hop mem => ?_⟩
  · rw [← hget, Option.isSome_iff_exists]
    simp only [href.functional.get_eq_some_iff, List.mem_map]
    constructor
    · rintro ⟨⟨k', v⟩, hv, rfl⟩; exact ⟨v, hv⟩
    · rintro ⟨v, hv⟩; exact ⟨(k, v), hv, rfl⟩
  · rw [RadixTreeIndex.getSize, hsize, List.length_map]
    rfl
  · obtain ⟨t', hrun, -⟩ := mapStep_spec href hdis hsize hop mem
    exact ⟨t', hrun⟩

/-- One key stored and one removed again: the hypothesis of `finite_map_of_run`
can be met. -/
theorem finite_map_of_run_two_keys :
    RadixTreeIndex.get (Past.lenient fun _ => 7) (replay (fun _ => 7) .sse2
        [.removeKey [3], .insert [3] (some 20), .insert [1, 2] (some (10 : Nat))]) [1, 2] =
      .ok (some 10) ∧
    RadixTreeIndex.contains (Past.lenient fun _ => 7) (replay (fun _ => 7) .sse2
        [.removeKey [3], .insert [3] (some 20), .insert [1, 2] (some (10 : Nat))]) [3] =
      .ok false := by
  have h0 : Run .sse2 MapStep [] (replay (fun _ => 7) .sse2 ([] : List (IndexOp Nat))) := .init
  have h1 := h0.replay_step (.insert [1, 2] (some 10)) ⟨by simp, rfl⟩ (by decide +kernel)
  have h2 := h1.replay_step (.insert [3] (some 20))
    ⟨by simp [IndexOp.key, Incomparable, loadKey], rfl⟩ (by decide +kernel)
  have h3 := h2.replay_step (.removeKey [3])
    ⟨by simp [IndexOp.key, Incomparable, loadKey], trivial⟩ (by decide +kernel)
  have hmain := (finite_map_of_run h3).1 (fun _ => 7)
  exact ⟨(hmain [1, 2]).1, (hmain [3]).2⟩

end LightQuery
