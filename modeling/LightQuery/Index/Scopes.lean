import LightQuery.Index.Runs

/-!
# LightQuery.Index.Scopes

Runs of inserts and disables, whatever the tree is when a prefix is disabled:
what the iteration over a scope, the size of the index and the removal of a
prefix do after them.

Three calls go wrong on some reachable trees.  For each of them a theorem says
exactly on which, next to a run that shows it.
-/

namespace LightQuery

open PrefixFamily

variable {V : Type}

/-! ## runs of inserts and disables -/

/-- An insert or a disable in the address format, no insert under a prefix that
is disabled already, and no disable that reads past the end of its prefix. -/
def ScopeStep (ops : List (IndexOp V)) (t : ArtTree V) (op : IndexOp V) : Prop :=
  AddressFormat ops op ∧
    match op with
    | .insert k _ => ∀ p, .disable p ∈ ops → ¬ p <+: loadKey k
    | .disable p => ReadsInside [] p t.root
    | .removeKey _ => False

/-- Every entry of the tree is an inserted key or the mark of a disable call. -/
structure Traced (ops : List (IndexOp V)) (t : ArtTree V) : Prop where
  wf : t.WF
  trace : ∀ e ∈ entries t.root, (∃ k v, .insert k v ∈ ops ∧ e = (loadKey k, v)) ∨
    e.2 = none ∧ .disable e.1 ∈ ops

namespace Traced

variable {ops : List (IndexOp V)} {t : ArtTree V}

theorem init : Traced ([] : List (IndexOp V)) ArtTree.init :=
  ⟨.inl rfl, by simp [ArtTree.init]⟩

theorem weaken (h : Traced ops t) (op : IndexOp V) : Traced (op :: ops) t := by
  refine ⟨h.wf, fun e he => ?_⟩
  rcases h.trace e he with ⟨k, v, hk, rfl⟩ | ⟨hn, hd⟩
  · exact .inl ⟨k, v, List.mem_cons_of_mem _ hk, rfl⟩
  · exact .inr ⟨hn, List.mem_cons_of_mem _ hd⟩

/-- An inserted key grafts its entry. -/
theorem insert (h : Traced ops t) {k : List UInt8} {v : Option V}
    (hop : ScopeStep ops t (.insert k v)) (past : Past) (build : Build) :
    ∃ t', RadixTreeIndex.insert past build t k v = .ok t' ∧ Traced (.insert k v :: ops) t' ∧
      (entries t'.root).Perm (graft (entries t.root) (loadKey k) v) ∧
      t'.size = (if ∃ e ∈ entries t.root, e.1 = loadKey k then t.size else t.size + 1) ∧
      ∀ e ∈ entries t.root, e.1 = loadKey k ∨ Incomparable e.1 (loadKey k) := by
  have hkey : ∀ e ∈ entries t.root, e.1 = loadKey k ∨ Incomparable e.1 (loadKey k) := by
    intro e he
    rcases h.trace e he with ⟨k', v', hk, rfl⟩ | ⟨-, hd⟩
    · exact (hop.1.1 k' v' hk).imp_left fun hkk => by rw [hkk]
    · exact .inr ⟨hop.2 e.1 hd, hop.1.2 e.1 hd⟩
  obtain ⟨t', old, hrun, hwf, hperm, hsize⟩ := artInsert_spec past build h.wf hkey v
  refine ⟨t', by rw [RadixTreeIndex.insert, hrun]; rfl, ⟨hwf, fun e he => ?_⟩, hperm, hsize, hkey⟩
  rcases mem_graft.mp (hperm.mem_iff.mp he) with rfl | ⟨he, -⟩
  · exact .inl ⟨k, v, List.mem_cons_self, rfl⟩
  · exact (h.weaken _).trace e he

/-- A disabled prefix does nothing to an empty tree or under a shorter mark, and
grafts a mark otherwise. -/
theorem disable (h : Traced ops t) {p : List UInt8} (hformat : AddressFormat ops (.disable p))
    (hin : ReadsInside [] p t.root) (past : Past) (build : Build) :
    ∃ t' ret, RadixTreeIndex.disable past build t p = .ok (t', ret) ∧
      Traced (.disable p :: ops) t' ∧
      (t.root = .null ∧ t' = t ∧ ret = 1 ∨
        (∃ q, (q, none) ∈ entries t.root ∧ q <+: p ∧ q ≠ p) ∧ t' = t ∧ ret = -1 ∨
        (¬ ∃ q, (q, none) ∈ entries t.root ∧ q <+: p ∧ q ≠ p) ∧ ret = 1 ∧
          (entries t'.root).Perm (graft (entries t.root) p none) ∧
          t'.size = t.size - (below (entries t.root) p).length) := by
  by_cases hnull : t.root = .null
  · exact ⟨t, 1, artDisable_of_null past build hnull p, h.weaken _, .inl ⟨hnull, rfl, rfl⟩⟩
  · by_cases hq : ∃ q, (q, none) ∈ entries t.root ∧ q <+: p ∧ q ≠ p
    · obtain ⟨q, hq, hqp, hne⟩ := hq
      exact ⟨t, -1, artDisable_of_mark past build h.wf hq hqp hne, h.weaken _,
        .inr (.inl ⟨⟨q, hq, hqp, hne⟩, rfl, rfl⟩)⟩
    · have hkey : ∀ e ∈ entries t.root, e.1 <+: p → e.1 = p := by
        intro e he hep
        rcases h.trace e he with ⟨k, v, hk, rfl⟩ | ⟨hn, -⟩
        · exact absurd hep (hformat k v hk)
        · by_contra hne
          exact hq ⟨e.1, hn ▸ he, hep, hne⟩
      obtain ⟨t', hrun, hwf, hperm, hsize⟩ := artDisable_spec past build h.wf hnull hin hkey
      refine ⟨t', 1, hrun, ⟨hwf, fun e he => ?_⟩, .inr (.inr ⟨hq, rfl, hperm, hsize⟩)⟩
      rcases mem_graft.mp (hperm.mem_iff.mp he) with rfl | ⟨he, -⟩
      · exact .inr ⟨rfl, List.mem_cons_self⟩
      · exact (h.weaken _).trace e he

end Traced

theorem traced_of_run {build : Build} {ops : List (IndexOp V)} {t : ArtTree V}
    (h : Run build ScopeStep ops t) : Traced ops t := by
  induction h with
  | init => exact .init
  | @step ops t t' op mem h hop hexec ih =>
      cases op with
      | insert k v =>
          obtain ⟨t'', hrun, htr, -⟩ := ih.insert hop (Past.lenient mem) build
          rw [IndexOp.exec, hrun] at hexec
          cases hexec
          exact htr
      | disable p =>
          obtain ⟨t'', ret, hrun, htr, -⟩ := ih.disable hop.1 hop.2 (Past.lenient mem) build
          rw [IndexOp.exec, hrun] at hexec
          cases hexec
          exact htr
      | removeKey k => exact absurd hop.2 id

theorem live_prune_below (F : List (List UInt8 × Option V)) (p : List UInt8) :
    (live (below F p) ++ live (prune F p)).Perm (live F) := by
  rw [← live_append]
  exact live_perm (List.filter_append_perm _ F)

/-! ## iterating over a scope -/

/-- What the iteration over a scope has to be: inside the prefix, once for every
live leaf below it; and the leaves that it visits are those that a following
`disable` takes out of the tree. -/
def ScopeExact (build : Build) (ops : List (IndexOp V)) (t : ArtTree V) (p : List UInt8) : Prop :=
  ∃ vs, RadixTreeIndex.iterPrefixApply Past.strict t p = .ok vs ∧
    vs.Perm (live (below (entries t.root) p)) ∧
    (AddressFormat ops (.disable p) → ∃ t' ret,
      RadixTreeIndex.disable Past.strict build t p = .ok (t', ret) ∧
      (vs ++ live (entries t'.root)).Perm (live (entries t.root)))

/-- **The iteration over a scope is exact if and only if it meets no node that
misleads it.** -/
theorem iterPrefixApply_exact_iff {build : Build} {ops : List (IndexOp V)} {t : ArtTree V}
    (h : Run build ScopeStep ops t) (hroot : t.root ≠ .null) {p : List UInt8} (hp : p ≠ []) :
    ScopeExact build ops t p ↔ ¬ ∃ path y, Skims p [] t.root path y ∧ Misread p path y := by
  have htr := traced_of_run h
  have hwf : LightQuery.WF [] t.root := htr.wf.resolve_left hroot
  rw [← iterExact_iff hwf (Nat.zero_le _)]
  constructor
  · rintro ⟨vs, hrun, hperm, -⟩
    exact ⟨vs, hrun, hperm⟩
  · rintro ⟨vs, hrun, hperm⟩
    refine ⟨vs, hrun, hperm, fun hformat => ?_⟩
    obtain ⟨t', ret, hdis, -, hcase⟩ :=
      htr.disable hformat (readsInside_of_ne_nil hp _) Past.strict build
    refine ⟨t', ret, hdis, ?_⟩
    rcases hcase with ⟨hnull, -⟩ | ⟨⟨q, hq, hqp, hne⟩, rfl, -⟩ | ⟨-, -, hperm', -⟩
    · exact absurd hnull hroot
    · -- under a mark there is nothing to visit
      have hnil : below (entries t'.root) p = [] := below_eq_nil fun e he hpe => hne (by
        have := htr.wf.prefixFree.eq_of_le hq he (hqp.trans hpe)
        rw [← this] at hpe
        exact hqp.eq_of_length (Nat.le_antisymm hqp.length_le hpe.length_le))
      rw [hnil] at hperm
      rw [hperm.eq_nil]
      exact List.Perm.refl _
    · refine (hperm.append (live_perm hperm')).trans ?_
      exact live_prune_below (entries t.root) p

/-- The keys [1, 2, 3], [1, 2, 4] and [9], in this order: the first two are below a
node with a compressed path. -/
def threeKeys : List (IndexOp Nat) :=
  [.insert [9] (some 30), .insert [1, 2, 4] (some 20), .insert [1, 2, 3] (some 10)]

theorem run_threeKeys {permitted : List (IndexOp Nat) → ArtTree Nat → IndexOp Nat → Prop}
    (h : ∀ ops t k v, AddressFormat ops (.insert k v) → (∀ p, .disable p ∉ ops) →
      permitted ops t (.insert k v)) :
    Run .sse2 permitted threeKeys (replay (fun _ => 7) .sse2 threeKeys) := by
  have h0 : Run .sse2 permitted [] (replay (fun _ => 7) .sse2 ([] : List (IndexOp Nat))) := .init
  have h1 := h0.replay_step (.insert [1, 2, 3] (some 10))
    (h _ _ _ _ ⟨by simp, by simp⟩ (by simp)) (by decide +kernel)
  have h2 := h1.replay_step (.insert [1, 2, 4] (some 20))
    (h _ _ _ _ ⟨by simp [Incomparable, loadKey], by simp⟩ (by simp)) (by decide +kernel)
  have hnew : AddressFormat [.insert [1, 2, 4] (some 20), .insert [1, 2, 3] (some 10)]
      (.insert [9] (some 30)) := by
    refine ⟨fun k v hk => ?_, by simp⟩
    simp only [List.mem_cons, IndexOp.insert.injEq, List.not_mem_nil, or_false] at hk
    rcases hk with ⟨rfl, -⟩ | ⟨rfl, -⟩ <;> simp [Incomparable, loadKey]
  exact h2.replay_step (.insert [9] (some 30)) (h _ _ _ _ hnew (by simp)) (by decide +kernel)

/-- Three keys and a prefix that ends in a compressed path: the hypotheses of
`iterPrefixApply_exact_iff` can be met, and its condition too. -/
theorem iterPrefixApply_exact_iff_three_keys :
    ScopeExact .sse2 threeKeys (replay (fun _ => 7) .sse2 threeKeys) [1, 2] := by
  have h : Run .sse2 ScopeStep threeKeys (replay (fun _ => 7) .sse2 threeKeys) :=
    run_threeKeys fun ops t k v hk hno => ⟨hk, fun p hp => absurd hp (hno p)⟩
  have hroot : (replay (fun _ => 7) .sse2 threeKeys).root ≠ .null :=
    ne_null_of_isNull (by decide +kernel)
  have hmem : ([1, 2, 3, 0], some 10) ∈ entries (replay (fun _ => 7) .sse2 threeKeys).root := by
    decide +kernel
  -- a prefix of a key is not misled
  exact (iterPrefixApply_exact_iff h hroot (by simp)).mpr
    (not_misread_of_comparable ((traced_of_run h).wf.resolve_left hroot) hmem (.inl (by simp)))

/-- The scope of [1, 2, 3, …] is iterated for the prefix [1, 9, 3, 4]: after the
first byte of the compressed path [1, 2] the second one is not compared. -/
theorem iterPrefixApply_other_scope : ¬ ∀ (ops : List (IndexOp Nat)) (t : ArtTree Nat)
    (p : List UInt8), Run .sse2 ScopeStep ops t → t.root ≠ .null → p ≠ [] →
      ScopeExact .sse2 ops t p := by
  intro hall
  have h0 : Run .sse2 ScopeStep [] (replay (fun _ => 7) .sse2 ([] : List (IndexOp Nat))) := .init
  have h1 := h0.replay_step (.insert [1, 2, 3, 4, 5] (some 10))
    ⟨⟨by simp, by simp⟩, by simp⟩ (by decide +kernel)
  have h2 := h1.replay_step (.insert [1, 2, 3, 4, 6] (some 20))
    ⟨⟨by simp [Incomparable, loadKey], by simp⟩, by simp⟩ (by decide +kernel)
  have h3 := h2.replay_step (.insert [1, 2, 7] (some 30))
    ⟨⟨fun k v hk => by
      simp only [List.mem_cons, IndexOp.insert.injEq, List.not_mem_nil, or_false] at hk
      rcases hk with ⟨rfl, -⟩ | ⟨rfl, -⟩ <;> simp [Incomparable, loadKey], by simp⟩, by simp⟩
    (by decide +kernel)
  obtain ⟨vs, hrun, hperm, -⟩ := hall _ _ [1, 9, 3, 4] h3 (ne_null_of_isNull (by decide +kernel))
    (by simp)
  have hvs : RadixTreeIndex.iterPrefixApply Past.strict (replay (fun _ => 7) .sse2
      [.insert [1, 2, 7] (some 30), .insert [1, 2, 3, 4, 6] (some 20),
        .insert [1, 2, 3, 4, 5] (some (10 : Nat))]) [1, 9, 3, 4] = .ok [10, 20] := by
    decide +kernel
  rw [hvs] at hrun
  cases hrun
  have hlen := hperm.length_eq
  revert hlen
  decide +kernel

/-! ## the size of the index -/

/-- A disable call that leaves `get_size` right and answers -1 where it has to:
it reads inside its prefix, and either a shorter prefix has a mark, or no mark
is at or below the prefix and nothing at or above it was disabled before. -/
def DisableCounts (ops : List (IndexOp V)) (t : ArtTree V) (p : List UInt8) : Prop :=
  ReadsInside [] p t.root ∧
    ((∃ q, (q, none) ∈ entries t.root ∧ q <+: p ∧ q ≠ p) ∨
      (∀ q, (q, none) ∈ entries t.root → ¬ p <+: q) ∧ ∀ q, .disable q ∈ ops → ¬ q <+: p)

/-- An insert of a value that is not NULL, or a disable call that counts right. -/
def CountingStep (ops : List (IndexOp V)) (t : ArtTree V) (op : IndexOp V) : Prop :=
  ScopeStep ops t op ∧
    match op with
    | .insert _ v => v.isSome
    | .disable p => DisableCounts ops t p
    | .removeKey _ => False

/-- `get_size` counts the live leaves, and the leaves without a value are marks
of disable calls. -/
structure Counted (ops : List (IndexOp V)) (t : ArtTree V) : Prop where
  size : RadixTreeIndex.getSize t = (live (entries t.root)).length
  mark : ∀ q, (q, none) ∈ entries t.root → .disable q ∈ ops

theorem length_live_split (F : List (List UInt8 × Option V)) (p : List UInt8) :
    (live F).length = (live (below F p)).length + (live (prune F p)).length := by
  rw [← (live_prune_below F p).length_eq, List.length_append]

/-- A family without marks has as many values as entries. -/
theorem length_live_le (F : List (List UInt8 × Option V)) :
    (live F).length ≤ F.length ∧ ((live F).length = F.length ↔ ∀ q, (q, none) ∉ F) := by
  induction F with
  | nil => simp [live]
  | cons e F ih =>
      obtain ⟨q, o⟩ := e
      cases o with
      | none =>
          have hcons : live ((q, none) :: F) = live F := rfl
          rw [hcons, List.length_cons]
          refine ⟨by omega, iff_of_false (by omega) fun h => h q List.mem_cons_self⟩
      | some v =>
          have hcons : live ((q, some v) :: F) = v :: live F := rfl
          rw [hcons, List.length_cons, List.length_cons]
          refine ⟨by omega, ?_⟩
          rw [Nat.add_right_cancel_iff, ih.2]
          simp

/-- The insert of a value keeps the count. -/
theorem Counted.insert {ops : List (IndexOp V)} {t t' : ArtTree V} (h : Counted ops t)
    {k : List UInt8} {v : V} (hwf : t.WF)
    (hformat : ∀ p, .disable p ∈ ops → ¬ loadKey k <+: p)
    (hkey : ∀ e ∈ entries t.root, e.1 = loadKey k ∨ Incomparable e.1 (loadKey k))
    (hperm : (entries t'.root).Perm (graft (entries t.root) (loadKey k) (some v)))
    (hsize : t'.size = if ∃ e ∈ entries t.root, e.1 = loadKey k then t.size else t.size + 1) :
    Counted (.insert k (some v) :: ops) t' := by
  refine ⟨?_, fun q hq => ?_⟩
  · have hs : t.size = ((live (entries t.root)).length : Int) := h.size
    have hsplit := length_live_split (entries t.root) (loadKey k)
    have hgraft : live (graft (entries t.root) (loadKey k) (some v)) =
        v :: live (prune (entries t.root) (loadKey k)) := rfl
    rw [RadixTreeIndex.getSize, (live_perm hperm).length_eq, hgraft, List.length_cons, hsize]
    by_cases he : ∃ e ∈ entries t.root, e.1 = loadKey k
    · -- the old entry of the key is its only entry, and live
      obtain ⟨⟨q, o⟩, he', hq⟩ := he
      have hq' : q = loadKey k := hq
      subst hq'
      cases o with
      | none => exact absurd List.prefix_rfl (hformat _ (h.mark _ he'))
      | some w =>
          have hbelow : (below (entries t.root) (loadKey k)).Perm [(loadKey k, some w)] := by
            refine (List.perm_ext_iff_of_nodup (hwf.prefixFree.nodup.filter _)
              (List.nodup_singleton _)).mpr fun e => ?_
            rw [List.mem_singleton]
            constructor
            · intro hb
              obtain ⟨hb, hp⟩ := mem_below.mp hb
              exact (hwf.prefixFree.eq_of_le he' hb hp).symm
            · rintro rfl
              exact mem_below.mpr ⟨he', List.prefix_rfl⟩
          have hone : (live (below (entries t.root) (loadKey k))).length = 1 :=
            (live_perm hbelow).length_eq
          rw [if_pos ⟨_, he', rfl⟩]
          omega
    · have hnil : below (entries t.root) (loadKey k) = [] := below_eq_nil fun e he' hp => by
        rcases hkey e he' with hk | hk
        · exact he ⟨e, he', hk⟩
        · exact hk.2 hp
      rw [hnil] at hsplit
      have hz : (live ([] : List (List UInt8 × Option V))).length = 0 := rfl
      rw [if_neg he]
      omega
  · rcases mem_graft.mp (hperm.mem_iff.mp hq) with he | ⟨he, -⟩
    · cases he
    · exact List.mem_cons_of_mem _ (h.mark q he)

/-- **Counting steps keep the count.** -/
theorem counted_of_run {build : Build} {ops : List (IndexOp V)} {t : ArtTree V}
    (h : Run build CountingStep ops t) : Counted ops t := by
  induction h with
  | init => exact ⟨rfl, by simp [ArtTree.init]⟩
  | @step ops t t' op mem h hop hexec ih =>
      have htr := traced_of_run (h.mono fun _ _ _ h => h.1)
      obtain ⟨hscope, hcount⟩ := hop
      cases op with
      | insert k v =>
          obtain ⟨v, rfl⟩ := Option.isSome_iff_exists.mp hcount
          obtain ⟨t'', hrun, -, hperm, hsize, hkey⟩ := htr.insert hscope (Past.lenient mem) build
          rw [IndexOp.exec, hrun] at hexec
          cases hexec
          exact ih.insert htr.wf hscope.1.2 hkey hperm hsize
      | disable p =>
          obtain ⟨t'', ret, hrun, -, hcase⟩ :=
            htr.disable hscope.1 hscope.2 (Past.lenient mem) build
          rw [IndexOp.exec, hrun] at hexec
          cases hexec
          rcases hcase with ⟨-, rfl, -⟩ | ⟨-, rfl, -⟩ | ⟨hno, -, hperm, hsize⟩
          · exact ⟨ih.size, fun q hq => List.mem_cons_of_mem _ (ih.mark q hq)⟩
          · exact ⟨ih.size, fun q hq => List.mem_cons_of_mem _ (ih.mark q hq)⟩
          · -- no mark goes
            have hmarks := (hcount.2.resolve_left hno).1
            refine ⟨?_, fun q hq => ?_⟩
            · have hs : t.size = ((live (entries t.root)).length : Int) := ih.size
              have hsplit := length_live_split (entries t.root) p
              have hall := (length_live_le (below (entries t.root) p)).2.mpr fun q hq =>
                hmarks q (mem_below.mp hq).1 (mem_below.mp hq).2
              have hgraft : live (graft (entries t.root) p none) =
                  live (prune (entries t.root) p) := rfl
              rw [RadixTreeIndex.getSize, (live_perm hperm).length_eq, hgraft, hsize]
              omega
            · rcases mem_graft.mp (hperm.mem_iff.mp hq) with he | ⟨he, -⟩
              · cases he
                exact List.mem_cons_self
              · exact List.mem_cons_of_mem _ (ih.mark q he)
      | removeKey k => exact absurd hcount id

/-- Where the root has no compressed path, disabling the empty prefix reads its
first byte. -/
theorem disable_error_of_empty {build : Build} {t : ArtTree V} {p : List UInt8}
    (h : ¬ ReadsInside [] p t.root) (r : ArtTree V × Int) :
    RadixTreeIndex.disable Past.strict build t p ≠ .ok r := by
  unfold ReadsInside at h
  split at h
  · next n keys children hroot =>
      obtain ⟨hp, hz⟩ := not_or.mp h
      have hp' : p = [] := List.eq_nil_of_length_eq_zero (by simpa using hp)
      have hz' : n.partialLen = 0 := not_not.mp hz
      subst hp'
      have hloop : disableLoop Past.strict build [] (.node n keys children) 0 =
          .error (.pastEnd 0) := by
        rw [disableLoop, disablePath, if_pos hz', hz']
        rfl
      rw [RadixTreeIndex.disable, artDisable, hroot, hloop]
      intro hok
      cases hok
  · exact absurd trivial h

/-- What a disable call has to be for the count: it leaves `get_size` at the
number of live leaves, and answers -1 and leaves the tree as it is where the
prefix or a prefix of it is disabled. -/
def DisableExact (build : Build) (ops : List (IndexOp V)) (t : ArtTree V) (p : List UInt8) :
    Prop :=
  ∃ t' ret, RadixTreeIndex.disable Past.strict build t p = .ok (t', ret) ∧
    RadixTreeIndex.getSize t' = (live (entries t'.root)).length ∧
    ((∃ q, .disable q ∈ ops ∧ q <+: p) → ret = -1 ∧ t' = t)

/-- **`get_size` counts the live leaves after every run of counting steps**, and
the next disable call keeps it so, and is idempotent, if and only if it is a
counting step. -/
theorem getSize_of_run {build : Build} {ops : List (IndexOp V)} {t : ArtTree V}
    (h : Run build CountingStep ops t) :
    RadixTreeIndex.getSize t = (live (entries t.root)).length ∧
      ∀ p, AddressFormat ops (.disable p) →
        (DisableExact build ops t p ↔ DisableCounts ops t p) := by
  have hcounted := counted_of_run h
  have htr := traced_of_run (h.mono fun _ _ _ h => h.1)
  have hs : t.size = ((live (entries t.root)).length : Int) := hcounted.size
  refine ⟨hcounted.size, fun p hformat => ?_⟩
  by_cases hin : ReadsInside [] p t.root
  · obtain ⟨t', ret, hrun, -, hcase⟩ := htr.disable hformat hin Past.strict build
    have hexact : DisableExact build ops t p ↔
        RadixTreeIndex.getSize t' = (live (entries t'.root)).length ∧
          ((∃ q, .disable q ∈ ops ∧ q <+: p) → ret = -1 ∧ t' = t) := by
      constructor
      · rintro ⟨t'', ret', hrun', hprop⟩
        rw [hrun] at hrun'
        cases hrun'
        exact hprop
      · exact fun hprop => ⟨t', ret, hrun, hprop⟩
    rw [hexact]
    rcases hcase with ⟨hnull, rfl, rfl⟩ | ⟨hq, rfl, rfl⟩ | ⟨hno, rfl, hperm, hsize⟩
    · -- the empty tree keeps no mark
      have hnomark : ∀ q, (q, none) ∈ entries t'.root → ¬ p <+: q := by
        rw [hnull]; simp
      constructor
      · rintro ⟨-, hret⟩
        refine ⟨hin, .inr ⟨hnomark, fun q hq hqp => ?_⟩⟩
        have := (hret ⟨q, hq, hqp⟩).1
        omega
      · rintro ⟨-, hmark | ⟨-, hno⟩⟩
        · obtain ⟨q, hq, -⟩ := hmark
          rw [hnull] at hq
          cases hq
        · exact ⟨hcounted.size, fun ⟨q, hq, hqp⟩ => absurd hqp (hno q hq)⟩
    · exact iff_of_true ⟨hcounted.size, fun _ => ⟨rfl, rfl⟩⟩ ⟨hin, .inl hq⟩
    · have hsplit := length_live_split (entries t.root) p
      have hle := length_live_le (below (entries t.root) p)
      have hgraft : live (graft (entries t.root) p none) = live (prune (entries t.root) p) := rfl
      rw [RadixTreeIndex.getSize, (live_perm hperm).length_eq, hgraft, hsize]
      constructor
      · rintro ⟨hcount, hret⟩
        have hall := hle.2.mp (by omega)
        refine ⟨hin, .inr ⟨fun q hq hpq => hall q (mem_below.mpr ⟨hq, hpq⟩), fun q hq hqp => ?_⟩⟩
        have := (hret ⟨q, hq, hqp⟩).1
        omega
      · rintro ⟨-, hmark | ⟨hmarks, hnew⟩⟩
        · exact absurd hmark hno
        · have hall := hle.2.mpr fun q hq => hmarks q (mem_below.mp hq).1 (mem_below.mp hq).2
          exact ⟨by omega, fun ⟨q, hq, hqp⟩ => absurd hqp (hnew q hq)⟩
  · refine iff_of_false ?_ fun hc => hin hc.1
    rintro ⟨t', ret, hrun, -⟩
    exact disable_error_of_empty hin _ hrun

/-- A run that inserts two keys and disables the scope of one of them. -/
theorem getSize_of_run_two_keys :
    RadixTreeIndex.getSize (replay (fun _ => 7) .sse2
      [.disable [1], .insert [3, 4] (some 20), .insert [1, 2] (some (10 : Nat))]) = 1 := by
  have h0 : Run .sse2 CountingStep [] (replay (fun _ => 7) .sse2 ([] : List (IndexOp Nat))) := .init
  have h1 := h0.replay_step (.insert [1, 2] (some 10))
    ⟨⟨⟨by simp, by simp⟩, by simp⟩, rfl⟩ (by decide +kernel)
  have h2 := h1.replay_step (.insert [3, 4] (some 20))
    ⟨⟨⟨by simp [Incomparable, loadKey], by simp⟩, by simp⟩, rfl⟩ (by decide +kernel)
  have hin := readsInside_of_ne_nil (p := [1]) (by simp) (replay (fun _ => 7) .sse2
    [.insert [3, 4] (some 20), .insert [1, 2] (some (10 : Nat))]).root
  have hnomark : ∀ e ∈ entries (replay (fun _ => 7) .sse2
      [.insert [3, 4] (some 20), .insert [1, 2] (some (10 : Nat))]).root,
      e.2 = none → ¬ [1] <+: e.1 := by
    decide +kernel
  have h3 := h2.replay_step (.disable [1])
    ⟨⟨fun k v hk => by
      simp only [List.mem_cons, IndexOp.insert.injEq, List.not_mem_nil, or_false] at hk
      rcases hk with ⟨rfl, -⟩ | ⟨rfl, -⟩ <;> decide, hin⟩,
      hin, .inr ⟨fun q hq => hnomark (q, none) hq rfl, by simp⟩⟩ (by decide +kernel)
  have hlive : (live (entries (replay (fun _ => 7) .sse2
    [.disable [1], .insert [3, 4] (some 20), .insert [1, 2] (some (10 : Nat))]).root)).length = 1 :=
    by decide +kernel
  rw [(getSize_of_run h3).1, hlive]
  rfl

/-- A prefix that is disabled twice takes its own mark off the count. -/
theorem getSize_disabled_twice : ¬ ∀ (ops : List (IndexOp Nat)) (t : ArtTree Nat),
    Run .sse2 ScopeStep ops t → RadixTreeIndex.getSize t = (live (entries t.root)).length := by
  intro hall
  have h0 : Run .sse2 ScopeStep [] (replay (fun _ => 7) .sse2 ([] : List (IndexOp Nat))) := .init
  have h1 := h0.replay_step (.insert [1] (some 10))
    ⟨⟨by simp, by simp⟩, by simp⟩ (by decide +kernel)
  have h2 := h1.replay_step (.disable [1])
    ⟨by simp [AddressFormat, loadKey], readsInside_of_ne_nil (by simp) _⟩ (by decide +kernel)
  have h3 := h2.replay_step (.disable [1])
    ⟨by simp [AddressFormat, loadKey], readsInside_of_ne_nil (by simp) _⟩ (by decide +kernel)
  have hsize := hall _ _ h3
  revert hsize
  decide +kernel

/-! ## removing a prefix -/

/-- An insert whose terminated key is comparable to no other inserted one. -/
def InsertStep (ops : List (IndexOp V)) (t : ArtTree V) (op : IndexOp V) : Prop :=
  ScopeStep ops t op ∧
    match op with
    | .insert _ _ => True
    | _ => False

/-- What the removal of a prefix has to be: inside the prefix and without taking
a leaf for a node, the entries below the prefix are gone and the others stay,
and their number is returned and taken off the size. -/
def RemoveExact (t : ArtTree V) (p : List UInt8) : Prop :=
  ∃ t' ret, RadixTreeIndex.removePrefix Past.strict t p = .ok (t', ret) ∧
    (∀ (mem : Nat → UInt8) (k : List UInt8), RadixTreeIndex.get (Past.lenient mem) t' k =
      if p <+: loadKey k then .ok none else RadixTreeIndex.get (Past.lenient mem) t k) ∧
    ret = (below (entries t.root) p).length ∧
    RadixTreeIndex.getSize t' = RadixTreeIndex.getSize t - ret

/-- What `get` finds after everything below a prefix went. -/
theorem found_prune {F : List (List UInt8 × Option V)} (h : PrefixFree F) (p k : List UInt8) :
    found k (locate (prune F p) k) = if p <+: k then none else found k (locate F k) := by
  rw [h.locate_prune]
  cases hloc : locate F k with
  | none => simp [found]
  | some e =>
      obtain ⟨q, v⟩ := e
      by_cases hpq : p <+: q
      · have hdrop : (some (q, v)).filter (fun e => !decide (p <+: e.1)) = none := by
          simp [Option.filter, hpq]
        rw [hdrop]
        by_cases hqk : q = k
        · rw [if_pos (hqk ▸ hpq)]
          rfl
        · simp [found, hqk]
      · have hkeep : (some (q, v)).filter (fun e => !decide (p <+: e.1)) = some (q, v) := by
          simp [Option.filter, hpq]
        rw [hkeep]
        by_cases hqk : q = k
        · rw [if_neg (hqk ▸ hpq)]
        · simp [found, hqk]

/-- **The removal of a prefix is exact if and only if the tree clears it.** -/
theorem removePrefix_exact_iff {build : Build} {ops : List (IndexOp V)} {t : ArtTree V}
    (h : Run build InsertStep ops t) (p : List UInt8) : RemoveExact t p ↔ Clears p t.root := by
  have hwf := (traced_of_run (h.mono fun _ _ _ h => h.1)).wf
  constructor
  · rintro ⟨t', ret, hrun, -, rfl, -⟩
    exact clears_of_count hwf hrun
  · intro hc
    obtain ⟨t', hrun, hwf', hperm, hsize⟩ := artDeletePrefix_of_clears hwf hc
    refine ⟨t', _, hrun, fun mem k => ?_, rfl, hsize⟩
    rw [RadixTreeIndex.get, RadixTreeIndex.get, artSearch_eq hwf', artSearch_eq hwf,
      hwf'.prefixFree.locate_perm hperm, found_prune hwf.prefixFree]
    split <;> rfl

/-- Three keys, and a prefix that ends at a slot byte of the second of two nodes:
the hypothesis of `removePrefix_exact_iff` can be met, and its condition too. -/
theorem removePrefix_exact_iff_three_keys :
    RemoveExact (replay (fun _ => 7) .sse2 [.insert [9] (some 30), .insert [1, 3] (some 20),
      .insert [1, 2] (some (10 : Nat))]) [1, 2] := by
  have h0 : Run .sse2 InsertStep [] (replay (fun _ => 7) .sse2 ([] : List (IndexOp Nat))) := .init
  have h1 := h0.replay_step (.insert [1, 2] (some 10))
    ⟨⟨⟨by simp, by simp⟩, by simp⟩, trivial⟩ (by decide +kernel)
  have h2 := h1.replay_step (.insert [1, 3] (some 20))
    ⟨⟨⟨by simp [Incomparable, loadKey], by simp⟩, by simp⟩, trivial⟩ (by decide +kernel)
  have h3 := h2.replay_step (.insert [9] (some 30))
    ⟨⟨⟨fun k v hk => by
      simp only [List.mem_cons, IndexOp.insert.injEq, List.not_mem_nil, or_false] at hk
      rcases hk with ⟨rfl, -⟩ | ⟨rfl, -⟩ <;> simp [Incomparable, loadKey], by simp⟩, by simp⟩,
      trivial⟩ (by decide +kernel)
  have hbelow : (below (entries (replay (fun _ => 7) .sse2 [.insert [9] (some 30),
      .insert [1, 3] (some 20), .insert [1, 2] (some (10 : Nat))]).root) [1, 2]).length = 1 := by
    decide +kernel
  refine (removePrefix_exact_iff h3 [1, 2]).mpr ?_
  -- the tree clears the prefix, since the loop counts the one key below it
  have hcount : (artDeletePrefix Past.strict (replay (fun _ => 7) .sse2 [.insert [9] (some 30),
      .insert [1, 3] (some 20), .insert [1, 2] (some (10 : Nat))]) [1, 2]).map Prod.snd =
        .ok 1 := by
    decide +kernel
  cases hrun : artDeletePrefix Past.strict (replay (fun _ => 7) .sse2 [.insert [9] (some 30),
      .insert [1, 3] (some 20), .insert [1, 2] (some (10 : Nat))]) [1, 2] with
  | error e =>
      rw [hrun] at hcount
      cases hcount
  | ok r =>
      obtain ⟨t', ret⟩ := r
      rw [hrun] at hcount
      obtain rfl : ret = 1 := Except.ok.inj hcount
      rw [← hbelow] at hrun
      exact clears_of_count (traced_of_run (h3.mono fun _ _ _ h => h.1)).wf hrun

/-- A prefix that ends in the root's compressed path is read past its end. -/
theorem removePrefix_past_end : ¬ ∀ (ops : List (IndexOp Nat)) (t : ArtTree Nat)
    (p : List UInt8), Run .sse2 InsertStep ops t → p ≠ [] → RemoveExact t p := by
  intro hall
  have h0 : Run .sse2 InsertStep [] (replay (fun _ => 7) .sse2 ([] : List (IndexOp Nat))) := .init
  have h1 := h0.replay_step (.insert [1, 2] (some 10))
    ⟨⟨⟨by simp, by simp⟩, by simp⟩, trivial⟩ (by decide +kernel)
  have h2 := h1.replay_step (.insert [1, 3] (some 20))
    ⟨⟨⟨by simp [Incomparable, loadKey], by simp⟩, by simp⟩, trivial⟩ (by decide +kernel)
  obtain ⟨t', ret, hrun, -⟩ := hall _ _ [1] h2 (by simp)
  have herr : (RadixTreeIndex.removePrefix Past.strict (replay (fun _ => 7) .sse2
      [.insert [1, 3] (some 20), .insert [1, 2] (some (10 : Nat))]) [1]).isOk = false := by
    decide +kernel
  rw [hrun] at herr
  cases herr

end LightQuery
