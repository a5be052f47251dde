import LightQuery.Art.Canonical
import LightQuery.Index.Shape

/-!
# LightQuery.Index.Canonical

The tree that a history of calls leaves behind.

A run may be repeated in the other build and with other bytes past the ends of
its keys: the two trees are alike and count the same, so that no call tells
them apart (`alike_of_runs`).  And a tree does not remember how it came about:
it is determined by the map that it refines (`Refines.alike`), and so by what
is stored after the calls (`alike_of_same_map`), or stored and disabled
(`alike_of_same_scopes`).
-/

namespace LightQuery

open PrefixFamily

variable {V : Type}

/-! ## indexes that no call tells apart -/

/-- Two trees of one shape and size. -/
structure ArtTree.Alike (t t' : ArtTree V) : Prop where
  root : LightQuery.Alike t.root t'.root
  size : t.size = t'.size

/-- What a call on the index may observe of its tree. -/
structure SameReads (t t' : ArtTree V) : Prop where
  get : ∀ past key, RadixTreeIndex.get past t key = RadixTreeIndex.get past t' key
  contains : ∀ past key, RadixTreeIndex.contains past t key = RadixTreeIndex.contains past t' key
  lookup : ∀ past key, RadixTreeIndex.lookup past t key = RadixTreeIndex.lookup past t' key
  iterPrefix : ∀ past key, SameValues (RadixTreeIndex.iterPrefixApply past t key)
    (RadixTreeIndex.iterPrefixApply past t' key)
  iter : (RadixTreeIndex.iterApply t).Perm (RadixTreeIndex.iterApply t')

/-- What a call on the index may observe. -/
structure SameCalls (t t' : ArtTree V) : Prop extends SameReads t t' where
  size : RadixTreeIndex.getSize t = RadixTreeIndex.getSize t'

theorem null_of_alike {x : ArtNode V} (h : Alike .null x) : x = .null := by
  cases h
  rfl

/-- A relation of pointers that NULL has to itself holds of the roots where it
holds of well-formed pointers. -/
theorem Alike.of_wf {P : ArtNode V → ArtNode V → Prop} {t t' : ArtTree V}
    (h : LightQuery.Alike t.root t'.root) (ht : t.WF) (ht' : t'.WF) (hnull : P .null .null)
    (hwf : LightQuery.WF [] t.root → LightQuery.WF [] t'.root → P t.root t'.root) :
    P t.root t'.root := by
  rcases ht with hn | ht
  · rw [hn] at h
    rw [hn, null_of_alike h]
    exact hnull
  · rcases ht' with hn' | ht'
    · rw [hn'] at h
      generalize t.root = x at h ht
      cases h
      cases ht
    · exact hwf ht ht'

/-- **No call tells alike trees apart**, not even one that reads past the end of
its key. -/
theorem Alike.sameReads {t t' : ArtTree V} (h : LightQuery.Alike t.root t'.root) (ht : t.WF)
    (ht' : t'.WF) : SameReads t t' := by
  have hsearch : ∀ past key, artSearch past t key = artSearch past t' key := fun past key =>
    h.of_wf (P := fun x y => searchLoop past key x 0 = searchLoop past key y 0) ht ht' rfl
      fun hx hy => h.searchLoop_eq hx hy past key 0
  have hlookup : ∀ past key, artLookup past t key = artLookup past t' key := fun past key =>
    h.of_wf (P := fun x y => lookupLoop past key x 0 = lookupLoop past key y 0) ht ht' rfl
      fun hx hy => h.lookupLoop_eq hx hy past key 0
  refine ⟨fun past key => hsearch past _, fun past key => ?_, fun past key => hlookup past _,
    fun past key => ?_, ?_⟩
  · rw [RadixTreeIndex.contains, RadixTreeIndex.contains, hsearch]
  · exact h.of_wf (P := fun x y => SameValues (iterLoop past key x 0) (iterLoop past key y 0))
      ht ht' (.refl _) fun hx hy => h.iterLoop_same hx hy past key
  · rw [RadixTreeIndex.iterApply, RadixTreeIndex.iterApply, artIterActive, artIterActive,
      recursiveIterActive_eq, recursiveIterActive_eq]
    exact live_perm ((ht.alike_iff ht').mp h)

theorem ArtTree.Alike.sameCalls {t t' : ArtTree V} (h : t.Alike t') (ht : t.WF) (ht' : t'.WF) :
    SameCalls t t' :=
  ⟨h.root.sameReads ht ht', h.size⟩

/-! ## one history, two runs -/

/-- Two trees that the same calls lead to. -/
structure Twins (ops : List (IndexOp V)) (t t' : ArtTree V) : Prop where
  left : Traced ops t
  right : Traced ops t'
  entries : (entries t.root).Perm (LightQuery.entries t'.root)
  size : t.size = t'.size

namespace Twins

variable {ops : List (IndexOp V)} {t t' : ArtTree V}

theorem alike (h : Twins ops t t') : t.Alike t' :=
  ⟨(h.left.wf.alike_iff h.right.wf).mpr h.entries, h.size⟩

theorem root_eq_null_iff (h : Twins ops t t') : t.root = .null ↔ t'.root = .null := by
  have ha := h.alike.root
  constructor <;> intro hn <;> rw [hn] at ha
  · exact null_of_alike ha
  · generalize t.root = x at ha
    cases ha
    rfl

theorem insert (h : Twins ops t t') {k : List UInt8} {v : Option V}
    (hop : FormatStep ops t (.insert k v)) (past past' : Past) (build build' : Build) :
    ∃ u u', RadixTreeIndex.insert past build t k v = .ok u ∧
      RadixTreeIndex.insert past' build' t' k v = .ok u' ∧ Twins (.insert k v :: ops) u u' := by
  obtain ⟨u, hu, htr, hperm, hsize, -⟩ := h.left.insert ⟨hop.1, hop.2⟩ past build
  obtain ⟨u', hu', htr', hperm', hsize', -⟩ := h.right.insert ⟨hop.1, hop.2⟩ past' build'
  refine ⟨u, u', hu, hu', htr, htr', ?_, ?_⟩
  · exact hperm.trans ((graft_perm h.entries _ _).trans hperm'.symm)
  · rw [hsize, hsize', h.size]
    simp only [h.entries.mem_iff]

theorem disable (h : Twins ops t t') {p : List UInt8} (hop : FormatStep ops t (.disable p))
    (past past' : Past) (build build' : Build) :
    ∃ u u' ret, RadixTreeIndex.disable past build t p = .ok (u, ret) ∧
      RadixTreeIndex.disable past' build' t' p = .ok (u', ret) ∧
      Twins (.disable p :: ops) u u' := by
  by_cases hn : t.root = .null
  · have hn' := h.root_eq_null_iff.mp hn
    exact ⟨t, t', 1, artDisable_of_null past build hn p, artDisable_of_null past' build' hn' p,
      h.left.weaken _, h.right.weaken _, h.entries, h.size⟩
  · have hn' := mt h.root_eq_null_iff.mpr hn
    obtain ⟨u, ret, hu, htr, hcase⟩ :=
      h.left.disable hop.1 (readsInside_of_ne_nil hop.2 _) past build
    obtain ⟨u', ret', hu', htr', hcase'⟩ :=
      h.right.disable hop.1 (readsInside_of_ne_nil hop.2 _) past' build'
    have hmark : (∃ q, (q, none) ∈ LightQuery.entries t'.root ∧ q <+: p ∧ q ≠ p) ↔
        ∃ q, (q, none) ∈ LightQuery.entries t.root ∧ q <+: p ∧ q ≠ p := by
      simp only [h.entries.mem_iff]
    rw [hmark] at hcase'
    -- both trees have a shorter mark or both take the new one
    rcases hcase.resolve_left fun hc => hn hc.1 with ⟨hq, rfl, rfl⟩ | ⟨hq, rfl, hperm, hsize⟩
    · rcases hcase'.resolve_left fun hc => hn' hc.1 with ⟨-, rfl, rfl⟩ | ⟨hq', -⟩
      · exact ⟨u, u', -1, hu, hu', htr, htr', h.entries, h.size⟩
      · exact absurd hq hq'
    · rcases hcase'.resolve_left fun hc => hn' hc.1 with ⟨hq', -⟩ | ⟨-, rfl, hperm', hsize'⟩
      · exact absurd hq' hq
      · refine ⟨u, u', 1, hu, hu', htr, htr', ?_, ?_⟩
        · exact hperm.trans ((graft_perm h.entries _ _).trans hperm'.symm)
        · rw [hsize, hsize', h.size, (below_perm h.entries p).length_eq]

theorem removeKey (h : Twins ops t t') (mem mem' : Nat → UInt8) (k : List UInt8) :
    ∃ u u', RadixTreeIndex.removeKey (Past.lenient mem) t k = .ok u ∧
      RadixTreeIndex.removeKey (Past.lenient mem') t' k = .ok u' ∧
      Twins (.removeKey k :: ops) u u' := by
  by_cases hk : ∃ v, (loadKey k, v) ∈ LightQuery.entries t.root
  · obtain ⟨v, hv⟩ := hk
    obtain ⟨u, hu, hwf, hperm, hsize⟩ := artDelete_present (Past.lenient mem) h.left.wf hv
    obtain ⟨u', hu', hwf', hperm', hsize'⟩ :=
      artDelete_present (Past.lenient mem') h.right.wf (h.entries.mem_iff.mp hv)
    refine ⟨u, u', by rw [RadixTreeIndex.removeKey, hu]; rfl,
      by rw [RadixTreeIndex.removeKey, hu']; rfl, ⟨hwf, fun e he => ?_⟩,
      ⟨hwf', fun e he => ?_⟩, ?_, ?_⟩
    · exact (h.left.weaken _).trace e (mem_prune.mp (hperm.mem_iff.mp he)).1
    · exact (h.right.weaken _).trace e (mem_prune.mp (hperm'.mem_iff.mp he)).1
    · exact hperm.trans ((prune_perm h.entries _).trans hperm'.symm)
    · rw [hsize, hsize', h.size]
  · have habs : ∀ e ∈ LightQuery.entries t.root, e.1 ≠ loadKey k := fun e he hek =>
      hk ⟨e.2, hek ▸ he⟩
    have habs' : ∀ e ∈ LightQuery.entries t'.root, e.1 ≠ loadKey k := fun e he =>
      habs e (h.entries.mem_iff.mpr he)
    exact ⟨t, t', by rw [RadixTreeIndex.removeKey, artDelete_absent mem h.left.wf habs]; rfl,
      by rw [RadixTreeIndex.removeKey, artDelete_absent mem' h.right.wf habs']; rfl,
      h.left.weaken _, h.right.weaken _, h.entries, h.size⟩

/-- **Step lemma**: a call leaves twins twins, whatever the builds and the bytes
past the key are. -/
theorem exec (h : Twins ops t t') {op : IndexOp V} (hop : FormatStep ops t op)
    (mem mem' : Nat → UInt8) (build build' : Build) :
    ∃ u u', op.exec (Past.lenient mem) build t = .ok u ∧
      op.exec (Past.lenient mem') build' t' = .ok u' ∧ Twins (op :: ops) u u' := by
  cases op with
  | insert k v => exact h.insert hop _ _ build build'
  | disable p =>
      obtain ⟨u, u', ret, hu, hu', htw⟩ :=
        h.disable hop (Past.lenient mem) (Past.lenient mem') build build'
      exact ⟨u, u', by rw [IndexOp.exec, hu]; rfl, by rw [IndexOp.exec, hu']; rfl, htw⟩
  | removeKey k => exact h.removeKey mem mem' k

end Twins

/-- **Run lemma**: two runs of the same calls lead to twins. -/
theorem twins_of_runs {build build' : Build} {ops : List (IndexOp V)} {t t' : ArtTree V}
    (h : Run build FormatStep ops t) (h' : Run build' FormatStep ops t') : Twins ops t t' := by
  induction h generalizing t' with
  | init =>
      cases h'
      exact ⟨.init, .init, List.Perm.refl _, rfl⟩
  | step mem h hop hexec ih =>
      cases h' with
      | step mem' h' hop' hexec' =>
          obtain ⟨u, u', hu, hu', htw⟩ := (ih h').exec hop mem mem' build build'
          rw [hexec] at hu
          rw [hexec'] at hu'
          cases hu
          cases hu'
          exact htw

/-- **The build and the bytes past the keys make no difference.**  After the
same calls the trees of two runs, of one build or of both, are alike, count the
same and answer every call alike. -/
theorem alike_of_runs {build build' : Build} {ops : List (IndexOp V)} {t t' : ArtTree V}
    (h : Run build FormatStep ops t) (h' : Run build' FormatStep ops t') :
    t.Alike t' ∧ SameCalls t t' := by
  have htw := twins_of_runs h h'
  exact ⟨htw.alike, htw.alike.sameCalls htw.left.wf htw.right.wf⟩

/-- The keys [1], [2], [3], [4] and [200], in this order. -/
def fiveKeys : List (IndexOp Nat) :=
  [.insert [200] (some 50), .insert [4] (some 40), .insert [3] (some 30), .insert [2] (some 20),
    .insert [1] (some 10)]

theorem run_fiveKeys (build : Build) :
    Run build FormatStep fiveKeys (replay (fun _ => 7) build fiveKeys) := by
  have hformat : ∀ (ops : List (IndexOp Nat)) (k : UInt8) (v : Option Nat),
      (∀ op ∈ ops, ∃ k' v', op = .insert [k'] v') →
      ∀ t, FormatStep ops t (.insert [k] v) := by
    intro ops k v hops t
    refine ⟨⟨fun k' v' hk' => ?_, fun p hp => ?_⟩, fun p hp => ?_⟩
    · obtain ⟨b, w, hop⟩ := hops _ hk'
      obtain ⟨rfl, rfl⟩ := IndexOp.insert.inj hop
      by_cases hb : b = k
      · exact .inl (by rw [hb])
      · exact .inr (by simp [Incomparable, loadKey, hb, Ne.symm hb])
    · obtain ⟨b, w, hop⟩ := hops _ hp
      cases hop
    · obtain ⟨b, w, hop⟩ := hops _ hp
      cases hop
  have h0 : Run build FormatStep [] (replay (fun _ => 7) build ([] : List (IndexOp Nat))) := .init
  have h1 := h0.replay_step (.insert [1] (some 10)) (hformat _ _ _ (by simp) _)
    (by cases build <;> decide +kernel)
  have h2 := h1.replay_step (.insert [2] (some 20)) (hformat _ _ _ (by simp) _)
    (by cases build <;> decide +kernel)
  have h3 := h2.replay_step (.insert [3] (some 30)) (hformat _ _ _ (by simp) _)
    (by cases build <;> decide +kernel)
  have h4 := h3.replay_step (.insert [4] (some 40)) (hformat _ _ _ (by simp) _)
    (by cases build <;> decide +kernel)
  exact h4.replay_step (.insert [200] (some 50)) (hformat _ _ _ (by simp) _)
    (by cases build <;> decide +kernel)

/-- The two builds order the five keys differently, and `alike_of_runs` applies:
no call tells their trees apart. -/
theorem alike_of_runs_five_keys :
    (leaves (replay (fun _ => 7) .sse2 fiveKeys).root).map ArtLeaf.value ≠
      (leaves (replay (fun _ => 7) .portable fiveKeys).root).map ArtLeaf.value ∧
    SameCalls (replay (fun _ => 7) .sse2 fiveKeys) (replay (fun _ => 7) .portable fiveKeys) :=
  ⟨by decide +kernel, (alike_of_runs (run_fiveKeys .sse2) (run_fiveKeys .portable)).2⟩

/-! ## no memory of the history -/

namespace Refines

variable {t t' : ArtTree V} {m m' : MapIndex V}

/-- A mark of one tree is a mark of the other where both maps cover the same
addresses. -/
theorem mark_of_covers (h : Refines t m) (h' : Refines t' m')
    (hcov : ∀ a, m.Covers a ↔ m'.Covers a) {q : List UInt8} (hq : (q, none) ∈ entries t.root) :
    (q, none) ∈ entries t'.root := by
  obtain ⟨r, hr, hrq⟩ := h'.covers_iff.mp ((hcov q).mp (h.covers_iff.mpr ⟨q, hq, List.prefix_rfl⟩))
  obtain ⟨s, hs, hsr⟩ := h.covers_iff.mp ((hcov r).mpr (h'.covers_iff.mpr ⟨r, hr, List.prefix_rfl⟩))
  -- the least mark above `q` is `q` itself
  obtain rfl : s = q := congrArg Prod.fst (h.wf.prefixFree.eq_of_le hs hq (hsr.trans hrq))
  have hqr : r = s := hrq.eq_of_length (Nat.le_antisymm hrq.length_le hsr.length_le)
  exact hqr ▸ hr

theorem mem_of_same (h : Refines t m) (h' : Refines t' m') (hlive : ∀ e, e ∈ m.live ↔ e ∈ m'.live)
    (hcov : ∀ a, m.Covers a ↔ m'.Covers a) {e : List UInt8 × Option V}
    (he : e ∈ entries t.root) : e ∈ entries t'.root := by
  obtain ⟨q, o⟩ := e
  cases o with
  | none => exact h.mark_of_covers h' hcov he
  | some v =>
      obtain ⟨a, rfl, ha⟩ := h.exists_of_live he
      exact h'.mem_live_iff.mp ((hlive _).mp ha)

/-- **A tree is determined by the map that it refines.** -/
theorem alike (h : Refines t m) (h' : Refines t' m') (hlive : ∀ e, e ∈ m.live ↔ e ∈ m'.live)
    (hcov : ∀ a, m.Covers a ↔ m'.Covers a) : LightQuery.Alike t.root t'.root := by
  refine (h.wf.alike_iff h'.wf).mpr ?_
  refine (List.perm_ext_iff_of_nodup h.wf.prefixFree.nodup h'.wf.prefixFree.nodup).mpr fun e => ?_
  exact ⟨h.mem_of_same h' hlive hcov,
    h'.mem_of_same h (fun e => (hlive e).symm) fun a => (hcov a).symm⟩

/-- Two maps of one content are equally large. -/
theorem size_eq (h : Refines t m) (h' : Refines t' m') (hlive : ∀ e, e ∈ m.live ↔ e ∈ m'.live) :
    m.size = m'.size :=
  ((List.perm_ext_iff_of_nodup (List.Nodup.of_map _ h.nodup_keys)
    (List.Nodup.of_map _ h'.nodup_keys)).mpr hlive).length_eq

end Refines

/-- **The tree of a map has no history.**  Runs of inserts and removals that
leave the same value for every key lead to alike trees of one size, whatever the
order of the calls, the builds and the keys that were stored in between. -/
theorem alike_of_same_map {build build' : Build} {ops ops' : List (IndexOp V)} {t t' : ArtTree V}
    (h : Run build MapStep ops t) (h' : Run build' MapStep ops' t')
    (hsame : ∀ k, valueAfter ops k = valueAfter ops' k) : t.Alike t' ∧ SameCalls t t' := by
  obtain ⟨href, hdis, hsize⟩ := refines_of_mapRun h
  obtain ⟨href', hdis', hsize'⟩ := refines_of_mapRun h'
  have hlive : ∀ e, e ∈ (mapOf ops).live ↔ e ∈ (mapOf ops').live := fun e =>
    ⟨fun he => mem_live_of_mapRun h' (hsame e.1 ▸ valueAfter_of_mem_live he),
      fun he => mem_live_of_mapRun h ((hsame e.1).symm ▸ valueAfter_of_mem_live he)⟩
  have halike : t.Alike t' := by
    refine ⟨href.alike href' hlive fun a => ?_, ?_⟩
    · simp only [MapIndex.Covers, hdis, hdis']
    · rw [hsize, hsize', href.size_eq href' hlive]
  exact ⟨halike, halike.sameCalls href.wf href'.wf⟩

/-- A key that comes and goes, and two keys in either order: the hypotheses of
`alike_of_same_map` can be met. -/
theorem alike_of_same_map_two_orders :
    SameCalls
      (replay (fun _ => 7) .sse2 [.removeKey [9], .insert [200] (some 20), .insert [9] (some 30),
        .insert [1, 2] (some (10 : Nat))])
      (replay (fun _ => 8) .portable [.insert [1, 2] (some 10), .insert [200] (some (20 : Nat))]) := by
  have h0 : Run .sse2 MapStep [] (replay (fun _ => 7) .sse2 ([] : List (IndexOp Nat))) := .init
  have h1 := h0.replay_step (.insert [1, 2] (some 10)) ⟨by simp, rfl⟩ (by decide +kernel)
  have h2 := h1.replay_step (.insert [9] (some 30))
    ⟨by simp [IndexOp.key, Incomparable, loadKey], rfl⟩ (by decide +kernel)
  have h3 := h2.replay_step (.insert [200] (some 20))
    ⟨by simp [IndexOp.key, Incomparable, loadKey], rfl⟩ (by decide +kernel)
  have h4 := h3.replay_step (.removeKey [9])
    ⟨by simp [IndexOp.key, Incomparable, loadKey], trivial⟩ (by decide +kernel)
  have g0 : Run .portable MapStep [] (replay (fun _ => 8) .portable ([] : List (IndexOp Nat))) :=
    .init
  have g1 := g0.replay_step (.insert [200] (some 20)) ⟨by simp, rfl⟩ (by decide +kernel)
  have g2 := g1.replay_step (.insert [1, 2] (some 10))
    ⟨by simp [IndexOp.key, Incomparable, loadKey], rfl⟩ (by decide +kernel)
  refine (alike_of_same_map h4 g2 fun k => ?_).2
  by_cases h9 : [9] = k
  · subst h9
    decide
  · by_cases h200 : [200] = k
    · subst h200
      decide
    · simp [valueAfter, h9, h200]

/-- **The tree of the actors has no history.**  Runs of inserts on a miss and of
disables on a tree that is not empty lead to alike trees where the same scopes
are disabled and outside of them the same values were inserted.  Only `get_size`
may tell them apart. -/
theorem alike_of_same_scopes {build build' : Build} {ops ops' : List (IndexOp V)}
    {t t' : ArtTree V} (h : Run build DispatchStep ops t) (h' : Run build' DispatchStep ops' t')
    (hcov : ∀ a, (∃ p, .disable p ∈ ops ∧ p <+: a) ↔ ∃ p, .disable p ∈ ops' ∧ p <+: a)
    (hsame : ∀ a, (¬ ∃ p, .disable p ∈ ops ∧ p <+: a) → valueAfter ops a = valueAfter ops' a) :
    LightQuery.Alike t.root t'.root ∧ SameReads t t' := by
  have href := refines_of_dispatch h
  have href' := refines_of_dispatch h'
  have hcov' : ∀ a, (mapOf ops).Covers a ↔ (mapOf ops').Covers a := fun a => by
    rw [covers_mapOf, covers_mapOf, hcov]
  suffices halike : LightQuery.Alike t.root t'.root from
    ⟨halike, halike.sameReads href.wf href'.wf⟩
  refine href.alike href' (fun e => ⟨fun he => ?_, fun he => ?_⟩) hcov'
  · have hc := href.not_covers (v := e.2) he
    have hv := valueAfter_of_mem_live (v := e.2) he
    rw [hsame e.1 (mt covers_mapOf.mpr hc)] at hv
    exact mem_live_of_dispatch h' hv (mt (hcov' e.1).mpr hc)
  · have hc := mt (hcov' e.1).mp (href'.not_covers (v := e.2) he)
    have hv := valueAfter_of_mem_live (v := e.2) he
    rw [← hsame e.1 (mt covers_mapOf.mpr hc)] at hv
    exact mem_live_of_dispatch h hv hc

/-- A scope disabled at once, and in two calls before its actor was there: the
hypotheses of `alike_of_same_scopes` can be met. -/
theorem alike_of_same_scopes_two_calls :
    SameReads
      (replay (fun _ => 7) .sse2
        [.disable [1], .insert [3, 4] (some 20), .insert [1, 2] (some (10 : Nat))])
      (replay (fun _ => 8) .portable
        [.disable [1], .disable [1, 7], .insert [3, 4] (some (20 : Nat))]) := by
  have h0 : Run .sse2 DispatchStep [] (replay (fun _ => 7) .sse2 ([] : List (IndexOp Nat))) := .init
  have h1 := h0.replay_step (.insert [1, 2] (some 10))
    ⟨⟨by simp, by simp⟩, rfl, fun _ => 7, none, by decide +kernel⟩ (by decide +kernel)
  have h2 := h1.replay_step (.insert [3, 4] (some 20))
    ⟨⟨by simp [Incomparable, loadKey], by simp⟩, rfl, fun _ => 7, none, by decide +kernel⟩
    (by decide +kernel)
  have h3 := h2.replay_step (.disable [1])
    ⟨fun k v hk => by
      simp only [List.mem_cons, IndexOp.insert.injEq, List.not_mem_nil, or_false] at hk
      rcases hk with ⟨rfl, -⟩ | ⟨rfl, -⟩ <;> decide,
      by simp, ne_null_of_isNull (by decide +kernel)⟩ (by decide +kernel)
  have g0 : Run .portable DispatchStep [] (replay (fun _ => 8) .portable ([] : List (IndexOp Nat))) :=
    .init
  have g1 := g0.replay_step (.insert [3, 4] (some 20))
    ⟨⟨by simp, by simp⟩, rfl, fun _ => 7, none, by decide +kernel⟩ (by decide +kernel)
  have g2 := g1.replay_step (.disable [1, 7])
    ⟨by simp [AddressFormat, loadKey], by simp, ne_null_of_isNull (by decide +kernel)⟩
    (by decide +kernel)
  have g3 := g2.replay_step (.disable [1])
    ⟨by simp [AddressFormat, loadKey], by simp, ne_null_of_isNull (by decide +kernel)⟩
    (by decide +kernel)
  refine (alike_of_same_scopes h3 g3 (fun a => ?_) fun a ha => ?_).2
  · simp only [List.mem_cons, IndexOp.disable.injEq, reduceCtorEq, List.not_mem_nil, or_false,
      exists_eq_left]
    constructor
    · exact fun h => ⟨[1], .inl rfl, h⟩
    · rintro ⟨p, rfl | rfl, hp⟩
      · exact hp
      · exact (by decide : ([1] : List UInt8) <+: [1, 7]).trans hp
  · have h12 : [1, 2] ≠ a := by
      rintro rfl
      exact ha ⟨[1], List.mem_cons_self, by decide⟩
    simp [valueAfter, h12]

end LightQuery
