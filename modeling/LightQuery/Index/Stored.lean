import LightQuery.Art.Split
import LightQuery.Index.Runs

/-!
# LightQuery.Index.Stored

Runs of inserts and removals with any values, NULL included, and the entries
of the tree after them.

`Stores` says that the entries are the stored keys with their values, and holds
as long as no key is another one followed by a zero byte and more.  An insert
of such a key splits at a byte that one of the two keys does not have
(`splitsApart_iff`).
-/

namespace LightQuery

open PrefixFamily

variable {V : Type}

/-! ## what is stored -/

/-- What is stored for a key, NULL included, after the calls. -/
def storedAfter : List (IndexOp V) → List UInt8 → Option (Option V)
  | [], _ => none
  | .insert k v :: ops, key => if k = key then some v else storedAfter ops key
  | .removeKey k :: ops, key => if k = key then none else storedAfter ops key
  | .disable _ :: ops, key => storedAfter ops key

/-- The entries of the tree are the stored keys with their values. -/
structure Stores (ops : List (IndexOp V)) (t : ArtTree V) : Prop where
  wf : t.WF
  mem : ∀ e, e ∈ entries t.root ↔ ∃ k, e.1 = loadKey k ∧ storedAfter ops k = some e.2

/-- What is stored was inserted. -/
theorem exists_insert_of_storedAfter {ops : List (IndexOp V)} {k : List UInt8} {v : Option V}
    (h : storedAfter ops k = some v) : .insert k v ∈ ops := by
  induction ops with
  | nil => cases h
  | cons op ops ih =>
      rcases op with ⟨k', w⟩ | q | k'
      · rw [storedAfter] at h
        split at h
        · next hk => rw [hk, Option.some.inj h]; exact List.mem_cons_self
        · exact List.mem_cons_of_mem _ (ih h)
      · exact List.mem_cons_of_mem _ (ih h)
      · rw [storedAfter] at h
        split at h
        · cases h
        · exact List.mem_cons_of_mem _ (ih h)

/-- Removing a key leaves a part of the entries. -/
theorem removeKey_mem {t : ArtTree V} (h : t.WF) (mem : Nat → UInt8) (k : List UInt8) :
    ∃ t', RadixTreeIndex.removeKey (Past.lenient mem) t k = .ok t' ∧ t'.WF ∧
      ∀ e, e ∈ entries t'.root ↔ e ∈ entries t.root ∧ e.1 ≠ loadKey k := by
  by_cases hk : ∃ v, (loadKey k, v) ∈ entries t.root
  · obtain ⟨v, hv⟩ := hk
    obtain ⟨t', hrun, hwf, hperm, -⟩ := artDelete_present (Past.lenient mem) h hv
    refine ⟨t', by rw [RadixTreeIndex.removeKey, hrun]; rfl, hwf, fun e => ?_⟩
    rw [hperm.mem_iff, mem_prune]
    refine and_congr_right fun he => not_congr ⟨fun hke => ?_, fun hek => hek ▸ List.prefix_rfl⟩
    exact (congrArg Prod.fst (h.prefixFree.eq_of_le hv he hke)).symm
  · have habs : ∀ e ∈ entries t.root, e.1 ≠ loadKey k := fun e he hek => hk ⟨e.2, hek ▸ he⟩
    refine ⟨t, by rw [RadixTreeIndex.removeKey, artDelete_absent mem h habs]; rfl, h, fun e => ?_⟩
    exact ⟨fun he => ⟨he, habs e he⟩, And.left⟩

namespace Stores

variable {ops : List (IndexOp V)} {t : ArtTree V}

theorem init : Stores ([] : List (IndexOp V)) ArtTree.init :=
  ⟨.inl rfl, by simp [ArtTree.init, storedAfter]⟩

/-- A key that is incomparable to the other stored ones is stored. -/
theorem insert (h : Stores ops t) {k : List UInt8} (v : Option V)
    (hkey : ∀ e ∈ entries t.root, e.1 = loadKey k ∨ Incomparable e.1 (loadKey k)) (past : Past)
    (build : Build) :
    ∃ t', RadixTreeIndex.insert past build t k v = .ok t' ∧ Stores (.insert k v :: ops) t' := by
  obtain ⟨t', old, hrun, hwf, hperm, -⟩ := artInsert_spec past build h.wf hkey v
  refine ⟨t', by rw [RadixTreeIndex.insert, hrun]; rfl, hwf, fun e => ?_⟩
  rw [hperm.mem_iff, mem_graft, h.mem]
  constructor
  · rintro (rfl | ⟨⟨k', hk', hv⟩, hne⟩)
    · exact ⟨k, rfl, by rw [storedAfter, if_pos rfl]⟩
    · refine ⟨k', hk', ?_⟩
      rw [storedAfter, if_neg, hv]
      rintro rfl
      exact hne (hk' ▸ List.prefix_rfl)
  · rintro ⟨k', hk', hv⟩
    rw [storedAfter] at hv
    split at hv
    · next hkk =>
        subst hkk
        exact .inl (Prod.ext hk' (Option.some.inj hv).symm)
    · next hkk =>
        refine .inr ⟨⟨k', hk', hv⟩, fun hpre => ?_⟩
        rcases hkey e ((h.mem e).mpr ⟨k', hk', hv⟩) with heq | hinc
        · exact hkk (loadKey_inj.mp (hk' ▸ heq)).symm
        · exact hinc.2 hpre

/-- A key is removed. -/
theorem removeKey (h : Stores ops t) (mem : Nat → UInt8) (k : List UInt8) :
    ∃ t', RadixTreeIndex.removeKey (Past.lenient mem) t k = .ok t' ∧
      Stores (.removeKey k :: ops) t' := by
  obtain ⟨t', hrun, hwf, hmem⟩ := removeKey_mem h.wf mem k
  refine ⟨t', hrun, hwf, fun e => ?_⟩
  rw [hmem, h.mem]
  constructor
  · rintro ⟨⟨k', hk', hv⟩, hne⟩
    refine ⟨k', hk', ?_⟩
    rw [storedAfter, if_neg, hv]
    rintro rfl
    exact hne hk'
  · rintro ⟨k', hk', hv⟩
    rw [storedAfter] at hv
    split at hv
    · cases hv
    · next hkk =>
        refine ⟨⟨k', hk', hv⟩, fun heq => hkk ?_⟩
        exact (loadKey_inj.mp (hk' ▸ heq)).symm

end Stores

/-! ## the bytes at which an insert splits -/

/-- The insert calls of keys and values, newest first. -/
def inserts (kvs : List (List UInt8 × Option V)) : List (IndexOp V) :=
  kvs.map fun kv => .insert kv.1 kv.2

/-- Every split of the inserts, in whatever tree the earlier ones leave, takes
branch bytes that lie inside the keys and differ, whatever is read past a key. -/
def SplitsApart (build : Build) (kvs : List (List UInt8 × Option V)) : Prop :=
  ∀ k v earlier, (k, v) :: earlier <:+ kvs →
    ∀ t, Run build (fun _ _ _ => True) (inserts earlier) t →
      ∀ mem r s, tracedInsert (Past.lenient mem) build (loadKey k) v t.root 0 = .ok (r, some s) →
        s.Apart (loadKey k)

/-- Neither key is the other one followed by a zero byte and more. -/
def Separate (a b : List UInt8) : Prop := ¬ loadKey a <+: b ∧ ¬ loadKey b <+: a

theorem separate_iff {a b : List UInt8} :
    Separate a b ↔ a = b ∨ Incomparable (loadKey a) (loadKey b) := by
  have hab := proper_prefix_loadKey (p := loadKey a) (a := b)
  have hba := proper_prefix_loadKey (p := loadKey b) (a := a)
  by_cases heq : a = b
  · subst heq
    refine iff_of_true ⟨fun h => ?_, fun h => ?_⟩ (.inl rfl)
    · exact (hab.mpr h).2 rfl
    · exact (hba.mpr h).2 rfl
  · have hne := mt loadKey_inj.mp heq
    rw [Separate, Incomparable, ← hab, ← hba]
    simp only [heq, hne, Ne.symm hne, ne_eq, not_false_eq_true, and_true, false_or]

theorem exists_storedAfter_inserts {kvs : List (List UInt8 × Option V)}
    {kv : List UInt8 × Option V} (h : kv ∈ kvs) :
    ∃ v, storedAfter (inserts kvs) kv.1 = some v := by
  induction kvs with
  | nil => cases h
  | cons kv' kvs ih =>
      show ∃ v, (if kv'.1 = kv.1 then some kv'.2 else storedAfter (inserts kvs) kv.1) = some v
      split
      · exact ⟨_, rfl⟩
      · next hne =>
          rcases List.mem_cons.mp h with rfl | h
          · exact absurd rfl hne
          · exact ih h

/-- The entries of the tree and the inserted keys are separate from a key together. -/
theorem Stores.separate_iff {kvs : List (List UInt8 × Option V)} {t : ArtTree V}
    (h : Stores (inserts kvs) t) (k : List UInt8) :
    (∀ e ∈ entries t.root, e.1 = loadKey k ∨ Incomparable e.1 (loadKey k)) ↔
      ∀ kv ∈ kvs, Separate k kv.1 := by
  constructor
  · intro hkey kv hkv
    obtain ⟨v, hv⟩ := exists_storedAfter_inserts hkv
    rw [LightQuery.separate_iff]
    have he := hkey (loadKey kv.1, v) ((h.mem _).mpr ⟨kv.1, rfl, hv⟩)
    exact he.imp (fun heq => (loadKey_inj.mp heq).symm) fun hinc => hinc.symm
  · intro hsep e he
    obtain ⟨k', hk', hv⟩ := (h.mem e).mp he
    obtain ⟨kv, hkv, heq⟩ := List.mem_map.mp (exists_insert_of_storedAfter hv)
    obtain ⟨rfl, -⟩ := IndexOp.insert.inj heq
    rw [hk']
    have := LightQuery.separate_iff.mp (hsep kv hkv)
    exact this.imp (fun heq => by rw [heq]) fun hinc => hinc.symm

/-- **After separate inserts every inserted key is stored**, and the inserts
can be made. -/
theorem stores_of_inserts {build : Build} {kvs : List (List UInt8 × Option V)}
    (hsep : kvs.Pairwise fun a b => Separate a.1 b.1) :
    (∃ t, Run build (fun _ _ _ => True) (inserts kvs) t) ∧
      ∀ t, Run build (fun _ _ _ => True) (inserts kvs) t → Stores (inserts kvs) t := by
  induction kvs with
  | nil =>
      refine ⟨⟨_, .init⟩, fun t ht => ?_⟩
      cases ht
      exact .init
  | cons kv kvs ih =>
      obtain ⟨hkv, hsep⟩ := List.pairwise_cons.mp hsep
      obtain ⟨⟨t, ht⟩, hst⟩ := ih hsep
      have hstep : ∀ {t} (_ : Run build (fun _ _ _ => True) (inserts kvs) t) (mem : Nat → UInt8),
          ∃ t', RadixTreeIndex.insert (Past.lenient mem) build t kv.1 kv.2 = .ok t' ∧
            Stores (inserts (kv :: kvs)) t' := fun {t} ht mem =>
        (hst t ht).insert kv.2 (((hst t ht).separate_iff kv.1).mpr hkv) _ build
      constructor
      · obtain ⟨t', hrun, -⟩ := hstep ht fun _ => 0
        exact ⟨t', .step (fun _ => 0) ht trivial hrun⟩
      · intro t' ht'
        cases ht' with
        | step mem ht hop hexec =>
            obtain ⟨t'', hrun, hst'⟩ := hstep ht mem
            rw [IndexOp.exec, hrun] at hexec
            cases hexec
            exact hst'

/-- **The terminator separates the keys of a sequence of inserts** if and only
if none of them is another one followed by a zero byte and more. -/
theorem splitsApart_iff (build : Build) (kvs : List (List UInt8 × Option V)) :
    SplitsApart build kvs ↔ kvs.Pairwise fun a b => Separate a.1 b.1 := by
  constructor
  · intro hall
    induction kvs with
    | nil => exact List.Pairwise.nil
    | cons kv kvs ih =>
        have hsep := ih fun k v earlier hsuf => hall k v earlier (hsuf.trans (List.suffix_cons _ _))
        obtain ⟨hrun, hst⟩ := stores_of_inserts hsep
        obtain ⟨t, ht⟩ : ∃ t, Run build (fun _ _ _ => True) (inserts kvs) t := hrun
        refine List.pairwise_cons.mpr ⟨((hst t ht).separate_iff kv.1).mp ?_, hsep⟩
        rcases (hst t ht).wf with hnull | hwf
        · rw [hnull]
          simp
        · exact (apart_iff build hwf List.nil_prefix kv.2).mp
            (hall kv.1 kv.2 kvs List.suffix_rfl t ht)
  · intro hsep k v earlier hsuf t ht mem r s hrun
    obtain ⟨hk, hsep⟩ := List.pairwise_cons.mp (hsep.sublist hsuf.sublist)
    have hst := (stores_of_inserts hsep).2 t ht
    rcases hst.wf with hnull | hwf
    · rw [hnull, tracedInsert] at hrun
      cases hrun
    · exact apart_of_incomparable _ build hwf List.nil_prefix ((hst.separate_iff k).mpr hk) v hrun

/-- The key [1, 0] after the key [1]: their terminated forms part at a byte
that the first of them does not have. -/
theorem splits_past_the_terminator :
    ¬ ∀ kvs : List (List UInt8 × Option Nat), SplitsApart .sse2 kvs := by
  intro hall
  have h0 : Run .sse2 (fun _ _ _ => True) [] (replay (fun _ => 7) .sse2 ([] : List (IndexOp Nat))) :=
    .init
  have h1 := h0.replay_step (.insert [1] (some 10)) trivial (by decide +kernel)
  have hsplit : ∃ r s, tracedInsert (Past.lenient fun _ => 7) .sse2 (loadKey [1, 0]) (some 20)
      (replay (fun _ => 7) .sse2 [.insert [1] (some (10 : Nat))]).root 0 = .ok (r, some s) ∧
      s.index = 2 ∧ (entries s.below).map Prod.fst = [[1, 0]] := ⟨_, _, rfl, rfl, rfl⟩
  obtain ⟨r, s, hrun, hindex, hbelow⟩ := hsplit
  have hapart := hall [([1, 0], some 20), ([1], some 10)] [1, 0] (some 20) [([1], some 10)]
    List.suffix_rfl _ h1 (fun _ => 7) r s hrun
  obtain ⟨e, he, hkey⟩ := List.mem_map.mp (show [1, 0] ∈ (entries s.below).map Prod.fst by
    rw [hbelow]; exact List.mem_singleton_self _)
  have hbyte := hapart.1 e he
  rw [hkey, hindex] at hbyte
  cases hbyte

end LightQuery
