import LightQuery.Art.DeletePrefix
import LightQuery.Art.Disable
import LightQuery.Index.Map

/-!
# LightQuery.Index.Refine

`radix_tree_index` and the map that it refines.

The index stores a key with a NUL byte after it (`loadKey`) and takes a prefix
as it is (`loadPrefix`).  `Refines` relates a tree to a `MapIndex`: the live
leaves are the stored addresses, and every disabled prefix has a mark at or
above it.  One theorem for each operation says that it keeps the relation.
-/

namespace LightQuery

open PrefixFamily

variable {V : Type}

/-! ## radix_tree_index -/

/-- `loadKey`. -/
def loadKey (key : List UInt8) : List UInt8 := key ++ [0]

namespace RadixTreeIndex

/-- `remove_key`. -/
def removeKey (past : Past) (t : ArtTree V) (key : List UInt8) : Except Fault (ArtTree V) := do
  let (t, _) ← artDelete past t (loadKey key)
  .ok t

/-- `remove_prefix`. -/
def removePrefix (past : Past) (t : ArtTree V) (key : List UInt8) :
    Except Fault (ArtTree V × Nat) :=
  artDeletePrefix past t key

/-- `get`. -/
def get (past : Past) (t : ArtTree V) (key : List UInt8) : Except Fault (Option V) :=
  artSearch past t (loadKey key)

/-- `insert`. -/
def insert (past : Past) (build : Build) (t : ArtTree V) (key : List UInt8) (value : Option V) :
    Except Fault (ArtTree V) := do
  let (t, _) ← artInsert past build t (loadKey key) value
  .ok t

/-- `contains`. -/
def contains (past : Past) (t : ArtTree V) (key : List UInt8) : Except Fault Bool := do
  let v ← artSearch past t (loadKey key)
  .ok v.isSome

/-- `disable`. -/
def disable (past : Past) (build : Build) (t : ArtTree V) (key : List UInt8) :
    Except Fault (ArtTree V × Int) :=
  artDisable past build t key

/-- `lookup`: the code and what is stored in `*ret_ptr`. -/
def lookup (past : Past) (t : ArtTree V) (key : List UInt8) : Except Fault (Int × Option V) :=
  artLookup past t (loadKey key)

/-- `iter_prefix_apply(key, key_length, apply, data)`. -/
def iterPrefixApply (past : Past) (t : ArtTree V) (key : List UInt8) : Except Fault (List V) :=
  artIterActivePrefix past t key

/-- `iter_prefix_apply(apply, data)`. -/
def iterApply (t : ArtTree V) : List V := artIterActive t

/-- `get_size`. -/
def getSize (t : ArtTree V) : Int := t.size

end RadixTreeIndex

/-! ## terminated keys -/

theorem loadKey_inj {a b : List UInt8} : loadKey a = loadKey b ↔ a = b :=
  List.append_left_inj [0]

theorem length_loadKey (a : List UInt8) : (loadKey a).length = a.length + 1 := by simp [loadKey]

/-- A prefix of a terminated key is a prefix of the key or all of it. -/
theorem prefix_loadKey {p a : List UInt8} : p <+: loadKey a ↔ p <+: a ∨ p = loadKey a := by
  rw [loadKey, List.prefix_concat_iff, or_comm]

/-- The proper prefixes of a terminated key are the prefixes of the key. -/
theorem proper_prefix_loadKey {p a : List UInt8} :
    (p <+: loadKey a ∧ p ≠ loadKey a) ↔ p <+: a := by
  rw [prefix_loadKey]
  refine ⟨fun h => h.1.resolve_right h.2, fun h => ⟨.inl h, ?_⟩⟩
  rintro rfl
  have := h.length_le
  rw [length_loadKey] at this
  omega

/-! ## the relation -/

/-- The live entries of a family, without the marks. -/
def liveEntries (F : List (List UInt8 × Option V)) : List (List UInt8 × V) :=
  F.filterMap fun e => e.2.map fun v => (e.1, v)

theorem mem_liveEntries {F : List (List UInt8 × Option V)} {q : List UInt8} {v : V} :
    (q, v) ∈ liveEntries F ↔ (q, some v) ∈ F := by
  simp only [liveEntries, List.mem_filterMap, Option.map_eq_some_iff, Prod.mk.injEq]
  constructor
  · rintro ⟨⟨q', o⟩, he, v', ho, rfl, rfl⟩
    have ho' : o = some v' := ho
    exact ho' ▸ he
  · intro h
    exact ⟨(q, some v), h, v, rfl, rfl, rfl⟩

theorem liveEntries_perm {F G : List (List UInt8 × Option V)} (h : F.Perm G) :
    (liveEntries F).Perm (liveEntries G) := h.filterMap _

theorem live_eq_map (F : List (List UInt8 × Option V)) : live F = (liveEntries F).map Prod.snd := by
  rw [live, liveEntries, List.map_filterMap]
  refine List.filterMap_congr fun e _ => ?_
  cases e.2 <;> rfl

theorem liveEntries_filter (F : List (List UInt8 × Option V)) (f : List UInt8 → Bool) :
    liveEntries (F.filter fun e => f e.1) = (liveEntries F).filter fun e => f e.1 := by
  induction F with
  | nil => rfl
  | cons e F ih =>
      obtain ⟨q, o⟩ := e
      cases hq : f q <;> cases o <;> simp_all [liveEntries]

/-- Disable a prefix of terminated keys: a key that the prefix ends with its
NUL byte is forgotten as well. -/
def MapIndex.cut (m : MapIndex V) (p : List UInt8) : MapIndex V :=
  ⟨m.live.filter fun e => !decide (p <+: loadKey e.1), p :: m.disabled⟩

/-- A graft replaces the live entries below its key. -/
theorem liveEntries_graft (F : List (List UInt8 × Option V)) (p : List UInt8) (o : Option V) :
    liveEntries (graft F p o) = (o.map (Prod.mk p)).toList ++
      (liveEntries F).filter fun e => !decide (p <+: e.1) := by
  rw [← liveEntries_filter F fun q => !decide (p <+: q), graft, prune]
  cases o <;> rfl

/-- A tree with a grafted entry is not empty. -/
theorem ne_null_of_graft {n : ArtNode V} {F : List (List UInt8 × Option V)} {p : List UInt8}
    {o : Option V} (h : (entries n).Perm (graft F p o)) : n ≠ .null := by
  rintro rfl
  exact absurd h.length_eq (by simp [graft])

/-- Two families keep the same entries for equivalent reasons. -/
theorem not_decide_congr {p q : Prop} [Decidable p] [Decidable q] (h : p ↔ q) :
    (!decide p) = !decide q := by
  rw [decide_eq_decide.mpr h]

theorem MapIndex.cut_eq_disable {m : MapIndex V} {p : List UInt8}
    (h : ∀ b w, (b, w) ∈ m.live → loadKey b ≠ p) : m.cut p = m.disable p := by
  rw [cut, disable]
  congr 1
  refine List.filter_congr fun e he => not_decide_congr (prefix_loadKey.trans ?_)
  exact ⟨fun hp => hp.resolve_right fun hkey => h e.1 e.2 he hkey.symm, .inl⟩

/-- The tree has the live entries of the map, a mark at or above every disabled
prefix, and no other mark. -/
structure Refines (t : ArtTree V) (m : MapIndex V) : Prop where
  wf : t.WF
  live : (liveEntries (entries t.root)).Perm (m.live.map fun e => (loadKey e.1, e.2))
  mark : ∀ q, (q, none) ∈ entries t.root → q ∈ m.disabled
  cover : ∀ p ∈ m.disabled, ∃ q, (q, none) ∈ entries t.root ∧ q <+: p

theorem refines_init : Refines (ArtTree.init : ArtTree V) MapIndex.empty where
  wf := .inl rfl
  live := List.Perm.refl _
  mark := by simp [ArtTree.init]
  cover := by simp [MapIndex.empty]

/-- The marks of a tree. -/
def marks (t : ArtTree V) : List (List UInt8) :=
  ((entries t.root).filter fun e => e.2.isNone).map Prod.fst

theorem mem_marks {t : ArtTree V} {q : List UInt8} : q ∈ marks t ↔ (q, none) ∈ entries t.root := by
  simp [marks]

/-- A tree refines a map that has its marks. -/
theorem refines_marks {t : ArtTree V} {live : List (List UInt8 × V)} (hwf : t.WF)
    (hlive : (liveEntries (entries t.root)).Perm (live.map fun e => (loadKey e.1, e.2))) :
    Refines t ⟨live, marks t⟩ where
  wf := hwf
  live := hlive
  mark _ hq := mem_marks.mpr hq
  cover p hp := ⟨p, mem_marks.mp hp, List.prefix_rfl⟩

namespace Refines

variable {t : ArtTree V} {m : MapIndex V}

theorem mem_live_iff (h : Refines t m) {a : List UInt8} {v : V} :
    (a, v) ∈ m.live ↔ (loadKey a, some v) ∈ entries t.root := by
  rw [← mem_liveEntries, h.live.mem_iff, List.mem_map]
  constructor
  · intro hm
    exact ⟨_, hm, rfl⟩
  · rintro ⟨⟨b, w⟩, hb, he⟩
    obtain ⟨hk, rfl⟩ := Prod.mk.inj he
    exact loadKey_inj.mp hk ▸ hb

/-- Every live entry has a terminated key. -/
theorem exists_of_live (h : Refines t m) {q : List UInt8} {v : V}
    (hq : (q, some v) ∈ entries t.root) : ∃ a, q = loadKey a ∧ (a, v) ∈ m.live := by
  obtain ⟨⟨a, w⟩, ha, he⟩ := List.mem_map.mp (h.live.mem_iff.mp (mem_liveEntries.mpr hq))
  obtain ⟨rfl, rfl⟩ := Prod.mk.inj he
  exact ⟨a, rfl, ha⟩

theorem functional (h : Refines t m) : m.Functional := by
  intro a v w hv hw
  have := h.wf.prefixFree.eq_of_le (h.mem_live_iff.mp hv) (h.mem_live_iff.mp hw) List.prefix_rfl
  simpa using this

/-- No address is stored twice. -/
theorem nodup_keys (h : Refines t m) : (m.live.map Prod.fst).Nodup := by
  have hnd : (liveEntries (entries t.root)).Pairwise fun x y => Incomparable x.1 y.1 := by
    refine h.wf.prefixFree.filterMap _ ?_
    rintro ⟨q, o⟩ ⟨q', o'⟩ hinc ⟨r, v⟩ hv ⟨r', v'⟩ hv'
    obtain ⟨_, -, he⟩ := Option.map_eq_some_iff.mp hv
    obtain ⟨_, -, he'⟩ := Option.map_eq_some_iff.mp hv'
    rw [← (Prod.mk.inj he).1, ← (Prod.mk.inj he').1]
    exact hinc
  have hmap : (m.live.map fun e => (loadKey e.1, e.2)).Pairwise
      fun x y => Incomparable x.1 y.1 :=
    h.live.pairwise hnd fun {_ _} hinc => hinc.symm
  rw [List.Nodup, List.pairwise_map]
  rw [List.pairwise_map] at hmap
  exact hmap.imp fun {x y} hinc heq => hinc.1 (by rw [heq])

theorem root_ne_null (h : Refines t m) {a : List UInt8} {v : V} (ha : (a, v) ∈ m.live) :
    t.root ≠ .null := by
  intro hnull
  have hmem := h.mem_live_iff.mp ha
  rw [hnull] at hmem
  cases hmem

/-- No key or mark of the tree is a prefix of a stored address. -/
theorem not_prefix_of_live (h : Refines t m) {a : List UInt8} {v : V} (ha : (a, v) ∈ m.live)
    {e : List UInt8 × Option V} (he : e ∈ entries t.root) : ¬ e.1 <+: a := by
  intro hea
  -- the key of the address is longer than the address
  have hkey : a <+: loadKey a := prefix_loadKey.mpr (.inl List.prefix_rfl)
  have heq := h.wf.prefixFree.eq_of_le he (h.mem_live_iff.mp ha) (hea.trans hkey)
  have hle := hea.length_le
  rw [heq, length_loadKey] at hle
  omega

/-- No stored address is covered. -/
theorem not_covers (h : Refines t m) {a : List UInt8} {v : V} (ha : (a, v) ∈ m.live) :
    ¬ m.Covers a := by
  rintro ⟨p, hp, hpa⟩
  obtain ⟨q, hq, hqp⟩ := h.cover p hp
  exact h.not_prefix_of_live ha hq (hqp.trans hpa)

/-- The marks cover what the disabled prefixes cover. -/
theorem covers_iff (h : Refines t m) {a : List UInt8} :
    m.Covers a ↔ ∃ q, (q, none) ∈ entries t.root ∧ q <+: a := by
  constructor
  · rintro ⟨p, hp, hpa⟩
    obtain ⟨q, hq, hqp⟩ := h.cover p hp
    exact ⟨q, hq, hqp.trans hpa⟩
  · rintro ⟨q, hq, hqa⟩
    exact ⟨q, h.mark q hq, hqa⟩

/-- **`lookup` refines the map's lookup**, whatever is read past the end of the
key. -/
theorem lookup_eq (h : Refines t m) (mem : Nat → UInt8) (a : List UInt8) :
    RadixTreeIndex.lookup (Past.lenient mem) t a = .ok (m.lookup a) := by
  rw [RadixTreeIndex.lookup, artLookup_eq h.wf]
  congr 1
  have hpf := h.wf.prefixFree
  unfold MapIndex.lookup
  by_cases hc : m.Covers a
  · obtain ⟨q, hq, hqa⟩ := h.covers_iff.mp hc
    obtain ⟨hqk, hne⟩ := proper_prefix_loadKey.mpr hqa
    rw [if_pos hc, hpf.locate_eq_some_iff.mpr ⟨hq, hqk⟩, answer, if_neg hne]
  · rw [if_neg hc]
    cases hg : m.get a with
    | some v =>
        have hv := h.mem_live_iff.mp (h.functional.get_eq_some_iff.mp hg)
        rw [hpf.locate_eq_some_iff.mpr ⟨hv, List.prefix_rfl⟩, answer, if_pos rfl]
    | none =>
        cases hloc : locate (entries t.root) (loadKey a) with
        | none => rfl
        | some e =>
            obtain ⟨q, o⟩ := e
            obtain ⟨he, hqk⟩ := hpf.locate_eq_some_iff.mp hloc
            cases o with
            | some v =>
                have hne : q ≠ loadKey a := by
                  rintro rfl
                  exact MapIndex.get_eq_none_iff.mp hg v (h.mem_live_iff.mpr he)
                rw [answer, if_neg hne]
            | none =>
                have heq : q = loadKey a := by
                  by_contra hne
                  exact hc (h.covers_iff.mpr ⟨q, he, proper_prefix_loadKey.mp ⟨hqk, hne⟩⟩)
                rw [answer, if_pos heq]

/-- **`get` refines the map's get.** -/
theorem get_eq (h : Refines t m) (mem : Nat → UInt8) (a : List UInt8) :
    RadixTreeIndex.get (Past.lenient mem) t a = .ok (m.get a) := by
  rw [RadixTreeIndex.get, artSearch_eq h.wf]
  congr 1
  have hpf := h.wf.prefixFree
  cases hg : m.get a with
  | some v =>
      have hv := h.mem_live_iff.mp (h.functional.get_eq_some_iff.mp hg)
      rw [hpf.locate_eq_some_iff.mpr ⟨hv, List.prefix_rfl⟩, found, if_pos rfl]
  | none =>
      cases hloc : locate (entries t.root) (loadKey a) with
      | none => rfl
      | some e =>
          obtain ⟨q, o⟩ := e
          obtain ⟨he, -⟩ := hpf.locate_eq_some_iff.mp hloc
          cases o with
          | none => exact ite_self _
          | some v =>
              have hne : q ≠ loadKey a := by
                rintro rfl
                exact MapIndex.get_eq_none_iff.mp hg v (h.mem_live_iff.mpr he)
              rw [found, if_neg hne]

theorem contains_eq (h : Refines t m) (mem : Nat → UInt8) (a : List UInt8) :
    RadixTreeIndex.contains (Past.lenient mem) t a = .ok (m.get a).isSome := by
  have := h.get_eq mem a
  rw [RadixTreeIndex.get] at this
  rw [RadixTreeIndex.contains, this]
  rfl

/-- What stays live where a key is grafted. -/
theorem live_of_graft (h : Refines t m) {t' : ArtTree V} {a : List UInt8} {v : V}
    (hlive : ∀ b w, (b, w) ∈ m.live → b = a ∨ Incomparable (loadKey b) (loadKey a))
    (hperm : (entries t'.root).Perm (graft (entries t.root) (loadKey a) (some v))) :
    (liveEntries (entries t'.root)).Perm
      ((m.insert a v).live.map fun e => (loadKey e.1, e.2)) := by
  -- the entries that stay are those of the other keys
  refine (liveEntries_perm hperm).trans ?_
  rw [liveEntries_graft, MapIndex.insert, List.map_cons]
  refine ((h.live.filter _).trans (List.Perm.of_eq ?_)).cons _
  rw [List.filter_map]
  refine congrArg _ (List.filter_congr fun e he => not_decide_congr ?_)
  show loadKey a <+: loadKey e.1 ↔ e.1 = a
  rcases hlive e.1 e.2 he with hb | hb
  · rw [hb]
    exact iff_of_true List.prefix_rfl rfl
  · refine iff_of_false hb.2 ?_
    rintro rfl
    exact hb.1 List.prefix_rfl

/-- A grafted key replaces those that extend it. -/
theorem insert_of_graft (h : Refines t m) {t' : ArtTree V} {a : List UInt8} {v : V}
    (hlive : ∀ b w, (b, w) ∈ m.live → b = a ∨ Incomparable (loadKey b) (loadKey a))
    (hmark : ∀ p ∈ m.disabled, Incomparable p (loadKey a)) (hwf : t'.WF)
    (hperm : (entries t'.root).Perm (graft (entries t.root) (loadKey a) (some v))) :
    Refines t' (m.insert a v) := by
  refine ⟨hwf, h.live_of_graft hlive hperm, ?_, ?_⟩
  · intro q hq
    rcases mem_graft.mp (hperm.mem_iff.mp hq) with he | ⟨he, -⟩
    · cases he
    · exact h.mark q he
  · intro p hp
    obtain ⟨q, hq, hqp⟩ := h.cover p hp
    refine ⟨q, hperm.mem_iff.mpr (mem_graft.mpr (.inr ⟨hq, ?_⟩)), hqp⟩
    exact (hmark q (h.mark q hq)).2

/-- **`insert` refines the map's insert** for a key that neither extends nor
cuts off a stored key or a mark. -/
theorem insert_spec (h : Refines t m) (past : Past) (build : Build) {a : List UInt8} (v : V)
    (hlive : ∀ b w, (b, w) ∈ m.live → b = a ∨ Incomparable (loadKey b) (loadKey a))
    (hmark : ∀ p ∈ m.disabled, Incomparable p (loadKey a)) :
    ∃ t', RadixTreeIndex.insert past build t a (some v) = .ok t' ∧ Refines t' (m.insert a v) ∧
      t'.root ≠ .null ∧ t'.size = if (m.get a).isSome then t.size else t.size + 1 := by
  have hkey : ∀ e ∈ entries t.root, e.1 = loadKey a ∨ Incomparable e.1 (loadKey a) := by
    rintro ⟨q, o⟩ he
    cases o with
    | none => exact .inr (hmark q (h.mark q he))
    | some w =>
        obtain ⟨b, rfl, hb⟩ := h.exists_of_live he
        exact (hlive b w hb).imp_left fun hba => by rw [hba]
  obtain ⟨t', old, hrun, hwf, hperm, hsize⟩ := artInsert_spec past build h.wf hkey (some v)
  refine ⟨t', by rw [RadixTreeIndex.insert, hrun]; rfl, h.insert_of_graft hlive hmark hwf hperm,
    ne_null_of_graft hperm, ?_⟩
  rw [hsize]
  refine if_congr ?_ rfl rfl
  rw [Option.isSome_iff_exists]
  constructor
  · rintro ⟨⟨q, o⟩, he, rfl⟩
    cases o with
    | none => exact absurd List.prefix_rfl (hmark _ (h.mark _ he)).1
    | some w => exact ⟨w, h.functional.get_eq_some_iff.mpr (h.mem_live_iff.mpr he)⟩
  · rintro ⟨w, hw⟩
    exact ⟨_, h.mem_live_iff.mp (h.functional.get_eq_some_iff.mp hw), rfl⟩

/-- An insert that may take the mark off its own key: the live entries are
those of the map's insert. -/
theorem insert_over_mark (h : Refines t m) (past : Past) (build : Build) {a : List UInt8} (v : V)
    (hkey : ∀ e ∈ entries t.root, e.1 = loadKey a ∨ Incomparable e.1 (loadKey a)) :
    ∃ t' m', RadixTreeIndex.insert past build t a (some v) = .ok t' ∧ Refines t' m' ∧
      m'.live = (m.insert a v).live := by
  have hlive : ∀ b w, (b, w) ∈ m.live → b = a ∨ Incomparable (loadKey b) (loadKey a) := by
    intro b w hb
    exact (hkey _ (h.mem_live_iff.mp hb)).imp_left loadKey_inj.mp
  obtain ⟨t', old, hrun, hwf, hperm, -⟩ := artInsert_spec past build h.wf hkey (some v)
  refine ⟨t', ⟨(m.insert a v).live, marks t'⟩, by rw [RadixTreeIndex.insert, hrun]; rfl, ?_, rfl⟩
  exact refines_marks hwf (h.live_of_graft hlive hperm)

/-- The leaves that a mark takes away are the entries that the map forgets. -/
theorem filter_live (h : Refines t m) (p : List UInt8) :
    ((liveEntries (entries t.root)).filter fun e => !decide (p <+: e.1)).Perm
      ((m.cut p).live.map fun e => (loadKey e.1, e.2)) := by
  refine (h.live.filter _).trans (List.Perm.of_eq ?_)
  rw [List.filter_map, MapIndex.cut]
  rfl

/-- Under a mark there is nothing to forget. -/
theorem cut_of_mark (h : Refines t m) {p q : List UInt8} (hq : (q, none) ∈ entries t.root)
    (hqp : q <+: p) : Refines t (m.cut p) := by
  refine ⟨h.wf, ?_, ?_, ?_⟩
  · have hnone : ∀ e ∈ liveEntries (entries t.root), ¬ p <+: e.1 := by
      rintro ⟨b, w⟩ he hpb
      have := h.wf.prefixFree.eq_of_le hq (mem_liveEntries.mp he) (hqp.trans hpb)
      cases this
    have := h.filter_live p
    rwa [List.filter_eq_self.mpr fun e he => by simpa using hnone e he] at this
  · exact fun q' hq' => List.mem_cons_of_mem _ (h.mark q' hq')
  · intro p' hp'
    rcases List.mem_cons.mp hp' with rfl | hp'
    · exact ⟨q, hq, hqp⟩
    · exact h.cover p' hp'

/-- A grafted mark takes away the keys below it. -/
theorem cut_of_graft (h : Refines t m) {t' : ArtTree V} {p : List UInt8} (hwf : t'.WF)
    (hperm : (entries t'.root).Perm (graft (entries t.root) p none)) : Refines t' (m.cut p) := by
  refine ⟨hwf, ?_, ?_, ?_⟩
  · refine (liveEntries_perm hperm).trans ?_
    rw [liveEntries_graft]
    exact h.filter_live p
  · intro q hq
    rcases mem_graft.mp (hperm.mem_iff.mp hq) with he | ⟨he, -⟩
    · cases he
      exact List.mem_cons_self
    · exact List.mem_cons_of_mem _ (h.mark q he)
  · have hp : (p, none) ∈ entries t'.root := hperm.mem_iff.mpr (mem_graft.mpr (.inl rfl))
    intro p' hp'
    rcases List.mem_cons.mp hp' with rfl | hp'
    · exact ⟨p', hp, List.prefix_rfl⟩
    · obtain ⟨q, hq, hqp⟩ := h.cover p' hp'
      by_cases hpq : p <+: q
      · exact ⟨p, hp, hpq.trans hqp⟩
      · exact ⟨q, hperm.mem_iff.mpr (mem_graft.mpr (.inr ⟨hq, hpq⟩)), hqp⟩

/-- **`disable` cuts the map** on a tree that is not empty, for a prefix that no
stored key is above: the answer is -1 and the tree stays under a shorter mark,
else 1 and `size` drops by the leaves below the prefix. -/
theorem cut_spec (h : Refines t m) (past : Past) (build : Build) {p : List UInt8}
    (hroot : t.root ≠ .null) (hin : ReadsInside [] p t.root)
    (hlive : ∀ b w, (b, w) ∈ m.live → loadKey b <+: p → loadKey b = p) :
    ∃ t' ret, RadixTreeIndex.disable past build t p = .ok (t', ret) ∧
      Refines t' (m.cut p) ∧ t'.root ≠ .null ∧
      ((∃ q, (q, none) ∈ entries t.root ∧ q <+: p ∧ q ≠ p) ∧ t' = t ∧ ret = -1 ∨
        (∀ q, (q, none) ∈ entries t.root → q <+: p → q = p) ∧ ret = 1 ∧
        t'.size = t.size - (below (entries t.root) p).length) := by
  by_cases hq : ∃ q, (q, none) ∈ entries t.root ∧ q <+: p ∧ q ≠ p
  · obtain ⟨q, hq, hqp, hne⟩ := hq
    exact ⟨t, -1, artDisable_of_mark past build h.wf hq hqp hne, h.cut_of_mark hq hqp, hroot,
      .inl ⟨⟨q, hq, hqp, hne⟩, rfl, rfl⟩⟩
  · have hkey : ∀ e ∈ entries t.root, e.1 <+: p → e.1 = p := by
      rintro ⟨q, o⟩ he hqp
      cases o with
      | none =>
          by_contra hne
          exact hq ⟨q, he, hqp, hne⟩
      | some w =>
          obtain ⟨b, rfl, hb⟩ := h.exists_of_live he
          exact hlive b w hb hqp
    obtain ⟨t', hrun, hwf, hperm, hsize⟩ := artDisable_spec past build h.wf hroot hin hkey
    exact ⟨t', 1, hrun, h.cut_of_graft hwf hperm, ne_null_of_graft hperm,
      .inr ⟨fun q hq' hqp => hkey (q, none) hq' hqp, rfl, hsize⟩⟩

/-- **`disable` refines the map's disable** where no stored key is above the
prefix or equal to it. -/
theorem disable_spec (h : Refines t m) (past : Past) (build : Build) {p : List UInt8}
    (hroot : t.root ≠ .null) (hin : ReadsInside [] p t.root)
    (hlive : ∀ b w, (b, w) ∈ m.live → ¬ loadKey b <+: p) :
    ∃ t' ret, RadixTreeIndex.disable past build t p = .ok (t', ret) ∧
      Refines t' (m.disable p) ∧ t'.root ≠ .null ∧
      ((∃ q, (q, none) ∈ entries t.root ∧ q <+: p ∧ q ≠ p) ∧ t' = t ∧ ret = -1 ∨
        (∀ q, (q, none) ∈ entries t.root → q <+: p → q = p) ∧ ret = 1 ∧
        t'.size = t.size - (below (entries t.root) p).length) := by
  have hspec := h.cut_spec past build hroot hin fun b w hb hbp => absurd hbp (hlive b w hb)
  rwa [MapIndex.cut_eq_disable fun b w hb hbp => hlive b w hb (hbp ▸ List.prefix_rfl)] at hspec

/-- **`remove_key` refines the map's erase** where the key has no mark. -/
theorem removeKey_spec (h : Refines t m) (mem : Nat → UInt8) {a : List UInt8}
    (hmark : loadKey a ∉ m.disabled) :
    ∃ t', RadixTreeIndex.removeKey (Past.lenient mem) t a = .ok t' ∧ Refines t' (m.erase a) ∧
      t'.size = if (m.get a).isSome then t.size - 1 else t.size := by
  cases hg : m.get a with
  | some v =>
      have hmem := h.functional.get_eq_some_iff.mp hg
      have hv := h.mem_live_iff.mp hmem
      obtain ⟨t', hrun, hwf, hperm, hsize⟩ := artDelete_present (Past.lenient mem) h.wf hv
      -- below a stored key there is only its own entry
      have hbelow : ∀ e ∈ entries t.root, loadKey a <+: e.1 → e = (loadKey a, some v) :=
        fun e he hp => (h.wf.prefixFree.eq_of_le hv he hp).symm
      refine ⟨t', by rw [RadixTreeIndex.removeKey, hrun]; rfl, ⟨hwf, ?_, ?_, ?_⟩, by
        rw [hsize]; rfl⟩
      · refine (liveEntries_perm hperm).trans ?_
        have hprune : liveEntries (prune (entries t.root) (loadKey a)) =
            (liveEntries (entries t.root)).filter fun e => !decide (loadKey a <+: e.1) :=
          liveEntries_filter (entries t.root) fun q => !decide (loadKey a <+: q)
        rw [hprune, MapIndex.erase]
        refine (h.live.filter _).trans (List.Perm.of_eq ?_)
        rw [List.filter_map]
        refine congrArg _ (List.filter_congr fun e he => not_decide_congr ?_)
        show loadKey a <+: loadKey e.1 ↔ e.1 = a
        constructor
        · intro hp
          have := hbelow _ (h.mem_live_iff.mp he) hp
          exact loadKey_inj.mp (Prod.mk.inj this).1
        · intro hea
          rw [hea]
      · intro q hq
        exact h.mark q (mem_prune.mp (hperm.mem_iff.mp hq)).1
      · intro p hp
        obtain ⟨q, hq, hqp⟩ := h.cover p hp
        refine ⟨q, hperm.mem_iff.mpr (mem_prune.mpr ⟨hq, fun hkq => ?_⟩), hqp⟩
        cases hbelow _ hq hkq
  | none =>
      have habs : ∀ e ∈ entries t.root, e.1 ≠ loadKey a := by
        rintro ⟨q, o⟩ he rfl
        cases o with
        | none => exact hmark (h.mark _ he)
        | some w => exact MapIndex.get_eq_none_iff.mp hg w (h.mem_live_iff.mpr he)
      have hrun := artDelete_absent mem h.wf habs
      have hsame : m.erase a = m := by
        rw [MapIndex.erase, List.filter_eq_self.mpr]
        rintro ⟨b, w⟩ he
        simp only [Bool.not_eq_true', decide_eq_false_iff_not]
        rintro rfl
        exact MapIndex.get_eq_none_iff.mp hg w he
      refine ⟨t, by rw [RadixTreeIndex.removeKey, hrun]; rfl, by rwa [hsame], rfl⟩

end Refines

end LightQuery
