import LightQuery.Art.Graft

/-!
# LightQuery.Art.Insert

`art_insert`.

The descent reads the compressed path byte by byte, past the tenth from the
leaf that `minimum` finds, and ends with one of the updates of `Art.Graft`.
`recursiveInsert_spec` says that it grafts the new entry on the tree; its only
assumption is that the key and the keys of the tree, marks included, are
incomparable or equal.
-/

namespace LightQuery

open CArray CommonPrefix PrefixFamily

variable {V : Type} {n : Header} {keys : Nat → UInt8} {children : Nat → ArtNode V}

/-! ## art_insert -/

/-- `if (n->partial_len) { … }` of `recursive_insert`: where the path has to be
split, if it has to. -/
def pathDiff (past : Past) (n : Header) (keys : Nat → UInt8) (children : Nat → ArtNode V)
    (key : List UInt8) (depth : Nat) : Except Fault (Option Nat) :=
  if n.partialLen = 0 then .ok none
  else do
    let prefixDiff ← prefixMismatch past n keys children key depth
    .ok (if n.partialLen ≤ prefixDiff then none else some prefixDiff)

/-- `recursive_insert`: the new `*ref`, the returned pointer and `*old`. -/
def recursiveInsert (past : Past) (build : Build) (key : List UInt8) (value : Option V) :
    ArtNode V → (depth : Nat) → Except Fault (ArtNode V × Option V × Bool)
  | .null, _ => .ok (.leaf (makeLeaf key value), none, false)
  | .leaf l, depth => do
      if ← leafMatches past l key then
        .ok (.leaf { l with value := value }, l.value, true)
      else
        let longestPrefix ← longestCommonPrefix past l (makeLeaf key value) depth
        let x ← splitLeaf past build key value depth longestPrefix l
        .ok (x, none, false)
  | .node n keys children, depth => do
      match ← pathDiff past n keys children key depth with
      | some prefixDiff =>
          let x ← splitPath past build n keys children key value depth prefixDiff
          .ok (x, none, false)
      | none =>
          let c ← readByte past key (depth + n.partialLen)
          match findChild n keys children c with
          | some i =>
              let (x, r) ← recursiveInsert past build key value (children i)
                (depth + n.partialLen + 1)
              .ok (.node n keys (Function.update children i x), r)
          | none => .ok (addChild build n keys children c (.leaf (makeLeaf key value)), none, false)

/-- `art_insert`. -/
def artInsert (past : Past) (build : Build) (t : ArtTree V) (key : List UInt8)
    (value : Option V) : Except Fault (ArtTree V × Option V) := do
  let (root, old, oldVal) ← recursiveInsert past build key value t.root 0
  .ok (⟨root, if oldVal then t.size else t.size + 1⟩, old)

/-! ## the descent grafts -/

theorem isPrefix_drop {path c key : List UInt8} (h : path <+: key) :
    c <+: key.drop path.length ↔ path ++ c <+: key := by
  obtain ⟨t, rfl⟩ := h
  rw [List.drop_left, List.prefix_append_right_inj]

/-- Behind a common front one is a prefix where the whole is. -/
theorem prefix_of_drop {path a b : List UInt8} (ha : path <+: a) (hb : path <+: b)
    (h : a.drop path.length <+: b.drop path.length) : a <+: b := by
  obtain ⟨s, rfl⟩ := ha
  rw [List.drop_left] at h
  exact (isPrefix_drop hb).mp h

/-- The path has to be split where it leaves the rest of the key. -/
theorem pathDiff_eq_drop (past : Past) (key : List UInt8) {path c : List UInt8}
    (hlen : c.length = n.partialLen) (hstored : n.stored = c.take maxPrefixLen)
    (h : WF path (.node n keys children))
    (hpath : ∀ e ∈ entries (.node n keys children), path ++ c <+: e.1) :
    pathDiff past n keys children key path.length =
      .ok (if c <+: key.drop path.length then none else some (lcp c (key.drop path.length))) := by
  unfold pathDiff
  by_cases hz : n.partialLen = 0
  · have hnil : c = [] := List.eq_nil_of_length_eq_zero (by omega)
    rw [if_pos hz, if_pos (by rw [hnil]; exact List.nil_prefix)]
  · obtain ⟨l, hmin, hmem, hbuf⟩ := h.minimum_spec
    obtain ⟨r, hr, hmr, -⟩ := prefixMismatch_spec past key hlen hstored hmin hbuf
      (hpath _ hmem)
    have hle := lcp_le_left c (key.drop path.length)
    rw [if_neg hz, hr]
    simp only [bind, Except.bind]
    congr 1
    by_cases hp : c <+: key.drop path.length
    · have := lcp_eq_length_iff.mpr hp
      rw [if_pos hp, if_pos (by omega)]
    · have hlt := mt lcp_eq_length_iff.mp hp
      rw [if_neg hp, if_neg (by omega)]
      congr 1
      omega

/-- The same where the key comes through the path. -/
theorem pathDiff_eq (past : Past) {path c key : List UInt8} (hlen : c.length = n.partialLen)
    (hstored : n.stored = c.take maxPrefixLen) (h : WF path (.node n keys children))
    (hpath : ∀ e ∈ entries (.node n keys children), path ++ c <+: e.1) (hpk : path <+: key) :
    pathDiff past n keys children key path.length =
      .ok (if path ++ c <+: key then none else some (lcp c (key.drop path.length))) := by
  rw [pathDiff_eq_drop past key hlen hstored h hpath]
  simp only [isPrefix_drop hpk]

/-- Splitting the leaf: what `longest_common_prefix` measures. -/
theorem longestCommonPrefix_eq (past : Past) {l : ArtLeaf V} (hbuf : l.keyLen ≤ l.key.length)
    (key : List UInt8) (value : Option V) (depth : Nat) :
    longestCommonPrefix past l (makeLeaf key value) depth =
      .ok (lcp (l.bytes.drop depth) (key.drop depth)) := by
  have hbl := bytes_length hbuf
  have h1 : (l.bytes.drop depth).length = l.keyLen - depth := by rw [List.length_drop, hbl]
  have h2 : (key.drop depth).length = key.length - depth := List.length_drop ..
  have hle := lcp_le_left (l.bytes.drop depth) (key.drop depth)
  have hle' := lcp_le_right (l.bytes.drop depth) (key.drop depth)
  have hlen : (makeLeaf key value).keyLen = key.length := rfl
  rw [longestCommonPrefix, hlen, mismatch_eq (l.bytes.drop depth) (key.drop depth)
    (by omega) (by omega) ?_ ?_]
  · congr 1
    omega
  · intro i hi
    rw [readByte_lt past (by omega)]
    simp only [ArtLeaf.bytes, List.getElem_drop, List.getElem_take, Nat.zero_add]
  · intro i hi
    exact key_read past key depth i (by omega)

/-- A key that leaves a node's compressed path is incomparable to it. -/
theorem incomparable_of_not_path {path c key : List UInt8} {F : List (List UInt8 × Option V)}
    (hne : F ≠ []) (hpath : ∀ e ∈ F, path ++ c <+: e.1)
    (hkey : ∀ e ∈ F, e.1 = key ∨ Incomparable e.1 key) (hc : ¬ path ++ c <+: key) :
    Incomparable (path ++ c) key := by
  obtain ⟨e, he⟩ := List.exists_mem_of_ne_nil _ hne
  refine ⟨hc, fun hk => ?_⟩
  rcases hkey e he with h | h
  · exact hc (h ▸ hpath e he)
  · exact h.2 (hk.trans (hpath e he))

/-- The path and slot byte by which a key goes below a node. -/
theorem exists_slot_byte {path c key : List UInt8} {F : List (List UInt8 × Option V)}
    (hne : F ≠ []) (hpath : ∀ e ∈ F, ∃ b, path ++ c ++ [b] <+: e.1)
    (hkey : ∀ e ∈ F, e.1 = key ∨ Incomparable e.1 key) (hc : path ++ c <+: key) :
    ∃ b, path ++ c ++ [b] <+: key := by
  obtain ⟨e, he⟩ := List.exists_mem_of_ne_nil _ hne
  obtain ⟨b, hb⟩ := hpath e he
  rcases hkey e he with h | h
  · exact ⟨b, h ▸ hb⟩
  · obtain ⟨t, rfl⟩ := hc
    cases t with
    | nil =>
        rw [List.append_nil] at h
        exact absurd ((List.prefix_append _ _).trans hb) h.2
    | cons x t => exact ⟨x, t, by simp⟩

/-- Every key below a node goes through one of its slots. -/
theorem WF.through_slot {path c : List UInt8} (hl : Layout n keys children)
    (hchild : ∀ b i, Slot n keys children b i → WF (path ++ c ++ [b]) (children i)) :
    ∀ e ∈ entries (.node n keys children), ∃ b, path ++ c ++ [b] <+: e.1 := by
  intro e he
  obtain ⟨b, i, hi, hex⟩ := (mem_entries_node hl.toMatching).mp he
  exact ⟨b, (hchild b i hi).starts_with e hex⟩

/-- **`recursive_insert` grafts the entry** and reports whether the key was
there, whatever the reads past the end of a buffer do: there are none. -/
theorem recursiveInsert_spec (past : Past) (build : Build) {path key : List UInt8} {x : ArtNode V}
    (h : WF path x) (hpk : path <+: key)
    (hkey : ∀ e ∈ entries x, e.1 = key ∨ Incomparable e.1 key) (value : Option V) :
    ∃ x' old oldVal,
      recursiveInsert past build key value x path.length = .ok (x', old, oldVal) ∧
        WF path x' ∧ (entries x').Perm (graft (entries x) key value) ∧
        (oldVal = true ↔ ∃ e ∈ entries x, e.1 = key) := by
  induction h with
  | @leaf path l hlen hpath =>
      have hmem : ∀ e ∈ entries (.leaf l), e = l.entry := fun e he => List.mem_singleton.mp he
      rw [recursiveInsert, leafMatches_eq past hlen]
      by_cases heq : l.bytes = key
      · simp only [bind, Except.bind, heq, decide_true, if_true]
        refine ⟨_, _, _, rfl, .leaf hlen hpath, ?_, by simp [ArtLeaf.entry, heq]⟩
        have hall : ∀ e ∈ entries (.leaf l), key <+: e.1 := fun e he => by
          rw [hmem e he, ← heq]; exact List.prefix_rfl
        rw [graft_eq_singleton hall]
        exact List.Perm.of_eq (by rw [← heq]; rfl)
      · have hinc : Incomparable l.bytes key :=
          (hkey l.entry (by simp)).resolve_left heq
        obtain ⟨x, hx, hwf, hperm, -⟩ := splitLeaf_spec past build (.leaf hlen hpath) hpk hinc value
        simp only [bind, Except.bind, heq, decide_false, Bool.false_eq_true, if_false,
          longestCommonPrefix_eq past hlen, hx]
        refine ⟨_, _, _, rfl, hwf, hperm, ?_⟩
        simpa [ArtLeaf.entry] using heq
  | @node path n keys children c hl htwo hlen hstored hchild ih =>
      have hwf : WF path (.node n keys children) := .node c hl htwo hlen hstored hchild
      have hpaths := WF.compressed hl hchild
      rw [recursiveInsert, pathDiff_eq past hlen hstored hwf hpaths hpk]
      by_cases hc : path ++ c <+: key
      · obtain ⟨b, hb⟩ := exists_slot_byte hwf.entries_ne_nil (WF.through_slot hl hchild) hkey hc
        obtain ⟨-, -, hread⟩ := below_slot hb
        rw [if_pos hc, ← hlen, hread]
        cases hf : findChild n keys children b with
        | some i =>
            have hi := hl.findChild_eq_some_iff.mp hf
            have hsub : ∀ e ∈ entries (children i), e ∈ entries (.node n keys children) :=
              fun e he => (mem_entries_node hl.toMatching).mpr ⟨b, i, hi, he⟩
            obtain ⟨x, old, oldVal, hx, hxwf, hperm, hold⟩ :=
              ih b i hi hb fun e he => hkey e (hsub e he)
            obtain ⟨hwf', hperm'⟩ :=
              WF.graftChild hl htwo hlen hstored hchild hi hb hxwf hperm
            rw [List.length_append, List.length_append, List.length_singleton] at hx
            simp only [bind, Except.bind, hf, hx]
            refine ⟨_, _, _, rfl, hwf', hperm', hold.trans ⟨?_, ?_⟩⟩
            · rintro ⟨e, he, rfl⟩
              exact ⟨e, hsub e he, rfl⟩
            · rintro ⟨e, he, rfl⟩
              rcases List.mem_append.mp ((entries_node_slot hl hi).mem_iff.mp he) with he' | he'
              · exact ⟨e, he', rfl⟩
              · exact absurd hb (not_prefix_of_other_slot hl hchild e he').1
        | none =>
            have hnone : childAt n keys children b = none := by rw [childAt, hf]; rfl
            obtain ⟨hwf', hperm'⟩ :=
              WF.graftLeaf build hl htwo hlen hstored hchild hnone hb value
            simp only [bind, Except.bind, hf]
            refine ⟨_, _, _, rfl, hwf', hperm', by simp, ?_⟩
            rintro ⟨e, he, rfl⟩
            obtain ⟨b', i, hi, hex⟩ := (mem_entries_node hl.toMatching).mp he
            have hbb : b' ≠ b := fun h => hl.childAt_eq_none_iff.mp hnone i (h ▸ hi)
            exact absurd hb (incomparable_of_branch hbb.symm List.prefix_rfl
              ((hchild b' i hi).starts_with e hex)).1
      · have hinc := incomparable_of_not_path hwf.entries_ne_nil hpaths hkey hc
        obtain ⟨x, hx, hwf', hperm, -⟩ :=
          splitPath_spec past build hl htwo hlen hstored hchild hpk hinc value
        simp only [if_neg hc, bind, Except.bind, hx]
        refine ⟨_, _, _, rfl, hwf', hperm, by simp, ?_⟩
        rintro ⟨e, he, rfl⟩
        exact absurd (hpaths e he) hc

/-- **`art_insert` grafts the entry** and counts a new key. -/
theorem artInsert_spec (past : Past) (build : Build) {t : ArtTree V} (h : t.WF) {key : List UInt8}
    (hkey : ∀ e ∈ entries t.root, e.1 = key ∨ Incomparable e.1 key) (value : Option V) :
    ∃ t' old, artInsert past build t key value = .ok (t', old) ∧ t'.WF ∧
      (entries t'.root).Perm (graft (entries t.root) key value) ∧
      t'.size = if ∃ e ∈ entries t.root, e.1 = key then t.size else t.size + 1 := by
  rcases h with h | h
  · refine ⟨⟨.leaf (makeLeaf key value), t.size + 1⟩, none, ?_, .inr ?_, ?_, ?_⟩
    · rw [artInsert, h]; rfl
    · exact makeLeaf_wf List.nil_prefix value
    · rw [h, entries_leaf, makeLeaf_entry]; exact List.Perm.refl _
    · simp [h]
  · obtain ⟨x, old, oldVal, hx, hwf, hperm, hold⟩ :=
      recursiveInsert_spec past build h List.nil_prefix hkey value
    rw [List.length_nil] at hx
    refine ⟨⟨x, if oldVal then t.size else t.size + 1⟩, old, ?_, .inr hwf, hperm, ?_⟩
    · rw [artInsert, hx]; rfl
    · by_cases he : ∃ e ∈ entries t.root, e.1 = key
      · simp only [hold.mpr he, if_pos he, if_true]
      · rw [if_neg he, if_neg (fun h => he (hold.mp h))]

end LightQuery
