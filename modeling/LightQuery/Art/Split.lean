import LightQuery.Art.Insert

/-!
# LightQuery.Art.Split

The branch bytes of `recursive_insert`.

`tracedInsert` is `recursive_insert` with a record of the split that it makes.
The bytes at which a split parts are bytes of both keys and differ exactly
where no key of the tree is a proper prefix of the new one or the other way
round (`apart_iff`): a key that ends too early is read past its end.
-/

namespace LightQuery

open CArray CommonPrefix PrefixFamily

variable {V : Type} {n : Header} {keys : Nat → UInt8} {children : Nat → ArtNode V}

/-! ## the record of a split -/

/-- A split: the leaf or the node that goes below the new NODE4, the index at
which the keys are read, and the branch bytes of the old keys and the new one. -/
structure Split (V : Type) where
  below : ArtNode V
  index : Nat
  oldByte : UInt8
  newByte : UInt8

/-- The branch bytes lie inside the keys, and differ. -/
def Split.Apart (s : Split V) (key : List UInt8) : Prop :=
  (∀ e ∈ entries s.below, e.1[s.index]? = some s.oldByte) ∧ key[s.index]? = some s.newByte ∧
    s.oldByte ≠ s.newByte

/-- `recursive_insert`, and the split that it makes, if any. -/
def tracedInsert (past : Past) (build : Build) (key : List UInt8) (value : Option V) :
    ArtNode V → (depth : Nat) → Except Fault ((ArtNode V × Option V × Bool) × Option (Split V))
  | .null, _ => .ok ((.leaf (makeLeaf key value), none, false), none)
  | .leaf l, depth => do
      if ← leafMatches past l key then
        .ok ((.leaf { l with value := value }, l.value, true), none)
      else
        let longestPrefix ← longestCommonPrefix past l (makeLeaf key value) depth
        let x ← splitLeaf past build key value depth longestPrefix l
        let c₁ ← readByte past l.key (depth + longestPrefix)
        let c₂ ← readByte past (makeLeaf key value).key (depth + longestPrefix)
        .ok ((x, none, false), some ⟨.leaf l, depth + longestPrefix, c₁, c₂⟩)
  | .node n keys children, depth => do
      match ← pathDiff past n keys children key depth with
      | some prefixDiff =>
          let x ← splitPath past build n keys children key value depth prefixDiff
          let (c, _) ← adjustPrefix past n keys children depth prefixDiff
          let c' ← readByte past key (depth + prefixDiff)
          .ok ((x, none, false), some ⟨.node n keys children, depth + prefixDiff, c, c'⟩)
      | none =>
          let c ← readByte past key (depth + n.partialLen)
          match findChild n keys children c with
          | some i =>
              let ((x, r), s) ← tracedInsert past build key value (children i)
                (depth + n.partialLen + 1)
              .ok ((.node n keys (Function.update children i x), r), s)
          | none =>
              .ok ((addChild build n keys children c (.leaf (makeLeaf key value)), none, false),
                none)

/-- Without the record it is `recursive_insert`. -/
theorem tracedInsert_fst (past : Past) (build : Build) (key : List UInt8) (value : Option V)
    (x : ArtNode V) (depth : Nat) :
    (tracedInsert past build key value x depth).map Prod.fst =
      recursiveInsert past build key value x depth := by
  induction x generalizing depth with
  | null => rfl
  | leaf l =>
      rw [tracedInsert, recursiveInsert]
      simp only [bind, Except.bind]
      cases leafMatches past l key with
      | error e => rfl
      | ok same =>
          cases same with
          | true => rfl
          | false =>
              cases longestCommonPrefix past l (makeLeaf key value) depth with
              | error e => rfl
              | ok idx =>
                  simp only [splitLeaf, bind, Except.bind]
                  cases readBytes past key depth (min maxPrefixLen idx) with
                  | error e => rfl
                  | ok bytes =>
                      cases readByte past l.key (depth + idx) with
                      | error e => rfl
                      | ok c₁ => cases readByte past (makeLeaf key value).key (depth + idx) <;> rfl
  | node n keys children ih =>
      rw [tracedInsert, recursiveInsert]
      simp only [bind, Except.bind]
      cases pathDiff past n keys children key depth with
      | error e => rfl
      | ok diff =>
          cases diff with
          | some d =>
              simp only [splitPath, bind, Except.bind]
              cases adjustPrefix past n keys children depth d with
              | error e => rfl
              | ok c => cases readByte past key (depth + d) <;> rfl
          | none =>
              cases readByte past key (depth + n.partialLen) with
              | error e => rfl
              | ok c =>
                  simp only
                  cases findChild n keys children c with
                  | none => rfl
                  | some i =>
                      simp only [← ih i]
                      cases tracedInsert past build key value (children i)
                        (depth + n.partialLen + 1) <;> rfl

/-! ## keys that are incomparable -/

/-- **Where the keys are incomparable, a split takes real, different bytes**,
and nothing is read past a key. -/
theorem apart_of_incomparable (past : Past) (build : Build) {path key : List UInt8}
    {x : ArtNode V} (h : WF path x) (hpk : path <+: key)
    (hkey : ∀ e ∈ entries x, e.1 = key ∨ Incomparable e.1 key) (value : Option V)
    {r : ArtNode V × Option V × Bool} {s : Split V}
    (hrun : tracedInsert past build key value x path.length = .ok (r, some s)) : s.Apart key := by
  induction h generalizing r with
  | @leaf path l hlen hpath =>
      rw [tracedInsert, leafMatches_eq past hlen] at hrun
      by_cases heq : l.bytes = key
      · simp [bind, Except.bind, heq] at hrun
      · have hinc : Incomparable l.bytes key := (hkey l.entry (by simp)).resolve_left heq
        obtain ⟨a, b, hab, ha, hb, -, -⟩ := branch_at_lcp hpath hpk hinc
        obtain ⟨x, hx, -⟩ := splitLeaf_spec past build (.leaf hlen hpath) hpk hinc value
        have hread' : readByte past (makeLeaf key value).key (path.length +
            lcp (l.bytes.drop path.length) (key.drop path.length)) = .ok b := by
          rw [readByte, show (makeLeaf key value).key = key from rfl, hb]
        simp only [bind, Except.bind, heq, decide_false, Bool.false_eq_true, if_false,
          longestCommonPrefix_eq past hlen, hx, readByte_of_bytes past ha, hread'] at hrun
        obtain rfl := Option.some.inj (Prod.mk.inj (Except.ok.inj hrun)).2
        exact ⟨by simpa [ArtLeaf.entry] using ha, hb, hab⟩
  | @node path n keys children c hl htwo hlen hstored hchild ih =>
      have hwf : WF path (.node n keys children) := .node c hl htwo hlen hstored hchild
      have hpaths := WF.compressed hl hchild
      rw [tracedInsert, pathDiff_eq past hlen hstored hwf hpaths hpk] at hrun
      by_cases hc : path ++ c <+: key
      · obtain ⟨b, hb⟩ := exists_slot_byte hwf.entries_ne_nil (WF.through_slot hl hchild) hkey hc
        obtain ⟨-, -, hread⟩ := below_slot hb
        rw [if_pos hc, ← hlen, hread] at hrun
        simp only [bind, Except.bind] at hrun
        cases hf : findChild n keys children b with
        | none => simp [hf] at hrun
        | some i =>
            have hi := hl.findChild_eq_some_iff.mp hf
            have hsub : ∀ e ∈ entries (children i), e.1 = key ∨ Incomparable e.1 key :=
              fun e he => hkey e ((mem_entries_node hl.toMatching).mpr ⟨b, i, hi, he⟩)
            have hdepth : path.length + c.length + 1 = (path ++ c ++ [b]).length := by
              simp only [List.length_append, List.length_singleton]
            rw [hf, hdepth] at hrun
            cases hrec : tracedInsert past build key value (children i)
                (path ++ c ++ [b]).length with
            | error e =>
                simp only [hrec] at hrun
                cases hrun
            | ok w =>
                obtain ⟨r', s'⟩ := w
                simp only [hrec] at hrun
                obtain rfl := (Prod.mk.inj (Except.ok.inj hrun)).2
                exact ih b i hi hb hsub hrec
      · have hinc := incomparable_of_not_path hwf.entries_ne_nil hpaths hkey hc
        obtain ⟨hd, b, hab, hb, -⟩ := branch_of_path hpk hinc
        obtain ⟨old, hadj, -⟩ := adjustPrefix_spec hl htwo hlen hstored hchild past hd
        obtain ⟨x, hx, -⟩ :=
          splitPath_spec past build hl htwo hlen hstored hchild hpk hinc value
        simp only [if_neg hc, bind, Except.bind, hx, hadj, readByte, hb] at hrun
        obtain rfl := Option.some.inj (Prod.mk.inj (Except.ok.inj hrun)).2
        refine ⟨fun e he => ?_, hb, hab⟩
        obtain ⟨t, ht⟩ := hpaths e he
        show e.1[path.length + lcp c (key.drop path.length)]? = _
        rw [← ht, List.append_assoc, List.getElem?_append_right (by omega),
          Nat.add_sub_cancel_left, List.getElem?_append_left hd, List.getElem?_eq_getElem hd]

/-! ## keys that are comparable -/

theorem exists_splitLeaf_lenient (mem : Nat → UInt8) (build : Build) (key : List UInt8)
    (value : Option V) (depth idx : Nat) (l : ArtLeaf V) :
    ∃ x, splitLeaf (Past.lenient mem) build key value depth idx l = .ok x := by
  obtain ⟨bytes, h⟩ := exists_readBytes_lenient mem key depth (min maxPrefixLen idx)
  rw [splitLeaf, h, readByte_lenient, readByte_lenient]
  exact ⟨_, rfl⟩

/-- A leaf whose key does not match is split after what it shares with the key. -/
theorem tracedInsert_leaf (mem : Nat → UInt8) (build : Build) {key : List UInt8} {l : ArtLeaf V}
    (hlen : l.keyLen ≤ l.key.length) (hne : l.bytes ≠ key) (value : Option V) (depth : Nat) :
    ∃ r c₁ c₂, tracedInsert (Past.lenient mem) build key value (.leaf l) depth =
      .ok (r, some ⟨.leaf l, depth + lcp (l.bytes.drop depth) (key.drop depth), c₁, c₂⟩) := by
  obtain ⟨x, hx⟩ := exists_splitLeaf_lenient mem build key value depth
    (lcp (l.bytes.drop depth) (key.drop depth)) l
  rw [tracedInsert, leafMatches_eq _ hlen]
  simp only [bind, Except.bind, hne, decide_false, Bool.false_eq_true, if_false,
    longestCommonPrefix_eq _ hlen, hx, readByte_lenient]
  exact ⟨_, _, _, rfl⟩

/-- The split below a slot is the split of the node. -/
theorem tracedInsert_slot (past : Past) (build : Build) {key : List UInt8} (value : Option V)
    {depth : Nat} (hpath : pathDiff past n keys children key depth = .ok none) {b : UInt8} {i : Nat}
    (hread : readByte past key (depth + n.partialLen) = .ok b)
    (hf : findChild n keys children b = some i) {r : ArtNode V × Option V × Bool} {s : Split V}
    (hrec : tracedInsert past build key value (children i) (depth + n.partialLen + 1) =
      .ok (r, some s)) :
    ∃ r, tracedInsert past build key value (.node n keys children) depth = .ok (r, some s) := by
  rw [tracedInsert, hpath, hread]
  simp only [bind, Except.bind, hf, hrec]
  exact ⟨_, rfl⟩

/-- **Below a key that ends earlier, a split reads past the end of that key.** -/
theorem split_of_shorter (mem : Nat → UInt8) (build : Build) {path key : List UInt8}
    {x : ArtNode V} (h : WF path x) {e : List UInt8 × Option V} (he : e ∈ entries x)
    (hek : e.1 <+: key) (hne : e.1 ≠ key) (value : Option V) :
    ∃ r s, tracedInsert (Past.lenient mem) build key value x path.length = .ok (r, some s) ∧
      ¬ s.Apart key := by
  induction h with
  | @leaf path l hlen hpath =>
      have hmem : e = l.entry := List.mem_singleton.mp he
      have hl : l.bytes = e.1 := by rw [hmem]; rfl
      obtain ⟨r, c₁, c₂, hrun⟩ := tracedInsert_leaf mem build hlen (hl ▸ hne) value path.length
      refine ⟨r, _, hrun, fun hapart => ?_⟩
      -- the branch byte of the leaf would lie behind its end
      have hlcp := lcp_eq_length_iff.mpr ((hl ▸ hek : l.bytes <+: key).drop path.length)
      have hpl := hpath.length_le
      have := hapart.1 l.entry (by simp)
      rw [List.getElem?_eq_none] at this
      · cases this
      · show l.bytes.length ≤ path.length + _
        rw [hlcp, List.length_drop]
        omega
  | @node path n keys children c hl htwo hlen hstored hchild ih =>
      have hwf : WF path (.node n keys children) := .node c hl htwo hlen hstored hchild
      have hpaths := WF.compressed hl hchild
      obtain ⟨b, i, hi, hex⟩ := (mem_entries_node hl.toMatching).mp he
      have hbk := ((hchild b i hi).starts_with e hex).trans hek
      obtain ⟨-, -, hread⟩ := below_slot hbk
      have hck : path ++ c <+: key := (hpaths e he).trans hek
      obtain ⟨r, s, hrec, hs⟩ := ih b i hi hex
      have hpath := pathDiff_eq (Past.lenient mem) hlen hstored hwf hpaths
        ((List.prefix_append path c).trans hck)
      rw [if_pos hck] at hpath
      rw [List.length_append, List.length_append, List.length_singleton, hlen] at hrec
      obtain ⟨r, hrun⟩ := tracedInsert_slot _ build value hpath (hlen ▸ hread _)
        (hl.findChild_eq_some_iff.mpr hi) hrec
      exact ⟨r, s, hrun, hs⟩

/-- Memory in which a key goes on like a longer one. -/
theorem readByte_of_longer {key e : List UInt8} (hke : key <+: e) {i : Nat} {b : UInt8}
    (hb : e[i]? = some b) : readByte (Past.lenient fun i => (e[i]?).getD 0) key i = .ok b := by
  obtain ⟨t, ht⟩ := hke
  rw [readByte_lenient]
  by_cases hi : i < key.length
  · rw [← ht, List.getElem?_append_left hi] at hb
    rw [hb]
    rfl
  · rw [List.getElem?_eq_none (by omega), hb]
    rfl

/-- A key that ends above a longer one ends inside the path that it leaves. -/
theorem lcp_of_longer {key e c : List UInt8} {depth : Nat} (hke : key <+: e)
    (hce : c <+: e.drop depth) (hp : ¬ c <+: key.drop depth) :
    lcp c (key.drop depth) < c.length ∧ key.length ≤ depth + lcp c (key.drop depth) := by
  have hkc : key.drop depth <+: c :=
    (List.prefix_or_prefix_of_prefix hce (hke.drop depth)).resolve_left hp
  have hlcp := lcp_eq_length_iff.mpr hkc
  have hne := mt lcp_eq_length_iff.mp hp
  have hle := lcp_le_left c (key.drop depth)
  rw [List.length_drop, lcp_comm] at hlcp
  exact ⟨by omega, by omega⟩

/-- **Above a key that goes on, a split reads past the end of the new key**, if
the memory after it goes on like the old one. -/
theorem split_of_longer (build : Build) {path key : List UInt8} {x : ArtNode V} (h : WF path x)
    {e : List UInt8 × Option V} (he : e ∈ entries x) (hke : key <+: e.1) (hne : e.1 ≠ key)
    (value : Option V) :
    ∃ r s, tracedInsert (Past.lenient fun i => (e.1[i]?).getD 0) build key value x path.length =
      .ok (r, some s) ∧ key.length ≤ s.index := by
  induction h with
  | @leaf path l hlen hpath =>
      have hl : l.bytes = e.1 := by rw [List.mem_singleton.mp he]; rfl
      obtain ⟨r, c₁, c₂, hrun⟩ := tracedInsert_leaf (fun i => (e.1[i]?).getD 0) build hlen
        (hl ▸ hne) value path.length
      refine ⟨r, _, hrun, ?_⟩
      have hlcp := lcp_eq_length_iff.mpr ((hl ▸ hke : key <+: l.bytes).drop path.length)
      rw [List.length_drop, lcp_comm] at hlcp
      show key.length ≤ path.length + _
      omega
  | @node path n keys children c hl htwo hlen hstored hchild ih =>
      have hwf : WF path (.node n keys children) := .node c hl htwo hlen hstored hchild
      obtain ⟨b, i, hi, hex⟩ := (mem_entries_node hl.toMatching).mp he
      have hbe := (hchild b i hi).starts_with e hex
      obtain ⟨hce, -, -⟩ := below_slot hbe
      have hdiff := pathDiff_eq_drop (Past.lenient fun i => (e.1[i]?).getD 0) key hlen hstored hwf
        (WF.compressed hl hchild)
      by_cases hp : c <+: key.drop path.length
      · rw [if_pos hp] at hdiff
        -- inside the key or behind it, the next byte is that of the old key
        have heb : e.1[path.length + n.partialLen]? = some b := hlen ▸ getElem?_below_slot hbe
        obtain ⟨r, s, hrec, hs⟩ := ih b i hi hex
        rw [List.length_append, List.length_append, List.length_singleton, hlen] at hrec
        obtain ⟨r, hrun⟩ := tracedInsert_slot _ build value hdiff (readByte_of_longer hke heb)
          (hl.findChild_eq_some_iff.mpr hi) hrec
        exact ⟨r, s, hrun, hs⟩
      · -- the key ends inside the path
        rw [if_neg hp] at hdiff
        obtain ⟨hd, hend⟩ := lcp_of_longer hke hce hp
        obtain ⟨old, hadj, -⟩ := adjustPrefix_spec hl htwo hlen hstored hchild
          (Past.lenient fun i => (e.1[i]?).getD 0) hd
        rw [tracedInsert, hdiff]
        simp only [bind, Except.bind, splitPath, hadj, readByte_lenient]
        exact ⟨_, _, rfl, hend⟩

/-- **The branch bytes of an insert are real and different**, whatever a read
past the end of a key yields, exactly where the new key is equal to every key
of the tree or incomparable to it. -/
theorem apart_iff (build : Build) {path key : List UInt8} {x : ArtNode V} (h : WF path x)
    (hpk : path <+: key) (value : Option V) :
    (∀ mem r s, tracedInsert (Past.lenient mem) build key value x path.length = .ok (r, some s) →
      s.Apart key) ↔ ∀ e ∈ entries x, e.1 = key ∨ Incomparable e.1 key := by
  constructor
  · intro hall e he
    by_contra hcon
    obtain ⟨hne, hinc⟩ := not_or.mp hcon
    by_cases hek : e.1 <+: key
    · obtain ⟨r, s, hrun, hs⟩ := split_of_shorter (fun _ => 0) build h he hek hne value
      exact hs (hall _ r s hrun)
    · have hke : key <+: e.1 := by
        by_contra hke
        exact hinc ⟨hek, hke⟩
      obtain ⟨r, s, hrun, hs⟩ := split_of_longer build h he hke hne value
      have := (hall _ r s hrun).2.1
      rw [List.getElem?_eq_none hs] at this
      cases this
  · intro hkey mem r s hrun
    exact apart_of_incomparable _ build h hpk hkey value hrun

end LightQuery
