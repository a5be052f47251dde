import LightQuery.Art.Insert

/-!
# LightQuery.Art.Iter

`art_iter_active_prefix` and `art_iter_active`.

The prefix descent goes on below a compressed path that agrees with the prefix
in its first byte only, and iterates a whole subtree without looking at its
keys where the prefix ends inside a compressed path.  `Skims` is the way it
takes, `Misread` the kind of node where it goes wrong, and
`iterExact_iff` says that it is right exactly when it meets no such node.
-/

namespace LightQuery

open CArray CommonPrefix PrefixFamily

variable {V : Type} {n : Header} {keys : Nat → UInt8} {children : Nat → ArtNode V}

/-! ## art_iter_active and art_iter_active_prefix -/

/-- `recursive_iter_active`: the values that the callback receives, in order. -/
def recursiveIterActive : ArtNode V → List V
  | .null => []
  | .leaf l => l.value.toList
  | .node n keys children =>
      (childOrder n keys children).flatMap fun i => recursiveIterActive (children i)

/-- `art_iter_active`. -/
def artIterActive (t : ArtTree V) : List V := recursiveIterActive t.root

/-- `!leaf_prefix_matches(n, prefix, prefix_len)`. -/
def leafPrefixMatches (past : Past) (l : ArtLeaf V) (key : List UInt8) : Except Fault Bool :=
  if l.keyLen < key.length then .ok false else memcmpEq past l.key key key.length

/-- `if (n->partial_len) { … }` of `art_iter_active_prefix`: `none` when the
descent goes deeper. -/
def iterPath (past : Past) (key : List UInt8) (n : Header) (keys : Nat → UInt8)
    (children : Nat → ArtNode V) (depth : Nat) : Except Fault (Option (List V)) :=
  if n.partialLen = 0 then .ok none
  else do
    let prefixLen ← prefixMismatch past n keys children key depth
    let prefixLen := min prefixLen n.partialLen
    .ok (if prefixLen = 0 then some []
      else if depth + prefixLen = key.length then
        some (recursiveIterActive (.node n keys children))
      else none)

/-- The loop of `art_iter_active_prefix`. -/
def iterLoop (past : Past) (key : List UInt8) : ArtNode V → (depth : Nat) →
    Except Fault (List V)
  | .null, _ => .ok []
  | .leaf l, _ => do
      if ← leafPrefixMatches past l key then .ok l.value.toList else .ok []
  | .node n keys children, depth => do
      if depth = key.length then
        match minimum (.node n keys children) with
        | none => .error .nullNode
        | some l =>
            if ← leafPrefixMatches past l key then
              .ok (recursiveIterActive (.node n keys children))
            else .ok []
      else
        match ← iterPath past key n keys children depth with
        | some vs => .ok vs
        | none =>
            let c ← readByte past key (depth + n.partialLen)
            match findChild n keys children c with
            | some i => iterLoop past key (children i) (depth + n.partialLen + 1)
            | none => .ok []

/-- `art_iter_active_prefix`. -/
def artIterActivePrefix (past : Past) (t : ArtTree V) (key : List UInt8) :
    Except Fault (List V) :=
  iterLoop past key t.root 0

/-! ## live entries -/

/-- The values of the live entries. -/
def live (F : List (List UInt8 × Option V)) : List V := F.filterMap fun e => e.2

theorem live_perm {F G : List (List UInt8 × Option V)} (h : F.Perm G) : (live F).Perm (live G) :=
  h.filterMap _

theorem live_append (F G : List (List UInt8 × Option V)) : live (F ++ G) = live F ++ live G :=
  List.filterMap_append ..

/-- The iteration calls back once for every live leaf. -/
theorem recursiveIterActive_eq (x : ArtNode V) : recursiveIterActive x = live (entries x) := by
  induction x with
  | null => rfl
  | leaf l =>
      rw [recursiveIterActive, entries_leaf, live, ArtLeaf.entry]
      cases l.value <;> rfl
  | node n keys children ih =>
      simp only [recursiveIterActive, entries, leaves, live, List.map_flatMap,
        List.filterMap_flatMap]
      exact List.flatMap_congr fun i _ => ih i

theorem leafPrefixMatches_eq (past : Past) {l : ArtLeaf V} (hbuf : l.keyLen ≤ l.key.length)
    (key : List UInt8) : leafPrefixMatches past l key = .ok (decide (key <+: l.bytes)) := by
  have hbl := bytes_length hbuf
  unfold leafPrefixMatches
  split
  · congr 1
    rw [eq_comm, decide_eq_false_iff_not]
    intro h
    have := h.length_le
    omega
  · rw [memcmpEq_eq past (by omega) (Nat.le_refl _), List.take_length]
    congr 1
    rw [decide_eq_decide, List.prefix_iff_eq_take, ArtLeaf.bytes, List.take_take,
      Nat.min_eq_left (by omega), eq_comm]

/-! ## where the descent goes wrong -/

/-- The compressed path of an inner node below `path`, as its least leaf has it. -/
def compressed (path : List UInt8) (n : Header) (keys : Nat → UInt8)
    (children : Nat → ArtNode V) : List UInt8 :=
  match minimum (.node n keys children) with
  | none => []
  | some l => (l.bytes.drop path.length).take n.partialLen

/-- The compressed path is the one that the invariant speaks of. -/
theorem compressed_eq {path c : List UInt8} (hlen : c.length = n.partialLen)
    (h : WF path (.node n keys children))
    (hpath : ∀ e ∈ entries (.node n keys children), path ++ c <+: e.1) :
    compressed path n keys children = c := by
  obtain ⟨l, hmin, hmem, -⟩ := h.minimum_spec
  obtain ⟨t, ht⟩ := hpath _ hmem
  have ht' : path ++ c ++ t = l.bytes := ht
  rw [compressed, hmin]
  simp only
  rw [← ht', List.append_assoc, List.drop_left, ← hlen, List.take_left]

/-- The prefix `p` is led from `x`, below `path`, to `y`, below `path'`: at
every node on the way the first byte of the compressed path and the slot byte
are those of `p`; the other bytes of the compressed path may be any. -/
inductive Skims (p : List UInt8) :
    List UInt8 → ArtNode V → List UInt8 → ArtNode V → Prop
  | here {path : List UInt8} {x : ArtNode V} : Skims p path x path x
  | slot {path path' : List UInt8} {n : Header} {keys : Nat → UInt8} {children : Nat → ArtNode V}
      {b : UInt8} {i : Nat} {y : ArtNode V}
      (hfirst : compressed path n keys children ≠ [] →
        (compressed path n keys children).head? = p[path.length]?)
      (hb : p[path.length + n.partialLen]? = some b) (hi : Slot n keys children b i)
      (h : Skims p (path ++ compressed path n keys children ++ [b]) (children i) path' y) :
      Skims p path (.node n keys children) path' y

/-- An inner node that misleads `p`: `p` ends inside its compressed path and
agrees with the first byte of it, but differs from the compressed path further
on, or differs from the path above the node although the node holds a live
leaf. -/
def Misread (p path : List UInt8) : ArtNode V → Prop
  | .node n keys children =>
      let c := compressed path n keys children
      c ≠ [] ∧ c.head? = p[path.length]? ∧ path.length < p.length ∧
        p.length ≤ path.length + n.partialLen ∧
        (¬ p.drop path.length <+: c ∨
          (¬ path <+: p ∧ live (entries (.node n keys children)) ≠ []))
  | _ => False

/-- No entry of the node is below `p` unless `p` agrees with its path. -/
theorem below_eq_nil_of_path {path p : List UInt8} {x : ArtNode V} (h : WF path x)
    (hle : path.length ≤ p.length) (hp : ¬ path <+: p) : below (entries x) p = [] := by
  refine below_eq_nil fun e he hpe => ?_
  rcases List.prefix_or_prefix_of_prefix (h.starts_with e he) hpe with h' | h'
  · exact hp h'
  · exact hp (h'.eq_of_length (Nat.le_antisymm h'.length_le hle) ▸ List.prefix_rfl)

theorem getElem?_of_isPrefix {xs ys : List UInt8} (h : xs <+: ys) {i : Nat} (hi : i < xs.length) :
    ys[i]? = xs[i]? := by
  obtain ⟨t, rfl⟩ := h
  rw [List.getElem?_append_left hi]

/-- An entry below another slot has another byte where `p` has the slot byte. -/
theorem not_below_other_slot {path c p : List UInt8} {b : UInt8} (hl : Layout n keys children)
    (hchild : ∀ b i, Slot n keys children b i → WF (path ++ c ++ [b]) (children i))
    (hb : p[path.length + c.length]? = some b) {e : List UInt8 × Option V}
    (he : e ∈ mapEntries (Function.update (childAt n keys children) b none)) : ¬ p <+: e.1 := by
  intro hpe
  obtain ⟨b', x, hb', hex⟩ := mem_mapEntries.mp he
  have hne : b' ≠ b := by
    rintro rfl
    rw [Function.update_self] at hb'
    cases hb'
  rw [Function.update_of_ne hne] at hb'
  obtain ⟨j, hj, rfl⟩ := hl.childAt_eq_some_iff.mp hb'
  have hp : path.length + c.length < p.length := (List.getElem?_eq_some_iff.mp hb).1
  -- the entry has both bytes at the position of the slot byte
  have h1 := getElem?_of_isPrefix hpe hp
  have h2 := getElem?_of_isPrefix ((hchild b' j hj).starts_with e hex)
    (i := path.length + c.length) (by simp)
  rw [h1, hb, List.getElem?_append_right (by simp)] at h2
  simp at h2
  exact hne h2.symm

/-- What is below `p` is below the slot that `p` selects. -/
theorem below_node_perm {path c p : List UInt8} {b : UInt8} (hl : Layout n keys children)
    (hchild : ∀ b i, Slot n keys children b i → WF (path ++ c ++ [b]) (children i))
    (hb : p[path.length + c.length]? = some b) :
    (below (entries (.node n keys children)) p).Perm
      (below ((childAt n keys children b).elim [] entries) p) := by
  have hother : below (mapEntries (Function.update (childAt n keys children) b none)) p = [] := by
    refine below_eq_nil fun e he hpe => ?_
    exact not_below_other_slot hl hchild hb he hpe
  refine (below_perm ((entries_node_perm hl.toMatching).trans (mapEntries_perm _ b)) p).trans
    (List.Perm.of_eq ?_)
  rw [below_append, hother, List.append_nil]

/-! ## the descent -/

/-- What the iteration over a prefix has to be: inside the buffer, once for
every live leaf below the prefix. -/
def IterExact (p : List UInt8) (x : ArtNode V) (depth : Nat) : Prop :=
  ∃ vs, iterLoop Past.strict p x depth = .ok vs ∧ vs.Perm (live (below (entries x) p))

/-- What a leaf, or a node at the end of the prefix, decides by comparing a
whole key is right. -/
theorem iterExact_leaf (p : List UInt8) {l : ArtLeaf V} (hbuf : l.keyLen ≤ l.key.length)
    (depth : Nat) : IterExact p (.leaf l) depth := by
  refine ⟨_, ?_, List.Perm.refl _⟩
  rw [iterLoop, leafPrefixMatches_eq _ hbuf]
  simp only [bind, Except.bind]
  by_cases h : p <+: l.bytes
  · have hall : ∀ e ∈ entries (.leaf l), p <+: e.1 := fun e he => by
      rw [List.mem_singleton.mp he]; exact h
    rw [below_eq_self hall]
    simp only [h, decide_true, if_true, entries_leaf, live, ArtLeaf.entry]
    cases l.value <;> rfl
  · have hnone : ∀ e ∈ entries (.leaf l), ¬ p <+: e.1 := fun e he => by
      rw [List.mem_singleton.mp he]; exact h
    rw [below_eq_nil hnone]
    simp [h, live]

theorem iterExact_end {path p : List UInt8} (h : WF path (.node n keys children))
    (hlen : path.length = p.length) : IterExact p (.node n keys children) path.length := by
  obtain ⟨l, hmin, hmem, hbuf⟩ := h.minimum_spec
  refine ⟨_, ?_, List.Perm.refl _⟩
  rw [iterLoop, if_pos hlen, hmin]
  simp only [leafPrefixMatches_eq _ hbuf, bind, Except.bind]
  have hpl : path <+: l.bytes := h.starts_with _ hmem
  by_cases hp : p <+: l.bytes
  · -- the least leaf has the whole path, so all the others start with `p` too
    have hpath : p = path := by
      rcases List.prefix_or_prefix_of_prefix hp hpl with h' | h'
      · exact h'.eq_of_length hlen.symm
      · exact (h'.eq_of_length hlen).symm
    have hall : ∀ e ∈ entries (.node n keys children), p <+: e.1 := fun e he =>
      hpath ▸ h.starts_with e he
    rw [below_eq_self hall]
    simp only [hp, decide_true, if_true, recursiveIterActive_eq]
  · have hne : ¬ path <+: p := fun h' => hp (h'.eq_of_length hlen ▸ hpl)
    rw [below_eq_nil_of_path h (by omega) hne]
    simp [hp, live]

/-- The exits at a compressed path. -/
theorem iterPath_eq (past : Past) {path c p : List UInt8} (hlen : c.length = n.partialLen)
    (hstored : n.stored = c.take maxPrefixLen) (h : WF path (.node n keys children))
    (hpath : ∀ e ∈ entries (.node n keys children), path ++ c <+: e.1) :
    iterPath past p n keys children path.length =
      .ok (if c = [] then none
        else if lcp c (p.drop path.length) = 0 then some []
        else if path.length + lcp c (p.drop path.length) = p.length then
          some (live (entries (.node n keys children)))
        else none) := by
  obtain ⟨l, hmin, hmem, hbuf⟩ := h.minimum_spec
  obtain ⟨r, hr, hmr, -⟩ := prefixMismatch_spec past p hlen hstored hmin hbuf
    (hpath _ hmem)
  unfold iterPath
  by_cases hc : c = []
  · rw [if_pos hc, if_pos (by rw [← hlen, hc]; rfl)]
  · have hpos := List.length_pos_of_ne_nil hc
    rw [if_neg hc, if_neg (by omega), hr]
    simp only [bind, Except.bind, hmr, recursiveIterActive_eq]

/-- How much the compressed path shares with `p` tells whether the first byte
agrees. -/
theorem lcp_eq_zero_iff {c p : List UInt8} {d : Nat} (hc : c ≠ []) (hlt : d < p.length) :
    lcp c (p.drop d) = 0 ↔ c.head? ≠ p[d]? := by
  cases c with
  | nil => exact absurd rfl hc
  | cons a c =>
      rw [List.drop_eq_getElem_cons hlt, lcp_cons, List.head?_cons, List.getElem?_eq_getElem hlt]
      by_cases h : a = p[d]
      · simp [h]
      · simp [h]

/-- Below a node that agrees in its first byte, the descent follows the slot. -/
theorem iterLoop_slot (past : Past) {path c p : List UInt8} (hlen : c.length = n.partialLen)
    (hstored : n.stored = c.take maxPrefixLen) (h : WF path (.node n keys children))
    (hpath : ∀ e ∈ entries (.node n keys children), path ++ c <+: e.1)
    (hfirst : c ≠ [] → c.head? = p[path.length]?) {b : UInt8}
    (hb : p[path.length + c.length]? = some b) :
    iterLoop past p (.node n keys children) path.length =
      match findChild n keys children b with
      | some i => iterLoop past p (children i) (path ++ c ++ [b]).length
      | none => .ok [] := by
  have hlt : path.length + c.length < p.length := (List.getElem?_eq_some_iff.mp hb).1
  have hread : readByte past p (path.length + n.partialLen) = .ok b := by
    rw [← hlen]; simp [readByte, hb]
  have hd : path.length + n.partialLen + 1 = (path ++ c ++ [b]).length := by
    simp only [List.length_append, List.length_singleton, hlen]
  have hle := lcp_le_left c (p.drop path.length)
  have hdeeper : iterPath past p n keys children path.length = .ok none := by
    rw [iterPath_eq past hlen hstored h hpath]
    by_cases hc : c = []
    · rw [if_pos hc]
    · have hpos := mt (lcp_eq_zero_iff hc (p := p) (d := path.length) (by omega)).mp
        (not_not.mpr (hfirst hc))
      rw [if_neg hc, if_neg hpos, if_neg (by omega)]
  rw [iterLoop, if_neg (by omega), hdeeper]
  simp only [bind, Except.bind, hread, hd]

/-- A prefix that goes on below a slot is iterated there. -/
theorem iterExact_slot {path c p : List UInt8} (hlen : c.length = n.partialLen)
    (hstored : n.stored = c.take maxPrefixLen) (h : WF path (.node n keys children))
    (hl : Layout n keys children)
    (hchild : ∀ b i, Slot n keys children b i → WF (path ++ c ++ [b]) (children i))
    (hfirst : c ≠ [] → c.head? = p[path.length]?) {b : UInt8}
    (hb : p[path.length + c.length]? = some b) :
    IterExact p (.node n keys children) path.length ↔
      ∀ i, Slot n keys children b i → IterExact p (children i) (path ++ c ++ [b]).length := by
  have hbelow := live_perm (below_node_perm hl hchild hb)
  have hloop := iterLoop_slot Past.strict hlen hstored h (WF.compressed hl hchild) hfirst hb
  unfold IterExact
  rw [hloop]
  cases hf : findChild n keys children b with
  | none =>
      have hnone : childAt n keys children b = none := by rw [childAt, hf]; rfl
      rw [hnone] at hbelow
      exact iff_of_true ⟨[], rfl, hbelow.symm⟩ fun i hi =>
        absurd hi (hl.childAt_eq_none_iff.mp hnone i)
  | some i =>
      have hi := hl.findChild_eq_some_iff.mp hf
      rw [hl.childAt_of_slot hi] at hbelow
      constructor
      · rintro ⟨vs, hvs, hperm⟩ j hj
        rw [hl.slot hj hi]
        exact ⟨vs, hvs, hperm.trans hbelow⟩
      · intro hall
        obtain ⟨vs, hvs, hperm⟩ := hall i hi
        exact ⟨vs, hvs, hperm.trans hbelow.symm⟩

/-- A prefix that differs from a compressed path in its first byte has nothing
below it, and the descent ends. -/
theorem iterExact_first {path c p : List UInt8} (hlen : c.length = n.partialLen)
    (hstored : n.stored = c.take maxPrefixLen) (h : WF path (.node n keys children))
    (hpath : ∀ e ∈ entries (.node n keys children), path ++ c <+: e.1)
    (hlt : path.length < p.length) (hc : c ≠ []) (hhead : c.head? ≠ p[path.length]?) :
    IterExact p (.node n keys children) path.length := by
  have hnil : below (entries (.node n keys children)) p = [] := by
    refine below_eq_nil fun e he hpe => hhead ?_
    have h1 := getElem?_of_isPrefix hpe hlt
    have h2 := getElem?_of_isPrefix (hpath e he) (i := path.length) (by
      have := List.length_pos_of_ne_nil hc
      rw [List.length_append]; omega)
    rw [h1] at h2
    rw [h2, List.getElem?_append_right (Nat.le_refl _), Nat.sub_self, List.head?_eq_getElem?]
  refine ⟨[], ?_, by rw [hnil]; exact List.Perm.refl _⟩
  rw [iterLoop, if_neg (by omega), iterPath_eq Past.strict hlen hstored h hpath, if_neg hc,
    if_pos ((lcp_eq_zero_iff hc hlt).mpr hhead)]
  rfl

/-- Where the prefix ends inside a compressed path, the whole node is iterated
if the rest of the prefix agrees with the path; otherwise the descent reads past
the end of the prefix. -/
theorem iterExact_inside {path c p : List UInt8} (hlen : c.length = n.partialLen)
    (hstored : n.stored = c.take maxPrefixLen) (h : WF path (.node n keys children))
    (hpath : ∀ e ∈ entries (.node n keys children), path ++ c <+: e.1)
    (hlt : path.length < p.length) (hc : c ≠ []) (hhead : c.head? = p[path.length]?)
    (hout : p.length ≤ path.length + c.length) :
    IterExact p (.node n keys children) path.length ↔ p.drop path.length <+: c ∧
      (path <+: p ∨ live (entries (.node n keys children)) = []) := by
  have hpos := mt (lcp_eq_zero_iff hc hlt).mp (not_not.mpr hhead)
  have hin : path.length + lcp c (p.drop path.length) = p.length ↔ p.drop path.length <+: c := by
    have hdl : (p.drop path.length).length = p.length - path.length := List.length_drop ..
    rw [← lcp_eq_length_iff, lcp_comm, hdl]
    omega
  have hloop : iterLoop Past.strict p (.node n keys children) path.length =
      if p.drop path.length <+: c then .ok (live (entries (.node n keys children)))
      else .error (.pastEnd (path.length + c.length)) := by
    rw [iterLoop, if_neg (by omega), iterPath_eq Past.strict hlen hstored h hpath, if_neg hc,
      if_neg hpos]
    by_cases hp : p.drop path.length <+: c
    · rw [if_pos (hin.mpr hp), if_pos hp]
      rfl
    · rw [if_neg (mt hin.mp hp), if_neg hp, ← hlen]
      simp only [bind, Except.bind, readByte_ge Past.strict hout, Past.strict]
  unfold IterExact
  rw [hloop]
  by_cases hp : p.drop path.length <+: c
  · rw [if_pos hp]
    by_cases hpp : path <+: p
    · have hpc : p <+: path ++ c := by
        obtain ⟨t, rfl⟩ := hpp
        rwa [List.drop_left, ← List.prefix_append_right_inj path] at hp
      rw [below_eq_self fun e he => hpc.trans (hpath e he)]
      exact iff_of_true ⟨_, rfl, List.Perm.refl _⟩ ⟨hp, .inl hpp⟩
    · rw [below_eq_nil_of_path h (by omega) hpp]
      constructor
      · rintro ⟨vs, hvs, hperm⟩
        cases hvs
        exact ⟨hp, .inr hperm.eq_nil⟩
      · rintro ⟨-, hlive⟩
        rcases hlive with hlive | hlive
        · exact absurd hlive hpp
        · exact ⟨_, rfl, List.Perm.of_eq hlive⟩
  · rw [if_neg hp]
    refine iff_of_false ?_ fun h => hp h.1
    rintro ⟨vs, hvs, -⟩
    cases hvs

/-- An iteration that stays inside the prefix is the same for every `past`. -/
theorem iterLoop_of_strict (past : Past) {path p : List UInt8} {x : ArtNode V} (h : WF path x)
    {vs : List V} (hvs : iterLoop Past.strict p x path.length = .ok vs) :
    iterLoop past p x path.length = .ok vs := by
  induction h with
  | leaf hbuf hpath =>
      rw [iterLoop, leafPrefixMatches_eq _ hbuf] at hvs ⊢
      exact hvs
  | @node path n keys children c hl htwo hlen hstored hchild ih =>
      have hwf : WF path (.node n keys children) := .node c hl htwo hlen hstored hchild
      have hpaths := WF.compressed hl hchild
      obtain ⟨l, hmin, -, hbuf⟩ := hwf.minimum_spec
      rw [iterLoop] at hvs ⊢
      split at hvs
      · next hend =>
          rw [if_pos hend]
          simp only [hmin, leafPrefixMatches_eq _ hbuf] at hvs ⊢
          exact hvs
      · next hend =>
          rw [if_neg hend]
          rw [iterPath_eq _ hlen hstored hwf hpaths] at hvs ⊢
          simp only [bind, Except.bind] at hvs ⊢
          -- the exit at the compressed path is the same
          split at hvs
          · exact hvs
          · simp only [readByte] at hvs ⊢
            cases hb : p[path.length + n.partialLen]? with
            | none => simp [hb, Past.strict] at hvs
            | some b =>
                simp only [hb] at hvs ⊢
                cases hf : findChild n keys children b with
                | none => simpa [hf] using hvs
                | some i =>
                    have hd : path.length + n.partialLen + 1 = (path ++ c ++ [b]).length := by
                      simp only [List.length_append, List.length_singleton, hlen]
                    simp only [hf, hd] at hvs ⊢
                    exact ih b i (hl.findChild_eq_some_iff.mp hf) hvs

/-- A node misleads `p` or passes it on to a slot. -/
theorem exists_misread_node {path c p : List UInt8}
    (hc : compressed path n keys children = c) (hlen : c.length = n.partialLen) :
    (∃ path' y, Skims p path (.node n keys children) path' y ∧ Misread p path' y) ↔
      Misread p path (.node n keys children) ∨
      ((c ≠ [] → c.head? = p[path.length]?) ∧ ∃ b i, p[path.length + c.length]? = some b ∧
        Slot n keys children b i ∧
        ∃ path' y, Skims p (path ++ c ++ [b]) (children i) path' y ∧ Misread p path' y) := by
  constructor
  · rintro ⟨path', y, hs, hm⟩
    cases hs with
    | here => exact .inl hm
    | slot hfirst hb hi hs =>
        rw [hc] at hfirst hs
        rw [← hlen] at hb
        exact .inr ⟨hfirst, _, _, hb, hi, path', y, hs, hm⟩
  · rintro (hm | ⟨hfirst, b, i, hb, hi, path', y, hs, hm⟩)
    · exact ⟨path, _, .here, hm⟩
    · exact ⟨path', y, .slot (by rwa [hc]) (by rwa [← hlen]) hi (by rwa [hc]), hm⟩

/-- **The iteration is exact if and only if it meets no node that misleads
it.** -/
theorem iterExact_iff {path p : List UInt8} {x : ArtNode V} (h : WF path x)
    (hle : path.length ≤ p.length) : IterExact p x path.length ↔
      ¬ ∃ path' y, Skims p path x path' y ∧ Misread p path' y := by
  induction h with
  | leaf hbuf hpath =>
      refine iff_of_true (iterExact_leaf p hbuf _) ?_
      rintro ⟨path', y, hs, hm⟩
      cases hs
      exact hm
  | @node path n keys children c hl htwo hlen hstored hchild ih =>
      have hwf : WF path (.node n keys children) := .node c hl htwo hlen hstored hchild
      have hpaths := WF.compressed hl hchild
      have hc := compressed_eq hlen hwf hpaths
      rw [exists_misread_node hc hlen]
      -- what it takes for the node itself to mislead
      have hmis : Misread p path (.node n keys children) → c ≠ [] ∧ c.head? = p[path.length]? ∧
          path.length < p.length ∧ p.length ≤ path.length + c.length := by
        intro hm
        simp only [Misread, hc] at hm
        exact ⟨hm.1, hm.2.1, hm.2.2.1, by rw [hlen]; exact hm.2.2.2.1⟩
      rcases Nat.lt_or_ge path.length p.length with hlt | hge
      · by_cases hfirst : c ≠ [] → c.head? = p[path.length]?
        · rcases Nat.lt_or_ge (path.length + c.length) p.length with hin | hout
          · -- the descent follows a slot
            obtain ⟨b, hb⟩ : ∃ b, p[path.length + c.length]? = some b :=
              ⟨_, List.getElem?_eq_getElem hin⟩
            have hle' : (path ++ c ++ [b]).length ≤ p.length := by
              rw [List.length_append, List.length_append, List.length_singleton]; omega
            rw [iterExact_slot hlen hstored hwf hl hchild hfirst hb]
            constructor
            · rintro hall (hm | ⟨-, b', i, hb', hi, hs⟩)
              · have := (hmis hm).2.2.2
                omega
              · rw [hb] at hb'
                cases hb'
                exact (ih b i hi hle').mp (hall i hi) hs
            · intro hno i hi
              exact (ih b i hi hle').mpr fun hs => hno (.inr ⟨hfirst, b, i, hb, hi, hs⟩)
          · -- the prefix ends inside the compressed path
            have hcne : c ≠ [] := by
              rintro rfl
              rw [List.length_nil] at hout
              omega
            rw [iterExact_inside hlen hstored hwf hpaths hlt hcne (hfirst hcne) hout]
            have hslot : ∀ b, p[path.length + c.length]? ≠ some b := fun b hb => by
              rw [List.getElem?_eq_none hout] at hb
              cases hb
            constructor
            · rintro ⟨hp, hlive⟩ (hm | ⟨-, b, -, hb, -⟩)
              · simp only [Misread, hc] at hm
                rcases hm.2.2.2.2 with hnp | ⟨hnpath, hne⟩
                · exact hnp hp
                · exact hlive.elim hnpath hne
              · exact hslot b hb
            · intro hno
              have hm : ¬ Misread p path (.node n keys children) := fun hm => hno (.inl hm)
              simp only [Misread, hc] at hm
              rw [← hlen] at hm
              by_contra hbad
              refine hm ⟨hcne, hfirst hcne, hlt, hout, ?_⟩
              by_cases hp : p.drop path.length <+: c
              · exact .inr ⟨fun h => hbad ⟨hp, .inl h⟩, fun h => hbad ⟨hp, .inr h⟩⟩
              · exact .inl hp
        · -- the first byte of the compressed path is not that of `p`
          have hcne : c ≠ [] := fun h => hfirst fun h' => absurd h h'
          have hhead : c.head? ≠ p[path.length]? := fun h => hfirst fun _ => h
          refine iff_of_true (iterExact_first hlen hstored hwf hpaths hlt hcne hhead) ?_
          rintro (hm | ⟨hf, -⟩)
          · exact hhead (hmis hm).2.1
          · exact hfirst hf
      · refine iff_of_true (iterExact_end hwf (by omega)) ?_
        rintro (hm | ⟨-, b, i, hb, -⟩)
        · have := (hmis hm).2.2.1
          omega
        · rw [List.getElem?_eq_none (by omega)] at hb
          cases hb

/-- A prefix that is comparable with a key or a mark of the tree is not misled. -/
theorem not_misread_of_comparable {path p : List UInt8} {x : ArtNode V} (h : WF path x)
    {e : List UInt8 × Option V} (he : e ∈ entries x) (hcmp : p <+: e.1 ∨ e.1 <+: p) :
    ¬ ∃ path' y, Skims p path x path' y ∧ Misread p path' y := by
  induction h with
  | leaf hbuf hpath =>
      rintro ⟨path', y, hs, hm⟩
      cases hs
      exact hm
  | @node path n keys children c hl htwo hlen hstored hchild ih =>
      have hwf : WF path (.node n keys children) := .node c hl htwo hlen hstored hchild
      have hc := compressed_eq hlen hwf (WF.compressed hl hchild)
      obtain ⟨b, i, hi, hex⟩ := (mem_entries_node hl.toMatching).mp he
      -- the key goes on below the slot of `b`
      have hstart : path ++ c ++ [b] <+: e.1 := (hchild b i hi).starts_with e hex
      have hlong : path.length + c.length < e.1.length := by
        have := hstart.length_le
        simp only [List.length_append, List.length_singleton] at this
        omega
      rw [exists_misread_node hc hlen]
      rintro (hm | ⟨-, b', j, hb, hj, hs⟩)
      · simp only [Misread, hc] at hm
        obtain ⟨-, -, hlt, hout, hbad⟩ := hm
        have hpe : p <+: e.1 := hcmp.resolve_right fun hep => by
          have := hep.length_le
          omega
        have hpath : path <+: p := List.prefix_of_prefix_length_le
          (((List.prefix_append path c).trans (List.prefix_append _ [b])).trans hstart) hpe hlt.le
        have hpc : p <+: path ++ c := List.prefix_of_prefix_length_le hpe
          ((List.prefix_append _ [b]).trans hstart) (by rw [List.length_append]; omega)
        rcases hbad with hnp | ⟨hnpath, -⟩
        · obtain ⟨t, rfl⟩ := hpath
          rw [List.drop_left] at hnp
          exact hnp ((List.prefix_append_right_inj path).mp hpc)
        · exact hnpath hpath
      · have hlt : path.length + c.length < p.length := (List.getElem?_eq_some_iff.mp hb).1
        have heb : e.1[path.length + c.length]? = some b := by
          rw [getElem?_of_isPrefix hstart (by simp), List.getElem?_append_right (by simp)]
          simp
        have hsame : e.1[path.length + c.length]? = p[path.length + c.length]? := by
          rcases hcmp with hpe | hep
          · exact getElem?_of_isPrefix hpe hlt
          · exact (getElem?_of_isPrefix hep hlong).symm
        obtain rfl : b' = b := by
          rw [heb, hb] at hsame
          exact (Option.some.inj hsame).symm
        obtain rfl := hl.slot hj hi
        exact ih b' j hj hex hs

end LightQuery
