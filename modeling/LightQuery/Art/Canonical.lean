import LightQuery.Art.DeletePrefix

/-!
# LightQuery.Art.Canonical

The shape of a tree is determined by its entries.

`Alike` relates two pointers that agree in everything but the types of their
nodes and the slots that hold the children: NODE4 or NODE16, sorted by signed
or by unsigned bytes.  Well-formed pointers below one path are alike if and
only if they hold the same entries (`WF.alike_iff`), and searching, lookup and
the iteration over a prefix do not tell them apart, past the end of the key
neither.
-/

namespace LightQuery

open CArray CommonPrefix PrefixFamily

variable {V : Type}

/-! ## pointers of one shape -/

/-- Two pointers that differ only in the types of the nodes below them and in
the slots of their children. -/
inductive Alike : ArtNode V → ArtNode V → Prop
  | null : Alike .null .null
  | leaf {l l' : ArtLeaf V} (h : l.entry = l'.entry) : Alike (.leaf l) (.leaf l')
  | node {n n' : Header} {keys keys' : Nat → UInt8} {children children' : Nat → ArtNode V}
      (hlen : n.partialLen = n'.partialLen) (hstored : n.stored = n'.stored)
      (hused : ∀ b, (findChild n keys children b).isSome = (findChild n' keys' children' b).isSome)
      (hchild : ∀ b i j, findChild n keys children b = some i →
        findChild n' keys' children' b = some j → Alike (children i) (children' j)) :
      Alike (.node n keys children) (.node n' keys' children')

variable {n n' : Header} {keys keys' : Nat → UInt8} {children children' : Nat → ArtNode V}

/-- Of the children for a byte both are there or none is. -/
theorem none_or_some_of_isSome {α : Type} {o o' : Option α} (h : o.isSome = o'.isSome) :
    o = none ∧ o' = none ∨ ∃ i j, o = some i ∧ o' = some j := by
  cases o <;> cases o' <;> simp_all

/-- A byte has a child where some entry goes on with it. -/
theorem isSome_findChild_iff {path c : List UInt8} (hl : Layout n keys children)
    (hchild : ∀ b i, Slot n keys children b i → WF (path ++ c ++ [b]) (children i)) {b : UInt8} :
    (findChild n keys children b).isSome = true ↔
      ∃ e ∈ entries (.node n keys children), path ++ c ++ [b] <+: e.1 := by
  constructor
  · intro h
    obtain ⟨i, hi⟩ := Option.isSome_iff_exists.mp h
    have hs := hl.findChild_eq_some_iff.mp hi
    obtain ⟨e, he⟩ := List.exists_mem_of_ne_nil _ (hchild b i hs).entries_ne_nil
    exact ⟨e, (mem_entries_node hl.toMatching).mpr ⟨b, i, hs, he⟩, (hchild b i hs).starts_with e he⟩
  · rintro ⟨e, he, hpre⟩
    obtain ⟨b', i, hs, hex⟩ := (mem_entries_node hl.toMatching).mp he
    -- the entry goes on with one byte only
    have hbb : b = b' := by
      by_contra hne
      exact (incomparable_of_branch hne hpre ((hchild b' i hs).starts_with e hex)).1 List.prefix_rfl
    rw [hbb, hl.findChild_eq_some_iff.mpr hs]
    rfl

/-- The entries of a child are those that go through its byte. -/
theorem entries_child_perm {path c : List UInt8} (hl : Layout n keys children)
    (hchild : ∀ b i, Slot n keys children b i → WF (path ++ c ++ [b]) (children i)) {b : UInt8}
    {i : Nat} (hi : Slot n keys children b i) :
    (entries (children i)).Perm (below (entries (.node n keys children)) (path ++ c ++ [b])) := by
  have hb : (path ++ c ++ [b])[path.length + c.length]? = some b := by
    rw [← List.length_append, List.getElem?_append_right le_rfl]
    simp
  refine ((below_node_perm hl hchild hb).trans (List.Perm.of_eq ?_)).symm
  rw [hl.childAt_of_slot hi]
  exact below_eq_self (hchild b i hi).starts_with

/-- A node holds more than one entry. -/
theorem entries_node_ne_singleton {path : List UInt8} (h : WF path (.node n keys children))
    (e : List UInt8 × Option V) : ¬ (entries (.node n keys children)).Perm [e] := by
  intro hp
  cases h with
  | node c hl htwo hlen hstored hchild =>
      -- all entries would start with the whole key
      have hall : ∀ e' ∈ entries (.node n keys children), e.1 <+: e'.1 := fun e' he' => by
        rw [List.mem_singleton.mp (hp.mem_iff.mp he')]
      have hle := (forall_prefix_iff hl htwo hlen hstored hchild).mp hall
      obtain ⟨b, i, hs, he⟩ := (mem_entries_node hl.toMatching).mp
        (hp.mem_iff.mpr List.mem_cons_self)
      have hlong := ((hchild b i hs).starts_with e he).length_le
      have hshort := hle.length_le
      simp only [List.length_append, List.length_singleton] at hlong hshort
      omega

/-- The compressed path is the longest one that all entries share. -/
theorem compressed_congr {path : List UInt8} (h : WF path (.node n keys children))
    (h' : WF path (.node n' keys' children'))
    (hp : (entries (.node n keys children)).Perm (entries (.node n' keys' children'))) :
    compressed path n keys children = compressed path n' keys' children' := by
  have hle := prefix_compressed h' fun e he => compressed_le h e (hp.mem_iff.mpr he)
  have hge := prefix_compressed h fun e he => compressed_le h' e (hp.mem_iff.mp he)
  exact List.append_cancel_left
    (hle.eq_of_length (Nat.le_antisymm hle.length_le hge.length_le))

/-- **Equal entries, equal shape.** -/
theorem WF.alike_of_perm {path : List UInt8} {x y : ArtNode V} (hx : WF path x) (hy : WF path y)
    (hp : (entries x).Perm (entries y)) : Alike x y := by
  induction hx generalizing y with
  | @leaf path l hbuf hpath =>
      cases hy with
      | leaf hbuf' hpath' => exact .leaf (List.singleton_perm_singleton.mp hp)
      | node c hl htwo hlen hstored hchild =>
          exact absurd hp.symm
            (entries_node_ne_singleton (.node c hl htwo hlen hstored hchild) l.entry)
  | @node path n keys children c hl htwo hlen hstored hchild ih =>
      cases hy with
      | @leaf _ l hbuf hpath =>
          exact absurd hp (entries_node_ne_singleton (.node c hl htwo hlen hstored hchild) l.entry)
      | @node _ n' keys' children' c' hl' htwo' hlen' hstored' hchild' =>
          have hc := compressed_eq hlen (.node c hl htwo hlen hstored hchild)
            (WF.compressed hl hchild)
          have hc' := compressed_eq hlen' (.node c' hl' htwo' hlen' hstored' hchild')
            (WF.compressed hl' hchild')
          obtain rfl : c = c' := by
            rw [← hc, ← hc']
            exact compressed_congr (.node c hl htwo hlen hstored hchild)
              (.node c' hl' htwo' hlen' hstored' hchild') hp
          refine .node (hlen.symm.trans hlen') (hstored.trans hstored'.symm) (fun b => ?_) ?_
          · rw [Bool.eq_iff_iff, isSome_findChild_iff hl hchild, isSome_findChild_iff hl' hchild']
            simp only [hp.mem_iff]
          · intro b i j hi hj
            have hi' := hl.findChild_eq_some_iff.mp hi
            have hj' := hl'.findChild_eq_some_iff.mp hj
            refine ih b i hi' (hchild' b j hj') ?_
            exact (entries_child_perm hl hchild hi').trans
              ((below_perm hp _).trans (entries_child_perm hl' hchild' hj').symm)

/-- Equal shape, equal entries. -/
theorem Alike.entries_perm {path path' : List UInt8} {x y : ArtNode V} (h : Alike x y)
    (hx : WF path x) (hy : WF path' y) : (entries x).Perm (entries y) := by
  induction h generalizing path path' with
  | null => exact List.Perm.refl _
  | leaf h => rw [entries_leaf, entries_leaf, h]
  | @node n n' keys keys' children children' hlen hstored hused hchild ih =>
      cases hx with
      | node c hl htwo hlen hstored hwf =>
          cases hy with
          | node c' hl' htwo' hlen' hstored' hwf' =>
              refine (entries_node_perm hl.toMatching).trans
                (List.Perm.trans ?_ (entries_node_perm hl'.toMatching).symm)
              refine List.Perm.flatMap_left _ fun b _ => ?_
              rw [childAt, childAt]
              rcases none_or_some_of_isSome (hused b) with ⟨hi, hj⟩ | ⟨i, j, hi, hj⟩
              · rw [hi, hj]
                exact List.Perm.refl _
              · rw [hi, hj]
                exact ih b i j hi hj (hwf b i (hl.findChild_eq_some_iff.mp hi))
                  (hwf' b j (hl'.findChild_eq_some_iff.mp hj))

/-- **Well-formed pointers below one path are alike if and only if they hold the
same entries.** -/
theorem WF.alike_iff {path : List UInt8} {x y : ArtNode V} (hx : WF path x) (hy : WF path y) :
    Alike x y ↔ (entries x).Perm (entries y) :=
  ⟨fun h => h.entries_perm hx hy, hx.alike_of_perm hy⟩

/-- The same of whole trees. -/
theorem ArtTree.WF.alike_iff {t t' : ArtTree V} (ht : t.WF) (ht' : t'.WF) :
    Alike t.root t'.root ↔ (entries t.root).Perm (entries t'.root) := by
  rcases ht with h | h <;> rcases ht' with h' | h'
  · simpa [h, h'] using Alike.null
  · rw [h]
    refine iff_of_false (fun ha => ?_) fun hp => h'.entries_ne_nil hp.nil_eq.symm
    cases hr : t'.root with
    | null =>
        rw [hr] at h'
        cases h'
    | leaf l =>
        rw [hr] at ha
        cases ha
    | node n keys children =>
        rw [hr] at ha
        cases ha
  · rw [h']
    refine iff_of_false (fun ha => ?_) fun hp => h.entries_ne_nil hp.eq_nil
    cases hr : t.root with
    | null =>
        rw [hr] at h
        cases h
    | leaf l =>
        rw [hr] at ha
        cases ha
    | node n keys children =>
        rw [hr] at ha
        cases ha
  · exact h.alike_iff h'

/-! ## what tells no difference -/

section Descent

variable {path path' : List UInt8} {x y : ArtNode V}

/-- **A descent through alike trees reads the same bytes and ends at leaves with
one entry**: whatever is done with the leaf gives one result. -/
theorem Alike.findLeaf_bind {β : Type} (past : Past) (key : List UInt8)
    {k : Option (ArtLeaf V) → Except Fault β}
    (hk : ∀ l l', l.keyLen ≤ l.key.length → l'.keyLen ≤ l'.key.length → l.entry = l'.entry →
      k (some l) = k (some l'))
    (h : Alike x y) (hx : WF path x) (hy : WF path' y) (depth : Nat) :
    (findLeaf past key x depth).bind k = (findLeaf past key y depth).bind k := by
  induction h generalizing path path' depth with
  | null => rfl
  | leaf h =>
      cases hx with
      | leaf hbuf _ =>
          cases hy with
          | leaf hbuf' _ => exact hk _ _ hbuf hbuf' h
  | @node n n' keys keys' children children' hlen hstored hused hchild ih =>
      cases hx with
      | node c hl htwo _ _ hwf =>
          cases hy with
          | node c' hl' htwo' _ _ hwf' =>
              rw [findLeaf, findLeaf, prefixPasses_eq, prefixPasses_eq, hstored, hlen]
              by_cases hpass : n'.stored <+: key.drop depth
              · simp only [hpass, decide_true]
                cases readByte past key (depth + n'.partialLen) with
                | error e => rfl
                | ok b =>
                    rcases none_or_some_of_isSome (hused b) with ⟨hi, hj⟩ | ⟨i, j, hi, hj⟩
                    · simp only [bind, Except.bind, hi, hj]
                    · simp only [bind, Except.bind, hi, hj]
                      exact ih b i j hi hj (hwf b i (hl.findChild_eq_some_iff.mp hi))
                        (hwf' b j (hl'.findChild_eq_some_iff.mp hj)) _
              · simp only [hpass, decide_false]
                rfl

theorem Alike.searchLoop_eq (h : Alike x y) (hx : WF path x) (hy : WF path' y) (past : Past)
    (key : List UInt8) (depth : Nat) :
    searchLoop past key x depth = searchLoop past key y depth := by
  rw [LightQuery.searchLoop_eq, LightQuery.searchLoop_eq]
  refine h.findLeaf_bind past key (fun l l' hbuf hbuf' he => ?_) hx hy depth
  obtain ⟨hbytes, hvalue⟩ := Prod.mk.inj he
  simp only [leafMatches_eq past hbuf, leafMatches_eq past hbuf', hbytes, hvalue]

theorem Alike.lookupLoop_eq (h : Alike x y) (hx : WF path x) (hy : WF path' y) (past : Past)
    (key : List UInt8) (depth : Nat) :
    lookupLoop past key x depth = lookupLoop past key y depth := by
  rw [LightQuery.lookupLoop_eq, LightQuery.lookupLoop_eq]
  refine h.findLeaf_bind past key (fun l l' hbuf hbuf' he => ?_) hx hy depth
  obtain ⟨hbytes, hvalue⟩ := Prod.mk.inj he
  simp only [activeLeafPrefixMatches_eq past hbuf, activeLeafPrefixMatches_eq past hbuf', hbytes, he]

/-- One fault, or the same values in some order. -/
inductive SameValues : Except Fault (List V) → Except Fault (List V) → Prop
  | fault (e : Fault) : SameValues (.error e) (.error e)
  | values {vs vs' : List V} (h : vs.Perm vs') : SameValues (.ok vs) (.ok vs')

theorem SameValues.refl (r : Except Fault (List V)) : SameValues r r := by
  cases r with
  | error e => exact .fault e
  | ok vs => exact .values (List.Perm.refl _)

/-- A byte that is read selects children that give the same values. -/
theorem SameValues.child {r : Except Fault UInt8} {f : ArtNode V → Except Fault (List V)}
    (hused : ∀ b, (findChild n keys children b).isSome = (findChild n' keys' children' b).isSome)
    (hchild : ∀ b i j, findChild n keys children b = some i →
      findChild n' keys' children' b = some j → SameValues (f (children i)) (f (children' j))) :
    SameValues
      (r >>= fun b => match findChild n keys children b with
        | some i => f (children i)
        | none => .ok [])
      (r >>= fun b => match findChild n' keys' children' b with
        | some j => f (children' j)
        | none => .ok []) := by
  cases r with
  | error e => exact .fault e
  | ok b =>
      simp only [bind, Except.bind]
      rcases none_or_some_of_isSome (hused b) with ⟨hi, hj⟩ | ⟨i, j, hi, hj⟩
      · rw [hi, hj]
        exact .refl _
      · rw [hi, hj]
        exact hchild b i j hi hj

/-- Where the prefix ends at a node, the least leaf tells whether the path to
the node is the prefix; any leaf would. -/
theorem prefix_iff_of_length {p : List UInt8} {e : List UInt8 × Option V} (hpath : path <+: e.1)
    (hlen : path.length = p.length) : p <+: e.1 ↔ p = path := by
  constructor
  · intro hp
    rcases List.prefix_or_prefix_of_prefix hp hpath with h | h
    · exact h.eq_of_length hlen.symm
    · exact (h.eq_of_length hlen).symm
  · rintro rfl
    exact hpath

/-- **The iteration over a prefix calls back for the same values** in alike
trees, whether it is exact or not. -/
theorem Alike.iterLoop_same (h : Alike x y) (hx : WF path x) (hy : WF path y) (past : Past)
    (p : List UInt8) :
    SameValues (iterLoop past p x path.length) (iterLoop past p y path.length) := by
  induction h generalizing path with
  | null => exact .refl _
  | @leaf l l' h =>
      cases hx with
      | leaf hbuf _ =>
          cases hy with
          | leaf hbuf' _ =>
              obtain ⟨hbytes, hvalue⟩ := Prod.mk.inj h
              rw [iterLoop, iterLoop, leafPrefixMatches_eq past hbuf,
                leafPrefixMatches_eq past hbuf', hbytes, hvalue]
              exact .refl _
  | @node n n' keys keys' children children' hlen hstored hused hchild ih =>
      have hp := (Alike.node hlen hstored hused hchild).entries_perm hx hy
      have hcc := compressed_congr hx hy hp
      obtain ⟨l, hmin, hmem, hbuf⟩ := hx.minimum_spec
      obtain ⟨l', hmin', hmem', hbuf'⟩ := hy.minimum_spec
      have hleaf := hx.starts_with _ hmem
      have hleaf' := hy.starts_with _ hmem'
      cases hx with
      | node c hl htwo hlen₁ hstored₁ hwf =>
          cases hy with
          | node c' hl' htwo' hlen₂ hstored₂ hwf' =>
              have hx : WF path (.node n keys children) := .node c hl htwo hlen₁ hstored₁ hwf
              have hy : WF path (.node n' keys' children') :=
                .node c' hl' htwo' hlen₂ hstored₂ hwf'
              have hpath := WF.compressed hl hwf
              have hpath' := WF.compressed hl' hwf'
              obtain rfl : c = c' := by
                rw [← compressed_eq hlen₁ hx hpath, ← compressed_eq hlen₂ hy hpath', hcc]
              rw [iterLoop, iterLoop]
              by_cases hend : path.length = p.length
              · -- the iteration starts at this node, if at all
                rw [if_pos hend, if_pos hend, hmin, hmin']
                simp only [leafPrefixMatches_eq past hbuf, leafPrefixMatches_eq past hbuf',
                  bind, Except.bind]
                have hdec : decide (p <+: l.bytes) = decide (p <+: l'.bytes) := decide_eq_decide.mpr
                  ((prefix_iff_of_length hleaf hend).trans (prefix_iff_of_length hleaf' hend).symm)
                rw [hdec, recursiveIterActive_eq, recursiveIterActive_eq]
                split
                · exact .values (live_perm hp)
                · exact .refl _
              · rw [if_neg hend, if_neg hend, iterPath_eq past hlen₁ hstored₁ hx hpath,
                  iterPath_eq past hlen₂ hstored₂ hy hpath', hlen]
                have hdeeper := SameValues.child (r := readByte past p (path.length + n'.partialLen))
                  (f := fun x => iterLoop past p x (path.length + n'.partialLen + 1)) hused
                  fun b i j hi hj => by
                    have hd : path.length + n'.partialLen + 1 = (path ++ c ++ [b]).length := by
                      simp only [List.length_append, List.length_singleton, hlen₂]
                    rw [hd]
                    exact ih b i j hi hj (hwf b i (hl.findChild_eq_some_iff.mp hi))
                      (hwf' b j (hl'.findChild_eq_some_iff.mp hj))
                simp only [bind, Except.bind] at hdeeper ⊢
                split_ifs
                · exact hdeeper
                · exact .refl _
                · exact .values (live_perm hp)
                · exact hdeeper

end Descent

end LightQuery
