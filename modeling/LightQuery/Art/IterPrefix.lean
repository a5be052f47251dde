import LightQuery.Art.Iter
import LightQuery.Art.Iterate

/-!
# LightQuery.Art.IterPrefix

`art_iter_prefix`, the sibling of `art_iter_active_prefix` that hands over the
disabled tags too and stops where its callback says so.

The two take the same way down, since neither looks at a value before it has
found its subtree.  So the plain iteration is the active one over the tree whose
leaves all hold their own entry (`iterPrefixLoop_eq`), and what is known of the
one carries over to the other.
-/

namespace LightQuery

open CArray CommonPrefix PrefixFamily

variable {V σ : Type} {n : Header} {keys : Nat → UInt8} {children : Nat → ArtNode V}

/-! ## art_iter_prefix -/

/-- `if (n->partial_len) { … }` of `art_iter_prefix`: `none` when the descent
goes deeper. -/
def iterPrefixPath (past : Past) (cb : ArtCallback V σ) (key : List UInt8) (n : Header)
    (keys : Nat → UInt8) (children : Nat → ArtNode V) (depth : Nat) (data : σ) :
    Except Fault (Option (Int × σ)) :=
  if n.partialLen = 0 then .ok none
  else do
    let prefixLen ← prefixMismatch past n keys children key depth
    let prefixLen := min prefixLen n.partialLen
    .ok (if prefixLen = 0 then some (0, data)
      else if depth + prefixLen = key.length then
        some (recursiveIter cb (.node n keys children) data)
      else none)

/-- The loop of `art_iter_prefix`. -/
def iterPrefixLoop (past : Past) (cb : ArtCallback V σ) (key : List UInt8) :
    ArtNode V → (depth : Nat) → (data : σ) → Except Fault (Int × σ)
  | .null, _, data => .ok (0, data)
  | .leaf l, _, data => do
      if ← leafPrefixMatches past l key then .ok (cb data l.bytes l.value) else .ok (0, data)
  | .node n keys children, depth, data => do
      if depth = key.length then
        match minimum (.node n keys children) with
        | none => .error .nullNode
        | some l =>
            if ← leafPrefixMatches past l key then
              .ok (recursiveIter cb (.node n keys children) data)
            else .ok (0, data)
      else
        match ← iterPrefixPath past cb key n keys children depth data with
        | some r => .ok r
        | none =>
            let c ← readByte past key (depth + n.partialLen)
            match findChild n keys children c with
            | some i => iterPrefixLoop past cb key (children i) (depth + n.partialLen + 1) data
            | none => .ok (0, data)

/-- `art_iter_prefix`. -/
def artIterPrefix (past : Past) (cb : ArtCallback V σ) (t : ArtTree V) (key : List UInt8)
    (data : σ) : Except Fault (Int × σ) :=
  iterPrefixLoop past cb key t.root 0 data

/-- An `art_prefix_callback` as a callback that leaves out the disabled tags. -/
def active (f : σ → V → σ) : ArtCallback V σ :=
  fun data _ value => (0, value.elim data (f data))

theorem feed_active (f : σ → V → σ) (es : List (List UInt8 × Option V)) (data : σ) :
    feed (active f) es (0, data) = (0, (live es).foldl f data) := by
  induction es generalizing data with
  | nil => rfl
  | cons e es ih =>
      have hstep : feed (active f) (e :: es) (0, data) =
          feed (active f) es (0, e.2.elim data (f data)) := rfl
      rw [hstep, ih]
      obtain ⟨k, _ | v⟩ := e <;> rfl

/-! ## leaves that hold their own entry -/

/-- The leaf with its entry for a value. -/
def ArtLeaf.keyed (l : ArtLeaf V) : ArtLeaf (List UInt8 × Option V) :=
  ⟨some l.entry, l.keyLen, l.key⟩

/-- The tree with the entries of its leaves for values. -/
def keyed : ArtNode V → ArtNode (List UInt8 × Option V)
  | .null => .null
  | .leaf l => .leaf l.keyed
  | .node n keys children => .node n keys fun i => keyed (children i)

@[simp] theorem keyed_isNull (x : ArtNode V) : (keyed x).isNull = x.isNull := by cases x <;> rfl

theorem childOrder_keyed :
    childOrder n keys (fun i => keyed (children i)) = childOrder n keys children :=
  childOrder_congr fun i => keyed_isNull (children i)

theorem findChild_keyed (c : UInt8) :
    findChild n keys (fun i => keyed (children i)) c = findChild n keys children c := by
  unfold findChild
  cases n.type <;> simp only [keyed_isNull]

theorem minimum_keyed (x : ArtNode V) : minimum (keyed x) = (minimum x).map ArtLeaf.keyed := by
  induction x with
  | null => rfl
  | leaf l => rfl
  | node n keys children ih =>
      rw [keyed, minimum, minimum]
      cases n.type <;> simp only [keyed_isNull, ih]

theorem leaves_keyed (x : ArtNode V) : leaves (keyed x) = (leaves x).map ArtLeaf.keyed := by
  induction x with
  | null => rfl
  | leaf l => rfl
  | node n keys children ih => simp only [keyed, leaves, childOrder_keyed, List.map_flatMap, ih]

theorem entries_keyed (x : ArtNode V) :
    entries (keyed x) = (entries x).map fun e => (e.1, some e) := by
  rw [entries, leaves_keyed, entries, List.map_map, List.map_map]
  rfl

theorem live_keyed (F : List (List UInt8 × Option V)) :
    live (F.map fun e => (e.1, some e)) = F := by
  induction F with
  | nil => rfl
  | cons e F ih => exact congrArg (e :: ·) ih

theorem recursiveIterActive_keyed (x : ArtNode V) : recursiveIterActive (keyed x) = entries x := by
  rw [recursiveIterActive_eq, entries_keyed, live_keyed]

theorem below_keyed (F : List (List UInt8 × Option V)) (p : List UInt8) :
    live (below (F.map fun e => (e.1, some e)) p) = below F p := by
  have hmap : below (F.map fun e => (e.1, some e)) p = (below F p).map fun e => (e.1, some e) := by
    rw [below, below, List.filter_map]
    rfl
  rw [hmap, live_keyed]

theorem prefixMismatch_keyed (past : Past) (key : List UInt8) (depth : Nat) :
    prefixMismatch past n keys (fun i => keyed (children i)) key depth =
      prefixMismatch past n keys children key depth := by
  have hmin := minimum_keyed (.node n keys children)
  rw [keyed] at hmin
  unfold prefixMismatch
  rw [hmin]
  cases minimum (.node n keys children) <;> rfl

/-! ## the way down -/

theorem iterPath_keyed (past : Past) (key : List UInt8) (depth : Nat) :
    iterPath past key n keys children depth =
      (iterPath past key n keys (fun i => keyed (children i)) depth).map (Option.map live) := by
  unfold iterPath
  rw [prefixMismatch_keyed]
  split
  · rfl
  · cases prefixMismatch past n keys children key depth with
    | error e => rfl
    | ok prefixLen =>
        have hnode := recursiveIterActive_keyed (.node n keys children)
        rw [keyed] at hnode
        simp only [bind, Except.bind, Except.map, hnode, recursiveIterActive_eq]
        split
        · rfl
        · split <;> rfl

theorem iterPrefixPath_eq (past : Past) (cb : ArtCallback V σ) (key : List UInt8) (depth : Nat)
    (data : σ) :
    iterPrefixPath past cb key n keys children depth data =
      (iterPath past key n keys (fun i => keyed (children i)) depth).map
        (Option.map fun es => feed cb es (0, data)) := by
  unfold iterPrefixPath iterPath
  rw [prefixMismatch_keyed]
  split
  · rfl
  · cases prefixMismatch past n keys children key depth with
    | error e => rfl
    | ok prefixLen =>
        have hnode := recursiveIterActive_keyed (.node n keys children)
        rw [keyed] at hnode
        simp only [bind, Except.bind, Except.map, hnode, recursiveIter_eq]
        split
        · rfl
        · split <;> rfl

/-- The active iteration leaves out the disabled tags of what it goes over. -/
theorem iterLoop_keyed (past : Past) (key : List UInt8) (x : ArtNode V) (depth : Nat) :
    iterLoop past key x depth = (iterLoop past key (keyed x) depth).map live := by
  induction x generalizing depth with
  | null => rfl
  | leaf l =>
      rw [keyed, iterLoop, iterLoop]
      have hmatch : leafPrefixMatches past l.keyed key = leafPrefixMatches past l key := rfl
      rw [hmatch]
      cases leafPrefixMatches past l key with
      | error e => rfl
      | ok b =>
          cases b with
          | false => rfl
          | true =>
              simp only [bind, Except.bind, if_true, ArtLeaf.keyed, ArtLeaf.entry, live, Except.map,
                Option.toList_some, List.filterMap_cons]
              cases l.value <;> rfl
  | node n keys children ih =>
      have hmin := minimum_keyed (.node n keys children)
      have hnode := recursiveIterActive_keyed (.node n keys children)
      rw [keyed] at hmin hnode ⊢
      rw [iterLoop, iterLoop]
      split
      · rw [hmin]
        cases minimum (.node n keys children) with
        | none => rfl
        | some l =>
            have hmatch : leafPrefixMatches past l.keyed key = leafPrefixMatches past l key := rfl
            simp only [Option.map_some, hmatch, hnode, recursiveIterActive_eq]
            cases leafPrefixMatches past l key with
            | error e => rfl
            | ok b => cases b <;> rfl
      · rw [iterPath_keyed]
        cases iterPath past key n keys (fun i => keyed (children i)) depth with
        | error e => rfl
        | ok o =>
            cases o with
            | some es => rfl
            | none =>
                simp only [bind, Except.bind, Except.map, Option.map_none]
                cases readByte past key (depth + n.partialLen) with
                | error e => rfl
                | ok c =>
                    simp only [findChild_keyed]
                    cases findChild n keys children c with
                    | none => rfl
                    | some i => exact ih i _

/-- **The plain iteration is the active one over the entries.** -/
theorem iterPrefixLoop_eq (past : Past) (cb : ArtCallback V σ) (key : List UInt8) (x : ArtNode V)
    (depth : Nat) (data : σ) :
    iterPrefixLoop past cb key x depth data =
      (iterLoop past key (keyed x) depth).map fun es => feed cb es (0, data) := by
  induction x generalizing depth with
  | null => rfl
  | leaf l =>
      rw [keyed, iterLoop, iterPrefixLoop]
      have hmatch : leafPrefixMatches past l.keyed key = leafPrefixMatches past l key := rfl
      rw [hmatch]
      cases leafPrefixMatches past l key with
      | error e => rfl
      | ok b => cases b <;> rfl
  | node n keys children ih =>
      have hmin := minimum_keyed (.node n keys children)
      have hnode := recursiveIterActive_keyed (.node n keys children)
      rw [keyed] at hmin hnode ⊢
      rw [iterLoop, iterPrefixLoop]
      split
      · rw [hmin]
        cases minimum (.node n keys children) with
        | none => rfl
        | some l =>
            have hmatch : leafPrefixMatches past l.keyed key = leafPrefixMatches past l key := rfl
            simp only [Option.map_some, hmatch, hnode, recursiveIter_eq]
            cases leafPrefixMatches past l key with
            | error e => rfl
            | ok b => cases b <;> rfl
      · rw [iterPrefixPath_eq]
        cases iterPath past key n keys (fun i => keyed (children i)) depth with
        | error e => rfl
        | ok o =>
            cases o with
            | some es => rfl
            | none =>
                simp only [bind, Except.bind, Except.map, Option.map_none]
                cases readByte past key (depth + n.partialLen) with
                | error e => rfl
                | ok c =>
                    simp only [findChild_keyed]
                    cases findChild n keys children c with
                    | none => rfl
                    | some i => exact ih i _

/-- **The siblings agree**: with a callback that leaves out the disabled tags,
`art_iter_prefix` is `art_iter_active_prefix`, faults included. -/
theorem artIterPrefix_active (past : Past) (f : σ → V → σ) (t : ArtTree V) (key : List UInt8)
    (data : σ) :
    artIterPrefix past (active f) t key data =
      (artIterActivePrefix past t key).map fun vs => (0, vs.foldl f data) := by
  rw [artIterPrefix, iterPrefixLoop_eq, artIterActivePrefix,
    iterLoop_keyed past key t.root]
  cases iterLoop past key (keyed t.root) 0 with
  | error e => rfl
  | ok es => exact congrArg Except.ok (feed_active f es data)

/-! ## where the plain iteration goes wrong -/

/-- Keyed nodes have the layout of their nodes. -/
theorem Layout.keyed (hl : Layout n keys children) :
    Layout n keys fun i => keyed (children i) := by
  have hnull : ∀ i, (LightQuery.keyed (children i)).isNull = (children i).isNull :=
    fun i => keyed_isNull _
  have hslot := slot_congr n keys hnull
  have hdeg : degree n keys (fun i => LightQuery.keyed (children i)) = degree n keys children := by
    rw [degree, childOrder_keyed, degree]
  exact { byte := fun h h' => hl.byte ((hslot _ _).mp h) ((hslot _ _).mp h')
          slot := fun h h' => hl.slot ((hslot _ _).mp h) ((hslot _ _).mp h')
          bound := fun h => hl.bound ((hslot _ _).mp h)
          full := fun h => by rw [hnull]; exact hl.full ((hslot _ _).mp h)
          free := fun ht j hj hn => by
            rw [hnull] at hn
            obtain ⟨b, hb⟩ := hl.free ht j hj hn
            exact ⟨b, (hslot _ _).mpr hb⟩
          count := by rw [hdeg]; exact hl.count
          floor := by rw [hdeg]; exact hl.floor }

theorem WF.keyed {path : List UInt8} {x : ArtNode V} (h : WF path x) :
    WF path (LightQuery.keyed x) := by
  induction h with
  | leaf hlen hpath => exact .leaf hlen hpath
  | @node path n keys children c hl htwo hlen hstored hchild ih =>
      refine .node c hl.keyed ?_ hlen hstored fun b i hi => ih b i ?_
      · rw [degree, childOrder_keyed]
        exact htwo
      · exact (slot_congr n keys (fun i => keyed_isNull _) b i).mp hi

theorem compressed_keyed (path : List UInt8) :
    compressed path n keys (fun i => keyed (children i)) = compressed path n keys children := by
  have hmin := minimum_keyed (.node n keys children)
  rw [keyed] at hmin
  rw [compressed, compressed, hmin]
  cases minimum (.node n keys children) <;> rfl

/-- The way down is that of the keyed tree. -/
theorem skims_keyed {p path path' : List UInt8} {x : ArtNode V}
    {z : ArtNode (List UInt8 × Option V)} :
    Skims p path (keyed x) path' z ↔ ∃ y, z = keyed y ∧ Skims p path x path' y := by
  constructor
  · intro h
    generalize hk : keyed x = k at h
    induction h generalizing x with
    | here => exact ⟨x, hk.symm, .here⟩
    | @slot path path' n keys children b i z hfirst hb hi hs ih =>
        cases x with
        | null => cases hk
        | leaf l => cases hk
        | node n' keys' children' =>
            cases hk
            obtain ⟨y, hy, hys⟩ := ih rfl
            rw [compressed_keyed] at hfirst hys
            exact ⟨y, hy, .slot hfirst hb ((slot_congr _ _ (fun i => keyed_isNull _) _ _).mp hi) hys⟩
  · rintro ⟨y, rfl, h⟩
    induction h with
    | here => exact .here
    | @slot path path' n keys children b i z hfirst hb hi hs ih =>
        refine .slot ?_ hb ((slot_congr _ _ (fun i => keyed_isNull _) _ _).mpr hi) ?_
        · rw [compressed_keyed]
          exact hfirst
        · rw [compressed_keyed]
          exact ih

/-- The way down stays in the tree. -/
theorem Skims.wf {p path path' : List UInt8} {x y : ArtNode V} (h : Skims p path x path' y)
    (hwf : WF path x) : WF path' y := by
  induction h with
  | here => exact hwf
  | slot hfirst hb hi hs ih =>
      cases hwf with
      | node c hl htwo hlen hstored hchild =>
          have hc := compressed_eq hlen (.node c hl htwo hlen hstored hchild)
            (WF.compressed hl hchild)
          refine ih ?_
          rw [hc]
          exact hchild _ _ hi

/-- An inner node that misleads `p`: `p` ends inside its compressed path and
agrees with the first byte of it, but is not a prefix of the path to its
children. -/
def Misled (p path : List UInt8) : ArtNode V → Prop
  | .node n keys children =>
      let c := compressed path n keys children
      c ≠ [] ∧ c.head? = p[path.length]? ∧ path.length < p.length ∧
        p.length ≤ path.length + n.partialLen ∧ ¬ p <+: path ++ c
  | _ => False

theorem misread_keyed {p path : List UInt8} {y : ArtNode V} (h : WF path y) :
    Misread p path (keyed y) ↔ Misled p path y := by
  cases h with
  | leaf hlen hpath => exact Iff.rfl
  | @node _ n keys children c hl htwo hlen hstored hchild =>
      have hlive : live (entries (keyed (.node n keys children))) ≠ [] := by
        rw [entries_keyed, live_keyed]
        exact WF.entries_ne_nil (.node c hl htwo hlen hstored hchild)
      have hsplit : path.length < p.length → ∀ q, (p <+: path ++ q ↔
          path <+: p ∧ p.drop path.length <+: q) := by
        intro hlt q
        constructor
        · intro hp
          have hpath : path <+: p := List.prefix_of_prefix_length_le
            (List.prefix_append path q) hp hlt.le
          obtain ⟨r, rfl⟩ := hpath
          rw [List.drop_left]
          exact ⟨List.prefix_append path r, (List.prefix_append_right_inj path).mp hp⟩
        · rintro ⟨⟨r, rfl⟩, hr⟩
          rw [List.drop_left] at hr
          exact (List.prefix_append_right_inj path).mpr hr
      rw [keyed] at hlive ⊢
      simp only [Misread, Misled, compressed_keyed]
      refine and_congr_right fun _ => and_congr_right fun _ => and_congr_right fun hlt =>
        and_congr_right fun _ => ?_
      rw [hsplit hlt, not_and_or]
      constructor
      · rintro (hp | ⟨hp, -⟩)
        · exact .inr hp
        · exact .inl hp
      · rintro (hp | hp)
        · exact .inr ⟨hp, hlive⟩
        · exact .inl hp

/-! ## the order -/

/-- The children that the descent does not take come before or after. -/
theorem live_child_sublist {b : UInt8} {i : Nat} (hi : Slot n keys children b i) :
    (live (entries (children i))).Sublist (live (entries (.node n keys children))) := by
  have hmem : i ∈ childOrder n keys children := mem_childOrder.mpr ⟨b, hi⟩
  have hnode : entries (.node n keys children) =
      (childOrder n keys children).flatMap fun i => entries (children i) := by
    rw [entries, leaves, List.map_flatMap]
    rfl
  rw [hnode]
  refine List.Sublist.filterMap _ ?_
  rw [List.flatMap_def]
  exact List.sublist_flatten_of_mem (List.mem_map_of_mem hmem)

/-- What is handed over at a compressed path is nothing or the whole node. -/
theorem iterPath_sublist {past : Past} {key : List UInt8} {depth : Nat} {vs : List V}
    (h : iterPath past key n keys children depth = .ok (some vs)) :
    vs.Sublist (live (entries (.node n keys children))) := by
  unfold iterPath at h
  split at h
  · cases h
  · cases hmis : prefixMismatch past n keys children key depth with
    | error e => simp [hmis, bind, Except.bind] at h
    | ok prefixLen =>
        simp only [hmis, bind, Except.bind, Except.ok.injEq] at h
        split at h
        · cases h
          exact List.nil_sublist _
        · split at h
          · cases h
            rw [recursiveIterActive_eq]
          · cases h

/-- What is iterated stands in the order of the whole tree. -/
theorem iterLoop_sublist (past : Past) (p : List UInt8) {path : List UInt8} {x : ArtNode V}
    (h : WF path x) {depth : Nat} {vs : List V} (hvs : iterLoop past p x depth = .ok vs) :
    vs.Sublist (live (entries x)) := by
  induction h generalizing depth vs with
  | leaf hlen hpath =>
      rw [iterLoop, leafPrefixMatches_eq _ hlen] at hvs
      simp only [bind, Except.bind] at hvs
      rw [← recursiveIterActive_eq, recursiveIterActive]
      split at hvs <;> cases hvs
      · exact .refl _
      · exact List.nil_sublist _
  | @node path n keys children c hl htwo hlen hstored hchild ih =>
      have hwf : WF path (.node n keys children) := .node c hl htwo hlen hstored hchild
      obtain ⟨l, hmin, -, hbuf⟩ := hwf.minimum_spec
      rw [iterLoop] at hvs
      split at hvs
      · simp only [hmin, leafPrefixMatches_eq _ hbuf, bind, Except.bind] at hvs
        split at hvs <;> cases hvs
        · rw [recursiveIterActive_eq]
        · exact List.nil_sublist _
      · cases hpath : iterPath past p n keys children depth with
        | error e => simp [hpath, bind, Except.bind] at hvs
        | ok o =>
            cases o with
            | some es =>
                simp only [hpath, bind, Except.bind] at hvs
                cases hvs
                exact iterPath_sublist hpath
            | none =>
                simp only [hpath, bind, Except.bind] at hvs
                cases hread : readByte past p (depth + n.partialLen) with
                | error e => simp [hread] at hvs
                | ok b =>
                    simp only [hread] at hvs
                    cases hf : findChild n keys children b with
                    | none =>
                        simp only [hf] at hvs
                        cases hvs
                        exact List.nil_sublist _
                    | some i =>
                        simp only [hf] at hvs
                        have hi := hl.findChild_eq_some_iff.mp hf
                        exact (ih b i hi hvs).trans (live_child_sublist hi)

/-- A sublist that holds what a filter keeps is what it keeps. -/
theorem eq_filter_of_perm {α : Type} {xs ys : List α} {q : α → Bool} (hsub : xs.Sublist ys)
    (hperm : xs.Perm (ys.filter q)) : xs = ys.filter q := by
  have hall : ∀ a ∈ xs, q a = true := fun a ha => (List.mem_filter.mp (hperm.subset ha)).2
  have hfilter := hsub.filter q
  rw [List.filter_eq_self.mpr hall] at hfilter
  exact hfilter.eq_of_length hperm.length_eq

/-- What the plain iteration has to be: inside the buffer, once for every entry
below the prefix, in the order of the tree, until the callback stops it. -/
def IterPrefixExact (p : List UInt8) (t : ArtTree V) : Prop :=
  ∀ (σ : Type) (cb : ArtCallback V σ) (data : σ), artIterPrefix Past.strict cb t p data =
    .ok (feed cb (below (entries t.root) p) (0, data))

/-- **The plain iteration is exact if and only if it meets no node that misleads
it.** -/
theorem iterPrefixExact_iff {t : ArtTree V} (h : t.WF) (p : List UInt8) :
    IterPrefixExact p t ↔ ¬ ∃ path y, Skims p [] t.root path y ∧ Misled p path y := by
  rcases h with hnull | hwf
  · refine iff_of_true (fun σ cb data => ?_) ?_
    · rw [artIterPrefix, hnull]
      rfl
    · rw [hnull]
      rintro ⟨path, y, hs, hm⟩
      cases hs
      exact hm
  have hexact := iterExact_iff hwf.keyed (Nat.zero_le p.length)
  have hbelow : live (below (entries (keyed t.root)) p) = below (entries t.root) p := by
    rw [entries_keyed, below_keyed]
  -- exactness of the way down, in the order of the tree
  have hway : IterExact p (keyed t.root) 0 ↔
      iterLoop Past.strict p (keyed t.root) 0 = .ok (below (entries t.root) p) := by
    constructor
    · rintro ⟨es, hes, hperm⟩
      have hsub := iterLoop_sublist Past.strict p hwf.keyed hes
      rw [entries_keyed, live_keyed] at hsub
      rw [hbelow] at hperm
      rw [hes, eq_filter_of_perm hsub hperm]
      rfl
    · intro hes
      exact ⟨_, hes, .of_eq hbelow.symm⟩
  have hmisled : (∃ path z, Skims p [] (keyed t.root) path z ∧ Misread p path z) ↔
      ∃ path y, Skims p [] t.root path y ∧ Misled p path y := by
    constructor
    · rintro ⟨path, z, hs, hm⟩
      obtain ⟨y, rfl, hs'⟩ := skims_keyed.mp hs
      exact ⟨path, y, hs', (misread_keyed (hs'.wf hwf)).mp hm⟩
    · rintro ⟨path, y, hs, hm⟩
      exact ⟨path, keyed y, skims_keyed.mpr ⟨y, rfl, hs⟩, (misread_keyed (hs.wf hwf)).mpr hm⟩
  rw [← hmisled, ← hexact]
  refine Iff.trans ?_ hway.symm
  constructor
  · -- a callback that keeps what it is given shows what it was given
    intro hall
    have hrec := hall _ record []
    rw [artIterPrefix, iterPrefixLoop_eq] at hrec
    cases hes : iterLoop Past.strict p (keyed t.root) 0 with
    | error e =>
        rw [hes] at hrec
        cases hrec
    | ok es =>
        rw [hes] at hrec
        simp only [Except.map, Except.ok.injEq, feed_record, List.nil_append, Prod.mk.injEq,
          true_and] at hrec
        rw [hrec]
  · intro hes σ cb data
    rw [artIterPrefix, iterPrefixLoop_eq, hes]
    rfl

/-- A prefix that is comparable with a key or a tag of the tree is iterated
exactly. -/
theorem iterPrefixExact_of_comparable {t : ArtTree V} (h : t.WF) {p : List UInt8}
    {e : List UInt8 × Option V} (he : e ∈ entries t.root) (hcmp : p <+: e.1 ∨ e.1 <+: p) :
    IterPrefixExact p t := by
  rw [iterPrefixExact_iff h]
  rcases h with hnull | hwf
  · rw [hnull] at he
    cases he
  rintro ⟨path, y, hs, hm⟩
  have hkeyed : (e.1, some e) ∈ entries (keyed t.root) := by
    rw [entries_keyed]
    exact List.mem_map_of_mem (f := fun e => (e.1, some e)) he
  exact not_misread_of_comparable hwf.keyed hkeyed hcmp
    ⟨path, keyed y, skims_keyed.mpr ⟨y, rfl, hs⟩, (misread_keyed (hs.wf hwf)).mpr hm⟩

end LightQuery
