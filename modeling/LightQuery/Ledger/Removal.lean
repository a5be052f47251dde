import LightQuery.Ledger.Trees

/-!
# LightQuery.Ledger.Removal

What `art_delete` and `art_delete_prefix` can do to a tree.

Both take at most one pointer out of one node: `Cut` says which, and the
inversions `recursiveDelete_cases` and `deletePrefixLoop_cases` that nothing
else happens, whatever key or prefix is given and whatever lies past its end.
A cut keeps the tree well formed, removes exactly the entries below the path to
its slot, and accounts for its blocks.
-/

namespace LightQuery

open CArray CommonPrefix Heap PrefixFamily

variable {V : Type}

/-- `Cut n x x' y`: `remove_child` takes `y` out of a node with header `n`
below `x`, and leaves `x'`. -/
inductive Cut : Header → ArtNode V → ArtNode V → ArtNode V → Prop
  | slot {n : Header} {keys : Nat → UInt8} {children : Nat → ArtNode V} {b : UInt8} {i : Nat}
      (hi : findChild n keys children b = some i) :
      Cut n (.node n keys children) (removeChild n keys children b i) (children i)
  | child {m n : Header} {keys : Nat → UInt8} {children : Nat → ArtNode V} {b : UInt8} {i : Nat}
      {x y : ArtNode V} (hi : findChild n keys children b = some i) (h : Cut m (children i) x y) :
      Cut m (.node n keys children) (.node n keys (Function.update children i x)) y

variable {m n : Header} {keys : Nat → UInt8} {children : Nat → ArtNode V} {x x' y : ArtNode V}

namespace Cut

/-- **A cut removes what is below one path**, which is longer than the one to
the tree, and keeps the tree well formed. -/
theorem spec {path : List UInt8} (h : Cut m x x' y) (hwf : WF path x) :
    WF path x' ∧ ∃ q, path <+: q ∧ q ≠ path ∧ (entries x').Perm (prune (entries x) q) ∧
      (entries y).Perm (PrefixFamily.below (entries x) q) ∧ entries y ≠ [] := by
  induction h generalizing path with
  | @slot keys children b i hi =>
      cases hwf with
      | node c hl htwo hlen hstored hchild =>
          have hs := hl.findChild_eq_some_iff.mp hi
          obtain ⟨hwf', hperm⟩ := removeChild_wf hl htwo hlen hstored hchild hs
          have hprune := prune_node hl hchild hs (List.prefix_refl (path ++ c ++ [b]))
          rw [prune_eq_nil (hchild b i hs).starts_with, List.nil_append] at hprune
          refine ⟨hwf', path ++ c ++ [b], ?_, ?_, hperm.trans hprune.symm,
            entries_child_perm hl hchild hs, (hchild b i hs).entries_ne_nil⟩
          · rw [List.append_assoc]
            exact List.prefix_append _ _
          · intro heq
            simpa using congrArg List.length heq
  | @child n keys children b i x y hi h ih =>
      cases hwf with
      | node c hl htwo hlen hstored hchild =>
          have hs := hl.findChild_eq_some_iff.mp hi
          obtain ⟨hwf', q, hpq, hne, hprune, hbelow, hy⟩ := ih (hchild b i hs)
          obtain ⟨hwfn, hperm⟩ := WF.replaceChild hl htwo hlen hstored hchild hs hwf'
          have hpath : path <+: path ++ c ++ [b] := by
            rw [List.append_assoc]
            exact List.prefix_append _ _
          have hothers : ∀ e ∈ mapEntries (Function.update (childAt n keys children) b none),
              ¬ q <+: e.1 := fun e he hqe =>
            (not_prefix_of_other_slot hl hchild e he).1 (hpq.trans hqe)
          refine ⟨hwfn, q, hpath.trans hpq, ?_, ?_, ?_, hy⟩
          · intro heq
            have := hpq.length_le
            rw [heq] at this
            simp only [List.length_append, List.length_singleton] at this
            omega
          · exact hperm.trans ((hprune.append_right _).trans (prune_node hl hchild hs hpq).symm)
          · refine hbelow.trans (List.Perm.symm ?_)
            refine (below_perm (entries_node_slot hl hs) q).trans (List.Perm.of_eq ?_)
            rw [below_append, below_eq_nil hothers, List.append_nil]

/-- A cut replaces or frees the node, and what it took out is on its own. -/
theorem turns {path : List UInt8} (h : Cut m x x' y) (hwf : WF path x) :
    Turns (removeChildActions m) (blocks x) (blocks x' ++ blocks y) := by
  induction h generalizing path with
  | @slot keys children b i hi =>
      cases hwf with
      | node c hl htwo hlen hstored hchild =>
          exact removeChild_blocks hl htwo (hl.findChild_eq_some_iff.mp hi)
  | @child n keys children b i x y hi h ih =>
      cases hwf with
      | node c hl htwo hlen hstored hchild =>
          have hs := hl.findChild_eq_some_iff.mp hi
          exact replaceChild_turns hl hs (h.spec (hchild b i hs)).1.isNull (ih (hchild b i hs))

/-- Destroying what was taken out leaves the blocks of the tree. -/
theorem destroy_turns {path : List UInt8} (h : Cut m x x' y) (hwf : WF path x) :
    Turns (removeChildActions m ++ destroyActions y) (blocks x) (blocks x') := by
  refine (h.turns hwf).append ?_
  have := (LightQuery.destroy_turns y).frame (blocks x')
  exact this.congr List.perm_append_comm (List.Perm.refl _)

end Cut

/-! ## art_delete -/

/-- `recursive_delete`. -/
def recursiveDeleteActions (past : Past) (key : List UInt8) :
    ArtNode V → (depth : Nat) → Except Fault (List (Action Block))
  | .null, _ => .ok []
  | .leaf l, _ => do
      let _ ← leafMatches past l key
      .ok []
  | .node n keys children, depth => do
      if ← prefixPasses past n key depth then
        let c ← readByte past key (depth + n.partialLen)
        match findChild n keys children c with
        | some i =>
            match children i with
            | .leaf l => if ← leafMatches past l key then .ok (removeChildActions n) else .ok []
            | _ => recursiveDeleteActions past key (children i) (depth + n.partialLen + 1)
        | none => .ok []
      else .ok []

/-- **What `recursive_delete` can do**: nothing, take out a root leaf, or cut a
leaf out. -/
theorem recursiveDelete_cases {past : Past} {key : List UInt8} {x : ArtNode V} {depth : Nat}
    {r : ArtNode V × Option (ArtLeaf V)} (hrun : recursiveDelete past key x depth = .ok r) :
    (r = (x, none) ∧ recursiveDeleteActions past key x depth = .ok []) ∨
    (∃ l, x = .leaf l ∧ r = (.null, some l) ∧ recursiveDeleteActions past key x depth = .ok []) ∨
    ∃ m x' l, Cut m x x' (.leaf l) ∧ r = (x', some l) ∧
      recursiveDeleteActions past key x depth = .ok (removeChildActions m) := by
  induction x generalizing depth r with
  | null =>
      cases hrun
      exact .inl ⟨rfl, rfl⟩
  | leaf l =>
      rw [recursiveDelete] at hrun
      rw [recursiveDeleteActions]
      obtain ⟨b, hb, hrun⟩ := exists_of_bind_ok hrun
      rw [hb]
      cases b with
      | true =>
          cases hrun
          exact .inr (.inl ⟨l, rfl, rfl, rfl⟩)
      | false =>
          cases hrun
          exact .inl ⟨rfl, rfl⟩
  | node n keys children ih =>
      rw [recursiveDelete] at hrun
      rw [recursiveDeleteActions]
      obtain ⟨b, hb, hrun⟩ := exists_of_bind_ok hrun
      rw [hb]
      cases b with
      | false =>
          cases hrun
          exact .inl ⟨rfl, rfl⟩
      | true =>
          obtain ⟨c, hc, hrun⟩ := exists_of_bind_ok hrun
          simp only [bind, Except.bind, hc, if_true]
          cases hf : findChild n keys children c with
          | none =>
              rw [hf] at hrun
              cases hrun
              exact .inl ⟨rfl, rfl⟩
          | some i =>
              have ihi := @ih i (depth + n.partialLen + 1)
              simp only [hf] at hrun
              cases hci : children i with
              | leaf l =>
                  simp only [hci] at hrun ⊢
                  obtain ⟨b, hb, hrun⟩ := exists_of_bind_ok hrun
                  simp only [hb]
                  cases b with
                  | true =>
                      cases hrun
                      exact .inr (.inr ⟨n, _, l, hci ▸ .slot hf, rfl, rfl⟩)
                  | false =>
                      cases hrun
                      exact .inl ⟨rfl, rfl⟩
              | null | node m ks ch =>
                  rw [hci] at ihi
                  simp only [hci] at hrun ⊢
                  obtain ⟨r', hr', hrun⟩ := exists_of_bind_ok hrun
                  cases hrun
                  rcases ihi hr' with ⟨rfl, has⟩ | ⟨l, hcl, -, -⟩ | ⟨m, x', l, hcut, rfl, has⟩
                  · exact .inl ⟨by rw [← hci, Function.update_eq_self], has⟩
                  · cases hcl
                  · exact .inr (.inr ⟨m, _, l, .child hf (by rwa [hci]), rfl, has⟩)

/-- `art_delete`: a leaf that was taken out is freed. -/
def deleteActions (past : Past) (t : ArtTree V) (key : List UInt8) :
    Except Fault (List (Action Block)) := do
  let as ← recursiveDeleteActions past key t.root 0
  let (_, l) ← recursiveDelete past key t.root 0
  match l with
  | some l => .ok (as ++ [.free (.leaf l.key.length)])
  | none => .ok as

/-- **`art_delete` accounts for its blocks.** -/
theorem delete_turns {past : Past} {t t' : ArtTree V} (hwf : t.WF) {key : List UInt8}
    {o : Option V} (hrun : artDelete past t key = .ok (t', o)) :
    ∃ as, deleteActions past t key = .ok as ∧ Turns as (blocks t.root) (blocks t'.root) := by
  obtain ⟨r, hr, hrun⟩ := exists_of_bind_ok hrun
  rw [deleteActions, hr]
  rcases recursiveDelete_cases hr with ⟨rfl, has⟩ | ⟨l, hroot, rfl, has⟩ | ⟨m, x', l, hcut, rfl, has⟩
  · cases hrun
    exact ⟨[], by rw [has]; rfl, .nil⟩
  · cases hrun
    refine ⟨_, by rw [has]; rfl, ?_⟩
    rw [hroot]
    exact .free .nil
  · cases hrun
    refine ⟨_, by rw [has]; rfl, ?_⟩
    rcases hwf with hnull | hwf
    · rw [hnull] at hcut
      cases hcut
    · exact hcut.destroy_turns hwf

/-! ## art_delete_prefix -/

/-- The loop of `art_delete_prefix`. -/
def deletePrefixLoopActions (past : Past) (key : List UInt8) :
    ArtNode V → (depth : Nat) → Except Fault (List (Action Block))
  | .null, _ => .ok []
  | .leaf _, _ => .error .leafAsNode
  | .node n keys children, depth => do
      let c ← readByte past key depth
      match findChild n keys children c with
      | none => .ok []
      | some i =>
          let removed := removeChildActions n ++ destroyActions (children i)
          if depth + 1 = key.length then .ok removed
          else
            match children i with
            | .null => .error .nullNode
            | .leaf l =>
                if ← leafPrefixMatches past l key then .ok removed else .error .leafAsNode
            | .node m ks ch =>
                if m.partialLen = 0 then deletePrefixLoopActions past key (children i) (depth + 1)
                else
                  let prefixLen ← prefixMismatch past m ks ch key depth
                  let prefixLen := min prefixLen m.partialLen
                  if depth + prefixLen < key.length then .ok []
                  else if depth + prefixLen = key.length then .ok removed
                  else deletePrefixLoopActions past key (children i) (depth + n.partialLen + 1)

/-- The result `r` and the actions `as` of a prefix removal on `x`: nothing, or
one subtree is cut out, destroyed and its leaves counted. -/
def CutsOrKeeps (x : ArtNode V) (r : ArtNode V × Nat) (as : Except Fault (List (Action Block))) :
    Prop :=
  (r = (x, 0) ∧ as = .ok []) ∨
    ∃ m x' y, Cut m x x' y ∧ r = (x', destroyNode y) ∧
      as = .ok (removeChildActions m ++ destroyActions y)

theorem CutsOrKeeps.slot {c : UInt8} {i : Nat} (hf : findChild n keys children c = some i) :
    CutsOrKeeps (.node n keys children)
      (removeChild n keys children c i, destroyNode (children i))
      (.ok (removeChildActions n ++ destroyActions (children i))) :=
  .inr ⟨n, _, children i, .slot hf, rfl, rfl⟩

theorem CutsOrKeeps.child {c : UInt8} {i : Nat} (hf : findChild n keys children c = some i)
    {r : ArtNode V × Nat} {as : Except Fault (List (Action Block))}
    (h : CutsOrKeeps (children i) r as) :
    CutsOrKeeps (.node n keys children) (.node n keys (Function.update children i r.1), r.2) as := by
  rcases h with ⟨rfl, has⟩ | ⟨m, x', y, hcut, rfl, has⟩
  · exact .inl ⟨by rw [Function.update_eq_self], has⟩
  · exact .inr ⟨m, _, y, .child hf hcut, rfl, has⟩

/-- **What the loop of `art_delete_prefix` can do**: nothing, or cut one
subtree out and count its leaves. -/
theorem deletePrefixLoop_cases {past : Past} {key : List UInt8} {x : ArtNode V} {depth : Nat}
    {r : ArtNode V × Nat} (hrun : deletePrefixLoop past key x depth = .ok r) :
    CutsOrKeeps x r (deletePrefixLoopActions past key x depth) := by
  induction x generalizing depth r with
  | null =>
      cases hrun
      exact .inl ⟨rfl, rfl⟩
  | leaf l => cases hrun
  | node n keys children ih =>
      rw [deletePrefixLoop] at hrun
      rw [deletePrefixLoopActions]
      obtain ⟨c, hc, hrun⟩ := exists_of_bind_ok hrun
      simp only [bind, Except.bind, hc]
      cases hf : findChild n keys children c with
      | none =>
          rw [hf] at hrun
          cases hrun
          exact .inl ⟨rfl, rfl⟩
      | some i =>
          have hgone := CutsOrKeeps.slot hf
          simp only [hf] at hrun
          split at hrun
          · next hend =>
              cases hrun
              simpa only [if_pos hend] using hgone
          · next hend =>
              simp only [if_neg hend]
              cases hci : children i with
              | null => simp only [hci] at hrun; cases hrun
              | leaf l =>
                  simp only [hci] at hrun hgone ⊢
                  obtain ⟨b, hb, hrun⟩ := exists_of_bind_ok hrun
                  cases b with
                  | false => cases hrun
                  | true =>
                      cases hrun
                      simpa only [hb, if_true] using hgone
              | node m ks ch =>
                  have ihi : ∀ {d r}, deletePrefixLoop past key (.node m ks ch) d = .ok r →
                      CutsOrKeeps (children i) r
                        (deletePrefixLoopActions past key (.node m ks ch) d) := fun h => by
                    rw [hci]
                    exact hci ▸ ih i (hci ▸ h)
                  simp only [hci] at hrun hgone ⊢
                  by_cases hz : m.partialLen = 0
                  · rw [if_pos hz] at hrun ⊢
                    obtain ⟨r', hr', hrun⟩ := exists_of_bind_ok hrun
                    cases hrun
                    exact .child hf (ihi hr')
                  · rw [if_neg hz] at hrun ⊢
                    obtain ⟨idx, hidx, hrun⟩ := exists_of_bind_ok hrun
                    simp only [hidx]
                    by_cases hlt : depth + min idx m.partialLen < key.length
                    · rw [if_pos hlt] at hrun ⊢
                      cases hrun
                      exact .inl ⟨rfl, rfl⟩
                    · rw [if_neg hlt] at hrun ⊢
                      by_cases heq : depth + min idx m.partialLen = key.length
                      · rw [if_pos heq] at hrun ⊢
                        cases hrun
                        exact hgone
                      · rw [if_neg heq] at hrun ⊢
                        obtain ⟨r', hr', hrun⟩ := exists_of_bind_ok hrun
                        cases hrun
                        exact .child hf (ihi hr')

/-- `art_delete_prefix`, called with depth 0. -/
def deletePrefixActions (past : Past) (t : ArtTree V) (key : List UInt8) :
    Except Fault (List (Action Block)) :=
  match t.root with
  | .null => .ok []
  | .leaf l => do
      let _ ← leafMatches past l key
      .ok []
  | .node n keys children => do
      if ← prefixPasses past n key 0 then
        deletePrefixLoopActions past key (.node n keys children) n.partialLen
      else .ok []

/-- The leaf that `art_delete_prefix` takes from the root and does not free. -/
def deletePrefixLeaks (t : ArtTree V) (key : List UInt8) : List Block :=
  match t.root with
  | .leaf l => if l.bytes = key then [.leaf l.key.length] else []
  | _ => []

/-- **What `art_delete_prefix` can do**: nothing, drop a root leaf, or cut one
subtree out. -/
theorem artDeletePrefix_cases {past : Past} {t t' : ArtTree V} (hwf : t.WF) {key : List UInt8}
    {ret : Nat} (hrun : artDeletePrefix past t key = .ok (t', ret)) :
    t' = ⟨t'.root, t.size - ret⟩ ∧
    ((∃ l, t.root = .leaf l ∧ t'.root = .null ∧ ret = 1 ∧
      deletePrefixActions past t key = .ok [] ∧ deletePrefixLeaks t key = [.leaf l.key.length]) ∨
    (CutsOrKeeps t.root (t'.root, ret) (deletePrefixActions past t key) ∧
      deletePrefixLeaks t key = [])) := by
  obtain ⟨root, size⟩ := t
  cases root with
  | null =>
      cases hrun
      exact ⟨by simp, .inr ⟨.inl ⟨rfl, rfl⟩, rfl⟩⟩
  | leaf l =>
      rcases hwf with hnull | hwf
      · cases hnull
      · cases hwf with
        | leaf hbuf hpath =>
            have hm := leafMatches_eq past hbuf key
            rw [artDeletePrefix_leaf past rfl hbuf] at hrun
            simp only [deletePrefixActions, deletePrefixLeaks, hm]
            split at hrun
            · next heq =>
                cases hrun
                exact ⟨by simp, .inl ⟨l, rfl, rfl, rfl, rfl, if_pos heq⟩⟩
            · next hne =>
                cases hrun
                exact ⟨by simp, .inr ⟨.inl ⟨rfl, rfl⟩, if_neg hne⟩⟩
  | node n keys children =>
      rw [artDeletePrefix_node past rfl] at hrun
      simp only [deletePrefixActions, prefixPasses_eq, bind, Except.bind, List.drop_zero,
        decide_eq_true_eq]
      split at hrun
      · next hs =>
          obtain ⟨r, hr, hrun⟩ := exists_of_bind_ok hrun
          cases hrun
          rw [if_pos hs]
          exact ⟨rfl, .inr ⟨deletePrefixLoop_cases hr, rfl⟩⟩
      · next hs =>
          cases hrun
          rw [if_neg hs]
          exact ⟨by simp, .inr ⟨.inl ⟨rfl, rfl⟩, rfl⟩⟩

/-- **Whatever the prefix, `art_delete_prefix` removes at most one subtree**: if
it returns, the tree is well formed, the entries below some path are gone, and
their number is returned and subtracted from `size`. -/
theorem artDeletePrefix_spec {past : Past} {t t' : ArtTree V} (hwf : t.WF) {key : List UInt8}
    {ret : Nat} (hrun : artDeletePrefix past t key = .ok (t', ret)) :
    t'.WF ∧ t'.size = t.size - ret ∧
      (t' = t ∧ ret = 0 ∨ ∃ q, (entries t'.root).Perm (prune (entries t.root) q) ∧
        ret = (below (entries t.root) q).length ∧ 0 < ret) := by
  obtain ⟨hsize, hcases⟩ := artDeletePrefix_cases hwf hrun
  rcases hcases with ⟨l, hroot, hnull, rfl, -, -⟩ | ⟨⟨hkeep, -⟩ | ⟨m, x', y, hcut, hr, -⟩, -⟩
  · have hall : ∀ e ∈ entries (.leaf l), l.bytes <+: e.1 := fun e he => by
      rw [List.mem_singleton.mp he]
      exact List.prefix_refl _
    refine ⟨.inl hnull, by rw [hsize], .inr ⟨l.bytes, ?_, ?_, Nat.one_pos⟩⟩
    · rw [hnull, hroot, prune_eq_nil hall]
      exact List.Perm.refl _
    · rw [hroot, below_eq_self hall]
      rfl
  · obtain ⟨hroot, rfl⟩ := Prod.mk.inj hkeep
    have ht : t' = t := by
      rw [hsize, hroot]
      simp
    exact ⟨ht ▸ hwf, by simp [ht], .inl ⟨ht, rfl⟩⟩
  · obtain ⟨hroot, rfl⟩ := Prod.mk.inj hr
    rcases hwf with hnull | hwf
    · rw [hnull] at hcut
      cases hcut
    · obtain ⟨hwf', q, -, -, hprune, hbelow, hne⟩ := hcut.spec hwf
      have hlen : destroyNode y = (below (entries t.root) q).length := by
        rw [destroyNode_eq, hbelow.length_eq]
      refine ⟨.inr (hroot ▸ hwf'), by rw [hsize], .inr ⟨q, hroot ▸ hprune, hlen, ?_⟩⟩
      rw [destroyNode_eq]
      exact List.length_pos_iff.mpr hne

/-- **`art_delete_prefix` accounts for its blocks**, but for a leaf that it takes
from the root. -/
theorem deletePrefix_turns {past : Past} {t t' : ArtTree V} (hwf : t.WF) {key : List UInt8}
    {ret : Nat} (hrun : artDeletePrefix past t key = .ok (t', ret)) :
    ∃ as, deletePrefixActions past t key = .ok as ∧
      Turns as (blocks t.root) (blocks t'.root ++ deletePrefixLeaks t key) := by
  obtain ⟨-, hcases⟩ := artDeletePrefix_cases hwf hrun
  rcases hcases with ⟨l, hroot, hnull, -, has, hleak⟩ |
    ⟨⟨hkeep, has⟩ | ⟨m, x', y, hcut, hr, has⟩, hleak⟩
  · refine ⟨[], has, ?_⟩
    rw [hroot, hnull, hleak]
    exact .nil
  · refine ⟨[], has, ?_⟩
    rw [(Prod.mk.inj hkeep).1, hleak, List.append_nil]
    exact .nil
  · refine ⟨_, has, ?_⟩
    rw [(Prod.mk.inj hr).1, hleak, List.append_nil]
    rcases hwf with hnull | hwf
    · rw [hnull] at hcut
      cases hcut
    · exact hcut.destroy_turns hwf

end LightQuery
