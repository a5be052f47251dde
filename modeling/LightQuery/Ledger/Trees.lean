import LightQuery.Ledger.Actions
import LightQuery.Art.Canonical

/-!
# LightQuery.Ledger.Trees

What the calls on a whole tree allocate and free.

The actions of a descent follow its definition branch by branch, the reads
included, so that they are those of the path that it takes.  Each lemma is an
induction on the tree: what happens below a slot happens next to the other
blocks of the node (`replaceChild_turns`).
-/

namespace LightQuery

open CArray CommonPrefix Heap

variable {V : Type} {n : Header} {keys : Nat → UInt8} {children : Nat → ArtNode V}

/-- A computation that succeeds went through its first part. -/
theorem exists_of_bind_ok {α β : Type} {x : Except Fault α} {f : α → Except Fault β} {r : β}
    (h : x.bind f = .ok r) : ∃ a, x = .ok a ∧ f a = .ok r := by
  cases x with
  | error e => cases h
  | ok a => exact ⟨a, rfl, h⟩

/-- What happens to a child happens below the node. -/
theorem replaceChild_turns (hl : Layout n keys children) {b : UInt8} {i : Nat}
    (hi : Slot n keys children b i) {x : ArtNode V} (hx : x.isNull = false)
    {as : List (Action Block)} {E : List Block}
    (h : Turns as (blocks (children i)) (blocks x ++ E)) :
    Turns as (blocks (.node n keys children))
      (blocks (.node n keys (Function.update children i x)) ++ E) := by
  obtain ⟨hl', hmap⟩ := hl.replace hi hx
  have hnew := blocks_node_perm hl'.toMatching
  rw [hmap] at hnew
  have hnew' := hnew.trans (((mapBlocks_update_perm _ b x).cons _).trans List.perm_middle.symm)
  have hframe := h.frame
    (.node n.type :: mapBlocks (Function.update (childAt n keys children) b none))
  refine hframe.congr (blocks_node_slot hl.toMatching hi).symm ?_
  refine List.Perm.trans ?_ (hnew'.symm.append_right E)
  rw [List.append_assoc, List.append_assoc]
  exact List.perm_append_comm.append_left _

/-! ## destroy_node -/

/-- `destroy_node`. -/
def destroyActions : ArtNode V → List (Action Block)
  | .null => []
  | .leaf l => [.free (.leaf l.key.length)]
  | .node n keys children =>
      ((childOrder n keys children).flatMap fun i => destroyActions (children i)) ++
        [.free (.node n.type)]

/-- **`destroy_node` frees every block once.** -/
theorem destroy_turns (x : ArtNode V) : Turns (destroyActions x) (blocks x) [] := by
  induction x with
  | null => exact .nil
  | leaf l => exact .free .nil
  | node n keys children ih =>
      have hsub := Turns.flatMap (l := childOrder n keys children) fun i _ => ih i
      exact ((hsub.frame [.node n.type]).append (.free .nil)).congr List.perm_append_comm
        (List.Perm.refl _)

/-! ## art_insert -/

/-- A new NODE4 and a new leaf: the splits of `recursive_insert` and of
`art_disable`.  The two `add_child4` on the new node find room. -/
def splitActions (key : List UInt8) : List (Action Block) :=
  [.alloc (.node .node4), .alloc (.leaf key.length)]

/-- `recursive_insert`. -/
def insertActions (past : Past) (key : List UInt8) :
    ArtNode V → (depth : Nat) → Except Fault (List (Action Block))
  | .null, _ => .ok [.alloc (.leaf key.length)]
  | .leaf l, _ => do
      if ← leafMatches past l key then .ok [] else .ok (splitActions key)
  | .node n keys children, depth => do
      match ← pathDiff past n keys children key depth with
      | some _ => .ok (splitActions key)
      | none =>
          let c ← readByte past key (depth + n.partialLen)
          match findChild n keys children c with
          | some i => insertActions past key (children i) (depth + n.partialLen + 1)
          | none => .ok (.alloc (.leaf key.length) :: addChildActions n)

/-- The blocks of a split. -/
theorem split_turns (key : List UInt8) {x y : ArtNode V}
    (h : (blocks y).Perm (.node .node4 :: (blocks x ++ [.leaf key.length]))) :
    Turns (splitActions key) (blocks x) (blocks y) := by
  refine (Turns.allocs [.node .node4, .leaf key.length] (blocks x)).congr (List.Perm.refl _) ?_
  exact ((List.perm_append_singleton _ _).symm.cons _).trans h.symm

theorem addChild4_isNull (build : Build) (n : Header) (keys : Nat → UInt8)
    (children : Nat → ArtNode V) (c : UInt8) (x : ArtNode V) :
    (addChild4 build n keys children c x).isNull = false := by
  unfold addChild4 addChild16 addChild48
  split_ifs <;> rfl

theorem pairNode_isNull (build : Build) (n : Header) (c₁ c₂ : UInt8) {x₁ x₂ : ArtNode V} :
    (pairNode build n c₁ x₁ c₂ x₂).isNull = false := by
  unfold pairNode
  split
  · exact addChild4_isNull ..
  · exact addChild4_isNull ..

/-- Splitting a leaf keeps it. -/
theorem splitLeaf_turns {past : Past} {build : Build} {key : List UInt8} {value : Option V}
    {depth idx : Nat} {l : ArtLeaf V} {y : ArtNode V}
    (h : splitLeaf past build key value depth idx l = .ok y) :
    Turns (splitActions key) (blocks (.leaf l)) (blocks y) ∧ y.isNull = false := by
  obtain ⟨bytes, -, h⟩ := exists_of_bind_ok h
  obtain ⟨c₁, -, h⟩ := exists_of_bind_ok h
  obtain ⟨c₂, -, h⟩ := exists_of_bind_ok h
  cases h
  exact ⟨split_turns key (pairNode_blocks build rfl rfl _ _ _ _), pairNode_isNull ..⟩

/-- Splitting a compressed path keeps the node. -/
theorem splitPath_turns {past : Past} {build : Build} {key : List UInt8} {value : Option V}
    {depth prefixDiff : Nat} {y : ArtNode V}
    (h : splitPath past build n keys children key value depth prefixDiff = .ok y) :
    Turns (splitActions key) (blocks (.node n keys children)) (blocks y) ∧ y.isNull = false := by
  obtain ⟨r, -, h⟩ := exists_of_bind_ok h
  obtain ⟨c, -, h⟩ := exists_of_bind_ok h
  cases h
  refine ⟨split_turns key ((pairNode_blocks build rfl rfl _ _ _ _).trans (List.Perm.of_eq ?_)),
    pairNode_isNull ..⟩
  simp only [blocks, childOrder]
  rfl

/-- A new leaf below the node. -/
theorem addLeaf_turns (build : Build) (hl : Layout n keys children) {c : UInt8}
    (hc : findChild n keys children c = none) (key : List UInt8) (value : Option V) :
    Turns (.alloc (.leaf key.length) :: addChildActions n) (blocks (.node n keys children))
        (blocks (addChild build n keys children c (.leaf (makeLeaf key value)))) ∧
      (addChild build n keys children c (.leaf (makeLeaf key value))).isNull = false := by
  have hnone : childAt n keys children c = none := by rw [childAt, hc]; rfl
  have hturn := addChild_blocks build hl hnone (x := .leaf (makeLeaf key value)) rfl
  have hx : (ArtNode.leaf (makeLeaf key value)).isNull = false := rfl
  obtain ⟨n', ks, ch, hadd, -⟩ := addChild_denotes build hl hnone hx
  exact ⟨.alloc hturn, by rw [hadd]; rfl⟩

/-- **`recursive_insert` accounts for its blocks.** -/
theorem insert_turns {past : Past} {build : Build} {path key : List UInt8} {value : Option V}
    {x : ArtNode V} (h : WF path x) {depth : Nat} {r : ArtNode V × Option V × Bool}
    (hrun : recursiveInsert past build key value x depth = .ok r) :
    ∃ as, insertActions past key x depth = .ok as ∧ Turns as (blocks x) (blocks r.1) ∧
      r.1.isNull = false := by
  induction h generalizing depth r with
  | @leaf path l hlen hpath =>
      rw [recursiveInsert] at hrun
      rw [insertActions]
      obtain ⟨b, hb, hrun⟩ := exists_of_bind_ok hrun
      cases b with
      | true =>
          cases hrun
          exact ⟨[], by rw [hb]; rfl, .nil, rfl⟩
      | false =>
          obtain ⟨idx, -, hrun⟩ := exists_of_bind_ok hrun
          obtain ⟨y, hy, hrun⟩ := exists_of_bind_ok hrun
          cases hrun
          exact ⟨_, by rw [hb]; rfl, splitLeaf_turns hy⟩
  | @node path n keys children c hl htwo hlen hstored hchild ih =>
      rw [recursiveInsert] at hrun
      rw [insertActions]
      obtain ⟨diff, hdiff, hrun⟩ := exists_of_bind_ok hrun
      cases diff with
      | some prefixDiff =>
          obtain ⟨y, hy, hrun⟩ := exists_of_bind_ok hrun
          cases hrun
          exact ⟨_, by rw [hdiff]; rfl, splitPath_turns hy⟩
      | none =>
          obtain ⟨b, hb, hrun⟩ := exists_of_bind_ok hrun
          rw [hdiff]
          simp only [bind, Except.bind, hb]
          cases hf : findChild n keys children b with
          | some i =>
              have hi := hl.findChild_eq_some_iff.mp hf
              rw [hf] at hrun
              obtain ⟨r', hr', hrun⟩ := exists_of_bind_ok hrun
              cases hrun
              obtain ⟨as, has, hturn, hnull⟩ := ih b i hi hr'
              refine ⟨as, has, ?_, rfl⟩
              have := replaceChild_turns hl hi hnull (E := []) (by rwa [List.append_nil])
              rwa [List.append_nil] at this
          | none =>
              rw [hf] at hrun
              cases hrun
              exact ⟨_, rfl, addLeaf_turns build hl hf key value⟩

/-! ## art_disable -/

/-- `leaf_disable_prefix`. -/
def leafDisableActions (past : Past) (key : List UInt8) (l : ArtLeaf V) (depth : Nat) :
    Except Fault (List (Action Block)) := do
  let idx ← mismatch (fun idx => readByte past l.key (depth + idx))
    (fun idx => readByte past key (depth + idx)) 0 (min l.keyLen key.length - depth)
  if depth + idx = key.length then .ok []
  else if depth + idx = l.keyLen ∧ l.value.isNone then .ok []
  else .ok (splitActions key)

/-- `if (n->partial_len) { … }` of `art_disable`. -/
def disablePathActions (past : Past) (key : List UInt8) (n : Header) (keys : Nat → UInt8)
    (children : Nat → ArtNode V) (depth : Nat) : Except Fault (Option (List (Action Block))) :=
  if n.partialLen = 0 then .ok none
  else do
    let prefixLen ← prefixMismatch past n keys children key depth
    let prefixLen := min prefixLen n.partialLen
    if depth + prefixLen = key.length then
      .ok (some (destroyActions (.node n keys children) ++ [.alloc (.leaf key.length)]))
    else if depth + prefixLen < key.length ∧ prefixLen < n.partialLen then
      .ok (some (splitActions key))
    else .ok none

/-- The loop of `art_disable`. -/
def disableActions (past : Past) (key : List UInt8) :
    ArtNode V → (depth : Nat) → Except Fault (List (Action Block))
  | .null, depth => if depth ≤ key.length then .error .nullNode else .ok []
  | .leaf l, depth => leafDisableActions past key l depth
  | .node n keys children, depth => do
      match ← disablePathActions past key n keys children depth with
      | some as => .ok as
      | none =>
          let depth := depth + n.partialLen
          let c ← readByte past key depth
          match findChild n keys children c with
          | some i =>
              if depth + 1 = key.length then
                .ok (destroyActions (children i) ++ [.alloc (.leaf key.length)])
              else disableActions past key (children i) (depth + 1)
          | none =>
              if depth ≤ key.length then .ok (.alloc (.leaf key.length) :: addChildActions n)
              else .ok []

/-- A subtree is replaced by one new leaf. -/
theorem destroy_alloc_turns (x : ArtNode V) (key : List UInt8) :
    Turns (destroyActions x ++ [.alloc (.leaf key.length)]) (blocks x) [.leaf key.length] :=
  (destroy_turns x).append (.alloc .nil)

theorem leafDisable_turns {past : Past} {build : Build} {key : List UInt8} {l : ArtLeaf V}
    {depth : Nat} {r : ArtNode V × Int × Int}
    (hrun : leafDisablePrefix past build key l depth = .ok r) :
    ∃ as, leafDisableActions past key l depth = .ok as ∧
      Turns as (blocks (.leaf l)) (blocks r.1) ∧ r.1.isNull = false := by
  obtain ⟨idx, hidx, hrun⟩ := exists_of_bind_ok hrun
  rw [leafDisableActions, hidx]
  simp only [bind, Except.bind]
  split at hrun
  · next hend =>
      cases hrun
      exact ⟨[], by rw [if_pos hend], .nil, rfl⟩
  · next hend =>
      rw [if_neg hend]
      split at hrun
      · next hmark =>
          cases hrun
          exact ⟨[], by rw [if_pos hmark], .nil, rfl⟩
      · next hmark =>
          obtain ⟨y, hy, hrun⟩ := exists_of_bind_ok hrun
          cases hrun
          exact ⟨_, by rw [if_neg hmark], splitLeaf_turns hy⟩

/-- Whether the descent goes deeper or not, the path decides. -/
theorem disablePath_turns {past : Past} {build : Build} {key : List UInt8} {depth : Nat}
    {o : Option (ArtNode V × Int × Int)}
    (hrun : disablePath past build key n keys children depth = .ok o) :
    ∃ os, disablePathActions past key n keys children depth = .ok os ∧ (os = none ↔ o = none) ∧
      ∀ r as, o = some r → os = some as →
        Turns as (blocks (.node n keys children)) (blocks r.1) ∧ r.1.isNull = false := by
  unfold disablePath at hrun
  unfold disablePathActions
  split at hrun
  · next hz =>
      cases hrun
      exact ⟨none, by rw [if_pos hz], by simp, fun r as hr => by cases hr⟩
  · next hz =>
      obtain ⟨idx, hidx, hrun⟩ := exists_of_bind_ok hrun
      rw [if_neg hz, hidx]
      simp only [bind, Except.bind]
      dsimp only at hrun
      split at hrun
      · next hend =>
          cases hrun
          refine ⟨_, by rw [if_pos hend], by simp, fun r as hr has => ?_⟩
          cases hr
          cases has
          exact ⟨destroy_alloc_turns _ key, rfl⟩
      · next hend =>
          rw [if_neg hend]
          split at hrun
          · next hsplit =>
              obtain ⟨y, hy, hrun⟩ := exists_of_bind_ok hrun
              cases hrun
              refine ⟨_, by rw [if_pos hsplit], by simp, fun r as hr has => ?_⟩
              cases hr
              cases has
              exact splitPath_turns hy
          · next hsplit =>
              cases hrun
              exact ⟨none, by rw [if_neg hsplit], by simp, fun r as hr => by cases hr⟩

/-- **`art_disable` accounts for its blocks.** -/
theorem disable_turns {past : Past} {build : Build} {path key : List UInt8} {x : ArtNode V}
    (h : WF path x) {depth : Nat} {r : ArtNode V × Int × Int}
    (hrun : disableLoop past build key x depth = .ok r) :
    ∃ as, disableActions past key x depth = .ok as ∧ Turns as (blocks x) (blocks r.1) ∧
      r.1.isNull = false := by
  induction h generalizing depth r with
  | @leaf path l hlen hpath =>
      rw [disableLoop] at hrun
      rw [disableActions]
      exact leafDisable_turns hrun
  | @node path n keys children c hl htwo hlen hstored hchild ih =>
      rw [disableLoop] at hrun
      rw [disableActions]
      obtain ⟨o, ho, hrun⟩ := exists_of_bind_ok hrun
      obtain ⟨os, hos, hiff, hexit⟩ := disablePath_turns ho
      rw [hos]
      cases o with
      | some r' =>
          cases hrun
          cases os with
          | none => exact absurd (hiff.mp rfl) (by simp)
          | some as => exact ⟨as, rfl, hexit r as rfl rfl⟩
      | none =>
          rw [hiff.mpr rfl]
          obtain ⟨b, hb, hrun⟩ := exists_of_bind_ok hrun
          simp only [bind, Except.bind, hb]
          cases hf : findChild n keys children b with
          | some i =>
              have hi := hl.findChild_eq_some_iff.mp hf
              simp only [hf] at hrun
              simp only
              split at hrun
              · next hend =>
                  cases hrun
                  refine ⟨_, by rw [if_pos hend], ?_, rfl⟩
                  have := replaceChild_turns hl hi (x := .leaf (makeLeaf key none)) rfl (E := [])
                    (destroy_alloc_turns (children i) key)
                  rwa [List.append_nil] at this
              · next hend =>
                  obtain ⟨r', hr', hrun⟩ := exists_of_bind_ok hrun
                  cases hrun
                  obtain ⟨as, has, hturn, hnull⟩ := ih b i hi hr'
                  refine ⟨as, by rw [if_neg hend, has], ?_, rfl⟩
                  have := replaceChild_turns hl hi hnull (E := []) (by rwa [List.append_nil])
                  rwa [List.append_nil] at this
          | none =>
              simp only [hf] at hrun
              simp only
              split at hrun
              · next hle =>
                  cases hrun
                  exact ⟨_, by rw [if_pos hle], addLeaf_turns build hl hf key none⟩
              · next hle =>
                  cases hrun
                  exact ⟨[], by rw [if_neg hle], .nil, rfl⟩

end LightQuery
