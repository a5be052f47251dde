import LightQuery.Ledger.Blocks
import LightQuery.Lib.Heap

/-!
# LightQuery.Ledger.Actions

What the tree routines allocate and free.

Each routine has its list of actions, in the branches of the source, beside the
definition of its result.  The lemmas say that the actions turn the blocks of
the tree before into those of the tree after, and need no more than that the
tree is well formed and the routine returns.
-/

namespace LightQuery

open CArray Heap

variable {V : Type} {n : Header} {keys : Nat → UInt8} {children : Nat → ArtNode V}

/-! ## add_child -/

/-- A node is replaced by one of another type: `alloc_node`, then `free(n)`. -/
def replaceActions (t : NodeType) (n : Header) : List (Action Block) :=
  [.alloc (.node t), .free (.node n.type)]

/-- `add_child48`. -/
def addChild48Actions (n : Header) : List (Action Block) :=
  if n.numChildren < 48 then [] else replaceActions .node256 n

/-- `add_child16`. -/
def addChild16Actions (n : Header) : List (Action Block) :=
  if n.numChildren < 16 then []
  else replaceActions .node48 n ++ addChild48Actions (copyHeader .node48 n)

/-- `add_child4`. -/
def addChild4Actions (n : Header) : List (Action Block) :=
  if n.numChildren < 4 then []
  else replaceActions .node16 n ++ addChild16Actions (copyHeader .node16 n)

/-- `add_child`. -/
def addChildActions (n : Header) : List (Action Block) :=
  match n.type with
  | .node4 => addChild4Actions n
  | .node16 => addChild16Actions n
  | .node48 => addChild48Actions n
  | .node256 => []

section AddChild

variable (build : Build) (n : Header) (keys : Nat → UInt8) (children : Nat → ArtNode V) (c : UInt8)
  (child : ArtNode V)

theorem addChild48_turns : Turns (addChild48Actions n) [.node n.type]
    (ownBlock (addChild48 n keys children c child)) := by
  unfold addChild48Actions addChild48
  split
  · exact .nil
  · exact .exchange _ _

theorem addChild16_turns : Turns (addChild16Actions n) [.node n.type]
    (ownBlock (addChild16 build n keys children c child)) := by
  unfold addChild16Actions addChild16
  split
  · exact .nil
  · exact (Turns.exchange _ _).append (addChild48_turns _ _ _ c child)

theorem addChild4_turns : Turns (addChild4Actions n) [.node n.type]
    (ownBlock (addChild4 build n keys children c child)) := by
  unfold addChild4Actions addChild4
  split
  · exact .nil
  · exact (Turns.exchange _ _).append (addChild16_turns build _ _ _ c child)

/-- Only the node itself is replaced. -/
theorem addChild_turns : Turns (addChildActions n) [.node n.type]
    (ownBlock (addChild build n keys children c child)) := by
  cases ht : n.type with
  | node4 =>
      simpa only [addChildActions, addChild, ht] using
        addChild4_turns build n keys children c child
  | node16 =>
      simpa only [addChildActions, addChild, ht] using
        addChild16_turns build n keys children c child
  | node48 =>
      simpa only [addChildActions, addChild, ht] using addChild48_turns n keys children c child
  | node256 => simpa only [addChildActions, addChild, ht, addChild256, ownBlock] using Turns.nil

end AddChild

/-- The blocks of the new child come under the node. -/
theorem addChild_blocks (build : Build) (hl : Layout n keys children) {c : UInt8}
    (hc : childAt n keys children c = none) {x : ArtNode V} (hx : x.isNull = false) :
    Turns (addChildActions n) (blocks x ++ blocks (.node n keys children))
      (blocks (addChild build n keys children c x)) := by
  have hnew := (addChild_denotes build hl hc hx).blocks_perm
  have hmap := mapBlocks_store_perm hc x
  have hturn := (addChild_turns build n keys children c x).frame
    (mapBlocks (Function.update (childAt n keys children) c (some x)))
  refine hturn.congr ?_ hnew.symm
  have hold := (blocks_node_perm hl.toMatching).append_left (blocks x)
  exact ((hmap.cons _).trans List.perm_middle.symm).trans hold.symm

/-- The new NODE4 of a split, with both its children. -/
theorem pairNode_blocks (build : Build) {n : Header} (ht : n.type = .node4) (hz : n.numChildren = 0)
    (c₁ c₂ : UInt8) (x₁ x₂ : ArtNode V) :
    (blocks (pairNode build n c₁ x₁ c₂ x₂)).Perm (.node .node4 :: (blocks x₁ ++ blocks x₂)) := by
  have hchild : ∀ (a : Nat → ArtNode V) idx, idx ≤ 1 →
      (blocks (insertAt a idx x₂ 1 0) ++ blocks (insertAt a idx x₂ 1 1)).Perm
        (blocks (a 0) ++ blocks x₂) := by
    intro a idx hidx
    rcases Nat.le_one_iff_eq_zero_or_eq_one.mp hidx with rfl | rfl
    · rw [insertAt_self, insertAt_succ a x₂ (Nat.le_refl 0) Nat.one_pos]
      exact List.perm_append_comm
    · rw [insertAt_self, insertAt_lt a x₂ 1 Nat.one_pos]
  have hfirst : addChild4 build n (fun _ => 0) (fun _ => .null) c₁ x₁ =
      .node { n with numChildren := 1 } (insertAt (fun _ => 0) 0 c₁ 0)
        (insertAt (fun _ => .null) 0 x₁ 0) := by
    simp only [addChild4, hz, insertChild]
    rfl
  rw [pairNode, hfirst]
  simp only [addChild4, insertChild]
  have h1 : (1 : UInt8).toNat = 1 := rfl
  have hrange : List.range ((1 : UInt8) + 1).toNat = [0, 1] := rfl
  rw [if_pos (by decide), blocks, childOrder]
  simp only [ht, h1, hrange, List.flatMap_cons, List.flatMap_nil, List.append_nil]
  refine List.Perm.cons _ ((hchild _ _ (firstIndex_le 1 _)).trans (List.Perm.of_eq ?_))
  rw [insertAt_self]

/-! ## remove_child -/

/-- `remove_child256`. -/
def removeChild256Actions (n : Header) : List (Action Block) :=
  if n.numChildren - 1 = 37 then replaceActions .node48 n else []

/-- `remove_child48`. -/
def removeChild48Actions (n : Header) : List (Action Block) :=
  if n.numChildren - 1 = 12 then replaceActions .node16 n else []

/-- `remove_child16`. -/
def removeChild16Actions (n : Header) : List (Action Block) :=
  if n.numChildren - 1 = 3 then replaceActions .node4 n else []

/-- `remove_child4`. -/
def removeChild4Actions (n : Header) : List (Action Block) :=
  if n.numChildren - 1 = 1 then [.free (.node n.type)] else []

/-- `remove_child`. -/
def removeChildActions (n : Header) : List (Action Block) :=
  match n.type with
  | .node4 => removeChild4Actions n
  | .node16 => removeChild16Actions n
  | .node48 => removeChild48Actions n
  | .node256 => removeChild256Actions n

section RemoveChild

variable (n : Header) (keys : Nat → UInt8) (children : Nat → ArtNode V) (c : UInt8) (pos : Nat)

theorem removeChild256_turns : Turns (removeChild256Actions n) [.node n.type]
    (ownBlock (removeChild256 n keys children c)) := by
  unfold removeChild256Actions removeChild256
  dsimp only
  split
  · exact .exchange _ _
  · exact .nil

theorem removeChild48_turns : Turns (removeChild48Actions n) [.node n.type]
    (ownBlock (removeChild48 n keys children c)) := by
  unfold removeChild48Actions removeChild48
  dsimp only
  split
  · exact .exchange _ _
  · exact .nil

theorem removeChild16_turns : Turns (removeChild16Actions n) [.node n.type]
    (ownBlock (removeChild16 n keys children pos)) := by
  unfold removeChild16Actions removeChild16
  dsimp only
  split
  · exact .exchange _ _
  · exact .nil

theorem removeChild4_turns (h1 : ¬ n.numChildren - 1 = 1) : Turns (removeChild4Actions n)
    [.node n.type] (ownBlock (removeChild4 n keys children pos)) := by
  rw [removeChild4Actions, removeChild4, if_neg h1, if_neg h1]
  exact .nil

/-- Unless a NODE4 collapses, only the node itself is replaced. -/
theorem removeChild_turns (hmany : n.type = .node4 → ¬ n.numChildren - 1 = 1) :
    Turns (removeChildActions n) [.node n.type] (ownBlock (removeChild n keys children c pos)) := by
  cases ht : n.type with
  | node4 =>
      simpa only [removeChildActions, removeChild, ht] using
        removeChild4_turns n keys children pos (hmany ht)
  | node16 =>
      simpa only [removeChildActions, removeChild, ht] using removeChild16_turns n keys children pos
  | node48 =>
      simpa only [removeChildActions, removeChild, ht] using removeChild48_turns n keys children c
  | node256 =>
      simpa only [removeChildActions, removeChild, ht] using removeChild256_turns n keys children c

end RemoveChild

/-- The only child that is left keeps its blocks. -/
theorem blocks_absorb (n : Header) (b : UInt8) (x : ArtNode V) :
    blocks (absorb n b x) = blocks x := by
  cases x <;> rfl

/-- A NODE4 has one child left where it had two. -/
theorem last_child_iff (ht : n.type = .node4) (htwo : 2 ≤ degree n keys children) :
    n.numChildren - 1 = 1 ↔ degree n keys children = 2 := by
  have hd : degree n keys children = n.numChildren.toNat := degree_node4 ht
  rw [← UInt8.toNat_inj, toNat_sub_one (by omega), hd]
  show n.numChildren.toNat - 1 = 1 ↔ _
  omega

/-- The removed child is on its own afterwards. -/
theorem removeChild_blocks (hl : Layout n keys children) (htwo : 2 ≤ degree n keys children)
    {b : UInt8} {pos : Nat} (hpos : Slot n keys children b pos) :
    Turns (removeChildActions n) (blocks (.node n keys children))
      (blocks (removeChild n keys children b pos) ++ blocks (children pos)) := by
  have hold := blocks_node_slot hl.toMatching hpos
  by_cases hmany : n.type = .node4 ∧ degree n keys children = 2
  · obtain ⟨ht, h2⟩ := hmany
    obtain ⟨b', i, hi, hne, honly⟩ := exists_other_slot hl hpos h2
    -- the node goes, and its other child stays
    have hrest : Function.update (childAt n keys children) b none =
        Function.update (fun _ => none) b' (some (children i)) := by
      funext b''
      by_cases hb : b'' = b
      · rw [hb, Function.update_self, Function.update_of_ne hne.symm]
      · rw [Function.update_of_ne hb]
        by_cases hb' : b'' = b'
        · rw [hb', Function.update_self, hl.childAt_of_slot hi]
        · rw [Function.update_of_ne hb', honly b'' hb' hb]
    have hone : (mapBlocks (Function.update (fun _ => none) b' (some (children i)))).Perm
        (blocks (children i)) := by
      have := mapBlocks_store_perm (m := fun _ => none) (c := b') rfl (children i)
      rwa [mapBlocks_none, List.append_nil] at this
    rw [removeChild_of_two ht hl hpos hi hne h2, blocks_absorb, removeChildActions, ht]
    simp only [removeChild4Actions, if_pos ((last_child_iff ht htwo).mpr h2)]
    rw [hrest] at hold
    refine Turns.congr (Turns.free .nil) (hold.trans ?_).symm (List.Perm.refl _)
    exact List.perm_middle.trans ((List.perm_append_comm.trans (hone.append_right _)).cons _)
  · have hd := (removeChild_denotes hl hpos htwo fun ht h2 => hmany ⟨ht, h2⟩).blocks_perm
    have hturn := removeChild_turns n keys children b pos fun ht h1 =>
      hmany ⟨ht, (last_child_iff ht htwo).mp h1⟩
    refine (hturn.frame (mapBlocks (Function.update (childAt n keys children) b none) ++
      blocks (children pos))).congr ?_ ?_
    · rw [← List.append_assoc]
      exact List.perm_append_comm.trans hold.symm
    · rw [← List.append_assoc]
      exact hd.symm.append_right _

end LightQuery
