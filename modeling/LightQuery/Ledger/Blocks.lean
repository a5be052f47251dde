import LightQuery.Index.Shape
import Mathlib.Algebra.BigOperators.Ring.List
import Mathlib.Algebra.Ring.Nat

/-!
# LightQuery.Ledger.Blocks

The heap blocks that a tree is made of, and how large they are.

`blocks` lists one block for every node and every leaf below a pointer, each
known by what it was allocated for.  The thresholds at which a node shrinks
bound the inner nodes by the leaves: below any well-formed pointer they take at
most 56 bytes a leaf, less 56 (`WF.inner_bytes_le`), so that a NODE16 is never
kept for fewer than four children and a NODE256 never for fewer than 38.
-/

namespace LightQuery

open CArray

variable {V : Type} {n : Header} {keys : Nat → UInt8} {children : Nat → ArtNode V}

/-! ## blocks -/

/-- A block of the heap: `new art_tree()`, the `new uint8_t[len]` of `loadKey`
and `loadPrefix`, an `alloc_node` and a `make_leaf`. -/
inductive Block where
  | tree
  | buffer (len : Nat)
  | node (type : NodeType)
  | leaf (keyLen : Nat)
deriving DecidableEq, Repr

/-- The blocks below a pointer.  A leaf keeps the buffer it was made with, also
where `art_disable` shortened its key. -/
def blocks : ArtNode V → List Block
  | .null => []
  | .leaf l => [.leaf l.key.length]
  | .node n keys children =>
      .node n.type :: (childOrder n keys children).flatMap fun i => blocks (children i)

/-- The block that the pointer leads to. -/
def ownBlock : ArtNode V → List Block
  | .null => []
  | .leaf l => [.leaf l.key.length]
  | .node n _ _ => [.node n.type]

/-- The blocks below the children of a map of bytes. -/
def mapBlocks (m : UInt8 → Option (ArtNode V)) : List Block :=
  allBytes.flatMap fun b => (m b).elim [] blocks

@[simp] theorem blocks_null : blocks (.null : ArtNode V) = [] := rfl

@[simp] theorem blocks_leaf (l : ArtLeaf V) : blocks (.leaf l) = [.leaf l.key.length] := rfl

@[simp] theorem mapBlocks_none : mapBlocks (fun _ => (none : Option (ArtNode V))) = [] := by
  simp [mapBlocks]

/-- The blocks below one byte can be moved to the front. -/
theorem mapBlocks_perm (m : UInt8 → Option (ArtNode V)) (c : UInt8) :
    (mapBlocks m).Perm ((m c).elim [] blocks ++ mapBlocks (Function.update m c none)) := by
  refine (flatMap_perm_update nodup_allBytes (mem_allBytes c) _).trans (List.Perm.of_eq ?_)
  congr 1
  refine List.flatMap_congr fun b _ => ?_
  by_cases hb : b = c
  · subst hb; simp
  · rw [Function.update_of_ne hb, Function.update_of_ne hb]

/-- Exchanging a child exchanges its blocks. -/
theorem mapBlocks_update_perm (m : UInt8 → Option (ArtNode V)) (c : UInt8) (x : ArtNode V) :
    (mapBlocks (Function.update m c (some x))).Perm
      (blocks x ++ mapBlocks (Function.update m c none)) := by
  have := mapBlocks_perm (Function.update m c (some x)) c
  rwa [Function.update_self, Function.update_idem] at this

/-- Storing a child adds its blocks. -/
theorem mapBlocks_store_perm {m : UInt8 → Option (ArtNode V)} {c : UInt8} (hc : m c = none)
    (x : ArtNode V) :
    (mapBlocks (Function.update m c (some x))).Perm (blocks x ++ mapBlocks m) := by
  have hm : Function.update m c none = m := by rw [← hc, Function.update_eq_self]
  have := mapBlocks_update_perm m c x
  rwa [hm] at this

/-- The blocks of an inner node are its own and those of its children. -/
theorem blocks_node_perm (hm : Matching n keys children) :
    (blocks (.node n keys children)).Perm
      (.node n.type :: mapBlocks (childAt n keys children)) := by
  rw [blocks]
  exact (hm.flatMap_childOrder_perm blocks).cons _

/-- Those below one slot can be told from the others. -/
theorem blocks_node_slot (hm : Matching n keys children) {b : UInt8} {i : Nat}
    (hi : Slot n keys children b i) :
    (blocks (.node n keys children)).Perm (blocks (children i) ++
      (.node n.type :: mapBlocks (Function.update (childAt n keys children) b none))) := by
  have h := mapBlocks_perm (childAt n keys children) b
  rw [hm.childAt_of_slot hi] at h
  exact (blocks_node_perm hm).trans ((h.cons _).trans List.perm_middle.symm)

theorem Denotes.blocks_perm {x : ArtNode V} {len : Nat} {stored : List UInt8}
    {m : UInt8 → Option (ArtNode V)} (h : Denotes x len stored m) :
    (blocks x).Perm (ownBlock x ++ mapBlocks m) := by
  obtain ⟨n, keys, children, rfl, hl, -, -, rfl⟩ := h
  exact blocks_node_perm hl.toMatching

/-! ## sizes -/

/-- The next multiple of `a` from `n` on. -/
def alignUp (n a : Nat) : Nat := (n + a - 1) / a * a

/-- `sizeof` of a struct, its fields given by their sizes and alignments. -/
def structSize (fields : List (Nat × Nat)) : Nat :=
  alignUp (fields.foldl (fun o f => alignUp o f.2 + f.1) 0)
    (fields.foldl (fun a f => max a f.2) 1)

/-- `sizeof(art_node)`. -/
def headerSize : Nat := structSize [(1, 1), (1, 1), (4, 4), (maxPrefixLen, 1)]

/-- Length of the `keys` array. -/
def NodeType.keyBytes : NodeType → Nat
  | .node4 => 4
  | .node16 => 16
  | .node48 => 256
  | .node256 => 0

/-- `sizeof` of the four node structs; a pointer has eight bytes. -/
def NodeType.size (t : NodeType) : Nat :=
  structSize [(headerSize, 4), (t.keyBytes, 1), (8 * t.capacity, 8)]

/-- The bytes that are asked for. -/
def Block.size : Block → Nat
  | .tree => structSize [(8, 8), (8, 8)]
  | .buffer len => len
  | .node t => t.size
  | .leaf keyLen => structSize [(8, 8), (4, 4), (0, 1)] + keyLen

example : [NodeType.node4, .node16, .node48, .node256].map NodeType.size = [56, 168, 664, 2072] := by
  decide

/-- The block is that of an inner node. -/
def Block.isInner : Block → Bool
  | .node _ => true
  | _ => false

/-- How many bytes the inner nodes below a pointer take. -/
def innerBytes (x : ArtNode V) : Nat := (((blocks x).filter Block.isInner).map Block.size).sum

/-- How many inner nodes there are below a pointer. -/
def innerNodes (x : ArtNode V) : Nat := ((blocks x).filter Block.isInner).length

/-- How many bytes all blocks below a pointer take. -/
def blockBytes (x : ArtNode V) : Nat := ((blocks x).map Block.size).sum

/-! ## inner nodes and leaves -/

theorem sum_map_flatMap {α β : Type} (l : List α) (g : α → List β) (f : β → Nat) :
    ((l.flatMap g).map f).sum = (l.map fun a => ((g a).map f).sum).sum := by
  induction l with
  | nil => rfl
  | cons a l ih => simp [ih]

theorem innerBytes_node : innerBytes (.node n keys children) =
    n.type.size + ((childOrder n keys children).map fun i => innerBytes (children i)).sum := by
  have hinner : Block.isInner (.node n.type) = true := rfl
  simp only [innerBytes, blocks, List.filter_cons_of_pos hinner,
    List.map_cons, List.sum_cons, List.filter_flatMap, sum_map_flatMap]
  rfl

theorem innerNodes_node : innerNodes (.node n keys children) =
    1 + ((childOrder n keys children).map fun i => innerNodes (children i)).sum := by
  have hinner : Block.isInner (.node n.type) = true := rfl
  simp only [innerNodes, blocks, List.filter_cons_of_pos hinner,
    List.length_cons, List.filter_flatMap, List.length_flatMap]
  omega

theorem length_leaves_node : (leaves (.node n keys children)).length =
    ((childOrder n keys children).map fun i => (leaves (children i)).length).sum := by
  rw [leaves, List.length_flatMap]

/-- The blocks are those of the inner nodes and those of the leaves. -/
theorem blockBytes_eq (x : ArtNode V) : blockBytes x =
    innerBytes x + ((leaves x).map fun l => (Block.leaf l.key.length).size).sum := by
  induction x with
  | null => rfl
  | leaf l => simp [blockBytes, innerBytes, leaves, Block.isInner]
  | node n keys children ih =>
      have hsplit : blockBytes (.node n keys children) = n.type.size +
          ((childOrder n keys children).map fun i => blockBytes (children i)).sum := by
        simp only [blockBytes, blocks, List.map_cons, List.sum_cons, sum_map_flatMap]
        rfl
      rw [hsplit, innerBytes_node, leaves, sum_map_flatMap]
      simp only [ih, List.sum_map_add, Nat.add_assoc]

/-- A sum over a list, of terms that stay below others by a constant. -/
theorem sum_add_le_sum {α : Type} {l : List α} {f g : α → Nat} {k : Nat}
    (h : ∀ a ∈ l, f a + k ≤ g a) : (l.map f).sum + k * l.length ≤ (l.map g).sum := by
  induction l with
  | nil => simp
  | cons a l ih =>
      have hl := ih fun b hb => h b (List.mem_cons_of_mem a hb)
      have ha := h a List.mem_cons_self
      simp only [List.map_cons, List.sum_cons, List.length_cons, Nat.mul_add, Nat.mul_one]
      omega

/-- What a node costs is paid by its children, at 56 bytes each but one. -/
theorem NodeType.size_le (t : NodeType) : t.size + 56 ≤ 56 * t.least := by
  cases t <;> decide

/-- **The inner nodes take at most 56 bytes a leaf**, less 56. -/
theorem WF.inner_bytes_le {path : List UInt8} {x : ArtNode V} (h : WF path x) :
    innerBytes x + 56 ≤ 56 * (leaves x).length := by
  induction h with
  | leaf hlen hpath => exact Nat.le_refl _
  | @node path n keys children c hl htwo hlen hstored hchild ih =>
      have hsum := sum_add_le_sum (l := childOrder n keys children) (k := 56)
        (f := fun i => innerBytes (children i)) (g := fun i => 56 * (leaves (children i)).length)
        fun i hi => by
          obtain ⟨b, hb⟩ := mem_childOrder.mp hi
          exact ih b i hb
      have hown := n.type.size_le
      have hleast := (hl.size_bounds htwo).1
      rw [degree] at hleast
      rw [List.sum_map_mul_left] at hsum
      rw [innerBytes_node, length_leaves_node]
      omega

/-- There are fewer inner nodes than leaves. -/
theorem WF.inner_nodes_lt {path : List UInt8} {x : ArtNode V} (h : WF path x) :
    innerNodes x + 1 ≤ (leaves x).length := by
  induction h with
  | leaf hlen hpath => exact Nat.le_refl _
  | @node path n keys children c hl htwo hlen hstored hchild ih =>
      have hsum := sum_add_le_sum (l := childOrder n keys children) (k := 1)
        (f := fun i => innerNodes (children i)) (g := fun i => (leaves (children i)).length)
        fun i hi => by
          obtain ⟨b, hb⟩ := mem_childOrder.mp hi
          exact ih b i hb
      rw [degree] at htwo
      rw [innerNodes_node, length_leaves_node]
      omega

end LightQuery
