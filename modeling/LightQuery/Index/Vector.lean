import LightQuery.Index.Canonical
import LightQuery.Ledger.Session
import LightQuery.Lib.Lanes
import Mathlib.Data.List.Find

/-!
# LightQuery.Index.Vector

The search of a NODE16, as both builds do it.

`find_child` and `add_child16` compare a byte with all sixteen keys at once and
take the lowest set bit of the result, cut to `num_children` bits: with SSE2
instructions or, on other machines, with a loop that sets the bits one by one.
`Art.Node` has a linear search in their place; here the words of bits are
modelled, and shown to find the same slot in every NODE16 of every session.
-/

namespace LightQuery

open CArray Heap Lanes

variable {V : Type} {n : Header} {keys : Nat → UInt8} {children : Nat → ArtNode V}

/-- `bitfield` of `find_child`. -/
def equalBits (build : Build) (n : Header) (keys : Nat → UInt8) (c : UInt8) : BitVec 32 :=
  (match build with
    | .sse2 => movemask (cmpeq (set1 c) keys)
    | .portable => collect 32 16 fun i => keys i == c) &&& lowMask 32 n.numChildren.toNat

/-- The NODE16 case of `find_child`. -/
def findChild16 (build : Build) (n : Header) (keys : Nat → UInt8) (c : UInt8) : Option Nat :=
  scan (equalBits build n keys c)

/-- `bitfield` of `add_child16`. -/
def aboveBits (build : Build) (n : Header) (keys : Nat → UInt8) (c : UInt8) : BitVec 32 :=
  (match build with
    | .sse2 => movemask (cmplt (set1 c) keys)
    | .portable => collect 32 16 fun i => decide (c < keys i)) &&& lowMask 32 n.numChildren.toNat

/-- `add_child16`, with `idx` from the word of bits; without a set bit nothing is
moved. -/
def addChild16Bits (build : Build) (n : Header) (keys : Nat → UInt8) (children : Nat → ArtNode V)
    (c : UInt8) (child : ArtNode V) : ArtNode V :=
  if n.numChildren < 16 then
    match scan (aboveBits build n keys c) with
    | some idx => insertChild n keys children idx c child
    | none =>
        .node { n with numChildren := n.numChildren + 1 }
          (Function.update keys n.numChildren.toNat c)
          (Function.update children n.numChildren.toNat child)
  else addChild16 build n keys children c child

/-- The lanes of a comparison that are set. -/
theorem getLsbD_movemask {v : Nat → UInt8} {p : Nat → Bool}
    (hv : ∀ i, v i = if p i = true then 0xFF else 0) {i : Nat} (hi : i < 32) :
    (movemask v).getLsbD i = (decide (i < 16) && p i) := by
  rw [movemask, getLsbD_collect hi, hv]
  cases p i <;> rfl

/-- A search of an array that stops at the elements in use. -/
theorem find?_range_of_le {m k : Nat} {p : Nat → Bool} (h : m ≤ k) :
    (List.range m).find? p = (List.range k).find? fun i => p i && decide (i < m) := by
  obtain ⟨d, rfl⟩ := Nat.exists_eq_add_of_le h
  rw [List.range_add, List.find?_append]
  have hfront : ((List.range m).find? fun i => p i && decide (i < m)) = (List.range m).find? p :=
    List.find?_congr fun i hi => by simp [List.mem_range.mp hi]
  have hback : ((List.range d).map (m + ·)).find? (fun i => p i && decide (i < m)) = none := by
    simp
  rw [hfront, hback, Option.or_none]

theorem memmove_zero {α : Type} (dst src : Nat → α) (dOff sOff : Nat) :
    memmove dst dOff src sOff 0 = dst := by
  funext i
  rw [memmove, if_neg (by omega)]

section Bits

variable (hm : n.numChildren.toNat ≤ 16)
include hm

/-- The bits of children that do not exist are cut off. -/
theorem getLsbD_cut {x : BitVec 32} {p : Nat → Bool} {i : Nat} (hi : i < 32)
    (hx : x.getLsbD i = (decide (i < 16) && p i)) :
    (x &&& lowMask 32 n.numChildren.toNat).getLsbD i =
      (decide (i < n.numChildren.toNat) && p i) := by
  rw [BitVec.getLsbD_and, hx, getLsbD_lowMask hi]
  by_cases h : i < n.numChildren.toNat
  · simp [h, show i < 16 by omega]
  · simp [h]

theorem scan_equalBits (build : Build) (c : UInt8) : findChild16 build n keys c =
    (List.range n.numChildren.toNat).find? fun i => keys i == c := by
  refine scan_eq (by omega) fun i hi => getLsbD_cut hm (p := fun j => keys j == c) hi ?_
  cases build with
  | sse2 =>
      refine getLsbD_movemask (p := fun j => keys j == c) (fun j => ?_) hi
      exact if_congr (by rw [set1, beq_iff_eq, eq_comm]) rfl rfl
  | portable => exact getLsbD_collect hi

theorem scan_aboveBits (build : Build) (c : UInt8) : scan (aboveBits build n keys c) =
    (List.range n.numChildren.toNat).find? fun i => byteLt build c (keys i) := by
  refine scan_eq (by omega) fun i hi =>
    getLsbD_cut hm (p := fun j => byteLt build c (keys j)) hi ?_
  cases build with
  | sse2 =>
      refine getLsbD_movemask (p := fun j => byteLt .sse2 c (keys j)) (fun j => ?_) hi
      exact if_congr (by rw [set1, byteLt, decide_eq_true_eq]) rfl rfl
  | portable => exact getLsbD_collect hi

/-- Both builds find the child that the linear search finds. -/
theorem findChild16_eq (ht : n.type = .node16) (build : Build) (c : UInt8) :
    findChild16 build n keys c = findChild n keys children c := by
  rw [scan_equalBits hm, findChild, ht]
  exact find?_range_of_le hm

/-- Both builds store the child where the linear search says. -/
theorem addChild16Bits_eq (build : Build) (c : UInt8) (child : ArtNode V) :
    addChild16Bits build n keys children c child = addChild16 build n keys children c child := by
  unfold addChild16Bits
  split
  · next h16 =>
      rw [scan_aboveBits hm, addChild16, if_pos h16, firstIndex]
      cases (List.range n.numChildren.toNat).find? fun i => byteLt build c (keys i) with
      | some idx => rfl
      | none =>
          -- behind the last child nothing is moved
          simp only [Option.getD_none, insertChild, insertAt, Nat.sub_self, memmove_zero]
  · rfl

end Bits

/-- **The vector search agrees with the linear one.**  In every NODE16 of every
session both builds find the slot of a byte that `find_child` of the model
finds, and store a new child where `add_child16` of the model does. -/
theorem vector_search_of_session {build : Build} {calls : List (IndexCall V)} {t : ArtTree V}
    {as : List (Action Block)} {leaked : List Block} (h : Session build calls t as leaked)
    {depth : Nat} (hnode : Below t.root depth (.node n keys children)) (ht : n.type = .node16)
    (build' : Build) (c : UInt8) :
    findChild16 build' n keys c = findChild n keys children c ∧
      ∀ child, addChild16Bits build' n keys children c child =
        addChild16 build' n keys children c child := by
  have hinv := h.nodeInvariant hnode
  have hle : n.numChildren.toNat ≤ 16 := by
    have hcap := hinv.size.2
    rw [degree_node16 ht, ht] at hcap
    exact hcap
  exact ⟨findChild16_eq hle ht build' c, addChild16Bits_eq hle build' c⟩

/-- Five keys make a NODE16: the hypotheses of `vector_search_of_session` can be
met, by a tree of one build and the search of the other. -/
theorem vector_search_of_session_five_keys : ∃ n keys children,
    (replay (fun _ => 7) .sse2 fiveKeys).root = .node n keys children ∧
      findChild16 .portable n keys 200 = findChild n keys children 200 := by
  obtain ⟨as, leaked, hsession⟩ := Session.of_run (run_fiveKeys .sse2)
  have htype : ownBlock (replay (fun _ => 7) .sse2 fiveKeys).root = [.node .node16] := by
    decide +kernel
  cases hroot : (replay (fun _ => 7) .sse2 fiveKeys).root with
  | null => rw [hroot] at htype; cases htype
  | leaf l => rw [hroot] at htype; cases htype
  | node n keys children =>
      rw [hroot] at htype
      have ht : n.type = .node16 := Block.node.inj (List.cons.inj htype).1
      have hnode : Below (replay (fun _ => 7) .sse2 fiveKeys).root 0 (.node n keys children) :=
        hroot ▸ Below.self
      exact ⟨n, keys, children, rfl,
        (vector_search_of_session hsession hnode ht .portable 200).1⟩

end LightQuery
