import LightQuery.Lib.CArray
import LightQuery.Memory
import Mathlib.Algebra.GroupWithZero.Nat

/-!
# LightQuery.Art.Node

The nodes of the adaptive radix tree and the routines on a single node: the
four layouts, `find_child`, the `add_child` family with its growth at 4, 16
and 48 children, and the `remove_child` family with its shrinking at 3, 12 and
37 and the collapse of a NODE4 that is left with one child.

A pointer `art_node*` is `null`, a tagged leaf or an inner node.  The arrays
`keys` and `children` of the four node structs are functions of the index (see
`Lib.CArray`), and a routine that writes `*ref` returns the new `*ref`.
-/

namespace LightQuery

open CArray

/-! ## data -/

/-- `MAX_PREFIX_LEN`. -/
def maxPrefixLen : Nat := 10

/-- `art_leaf`.  `key` is the allocated buffer; `art_disable` shortens
`key_len` in place and leaves the buffer as it is. -/
structure ArtLeaf (V : Type) where
  value : Option V
  keyLen : Nat
  key : List UInt8

/-- `n->type`. -/
inductive NodeType where
  | node4 | node16 | node48 | node256
deriving DecidableEq, Repr

/-- Length of the `children` array. -/
def NodeType.capacity : NodeType → Nat
  | .node4 => 4
  | .node16 => 16
  | .node48 => 48
  | .node256 => 256

/-- `art_node`, the header shared by the four node structs. -/
structure Header where
  type : NodeType
  numChildren : UInt8
  partialLen : Nat
  partialBytes : Nat → UInt8

/-- What an `art_node*` points to. -/
inductive ArtNode (V : Type) where
  | null
  | leaf (l : ArtLeaf V)
  | node (n : Header) (keys : Nat → UInt8) (children : Nat → ArtNode V)

/-- The build of `add_child16`: the SSE2 one compares signed bytes. -/
inductive Build where
  | sse2 | portable
deriving DecidableEq, Repr

variable {V : Type}

/-- `!n`. -/
def ArtNode.isNull : ArtNode V → Bool
  | .null => true
  | _ => false

/-- The bytes of a leaf's key, `key[0 .. key_len)`. -/
def ArtLeaf.bytes (l : ArtLeaf V) : List UInt8 := l.key.take l.keyLen

/-- The bytes of the compressed path that the node stores. -/
def Header.stored (n : Header) : List UInt8 :=
  (List.range (min maxPrefixLen n.partialLen)).map n.partialBytes

/-- `alloc_node`. -/
def allocNode (type : NodeType) : Header := ⟨type, 0, 0, fun _ => 0⟩

/-- `memcpy` of bytes already read into `partial`. -/
def setBytes (dst : Nat → UInt8) (src : List UInt8) : Nat → UInt8 :=
  fun i => (src[i]?).getD (dst i)

/-! ## the slots of a node -/

/-- `find_child`: the slot that holds the child for byte `c`.  The NODE16 case
takes the lowest set bit of the comparison mask, cut to `num_children` bits. -/
def findChild (n : Header) (keys : Nat → UInt8) (children : Nat → ArtNode V) (c : UInt8) :
    Option Nat :=
  match n.type with
  | .node4 => (List.range n.numChildren.toNat).find? fun i => keys i == c
  | .node16 => (List.range 16).find? fun i => keys i == c && decide (i < n.numChildren.toNat)
  | .node48 =>
      let i := keys c.toNat
      if i ≠ 0 then some (i.toNat - 1) else none
  | .node256 => if (children c.toNat).isNull then none else some c.toNat

/-- The slots that a loop over the children visits, in its order. -/
def childOrder (n : Header) (keys : Nat → UInt8) (children : Nat → ArtNode V) : List Nat :=
  match n.type with
  | .node4 | .node16 => List.range n.numChildren.toNat
  | .node48 => ((List.range 256).filter fun i => keys i != 0).map fun i => (keys i).toNat - 1
  | .node256 => (List.range 256).filter fun i => !(children i).isNull

/-- `minimum`.  The scans of NODE48 and NODE256 are unbounded in the source and
stop at the first child. -/
def minimum : ArtNode V → Option (ArtLeaf V)
  | .null => none
  | .leaf l => some l
  | .node n keys children =>
      match n.type with
      | .node4 | .node16 => minimum (children 0)
      | .node48 => minimum (children ((keys (firstIndex 256 fun i => keys i != 0)).toNat - 1))
      | .node256 => minimum (children (firstIndex 256 fun i => !(children i).isNull))

/-- The leaves under a pointer, in the order of the loops over the children. -/
def leaves : ArtNode V → List (ArtLeaf V)
  | .null => []
  | .leaf l => [l]
  | .node n keys children => (childOrder n keys children).flatMap fun i => leaves (children i)

/-- `destroy_node`: how many leaves are freed. -/
def destroyNode : ArtNode V → Nat
  | .null => 0
  | .leaf _ => 1
  | .node n keys children =>
      ((childOrder n keys children).map fun i => destroyNode (children i)).sum

/-! ## add_child -/

/-- `copy_header` into a freshly allocated node. -/
def copyHeader (type : NodeType) (src : Header) : Header :=
  { allocNode type with
    numChildren := src.numChildren
    partialLen := src.partialLen
    partialBytes := memmove (fun _ => 0) 0 src.partialBytes 0 (min maxPrefixLen src.partialLen) }

/-- `add_child256`. -/
def addChild256 (n : Header) (keys : Nat → UInt8) (children : Nat → ArtNode V) (c : UInt8)
    (child : ArtNode V) : ArtNode V :=
  .node { n with numChildren := n.numChildren + 1 } keys (Function.update children c.toNat child)

/-- The children of the NODE256 that replaces a full NODE48. -/
def grow256 (keys : Nat → UInt8) (children : Nat → ArtNode V) : Nat → ArtNode V :=
  fun i => if i < 256 ∧ keys i ≠ 0 then children ((keys i).toNat - 1) else .null

/-- `add_child48`.  The scan for a free slot is unbounded in the source; a
NODE48 with fewer than 48 children has one. -/
def addChild48 (n : Header) (keys : Nat → UInt8) (children : Nat → ArtNode V) (c : UInt8)
    (child : ArtNode V) : ArtNode V :=
  if n.numChildren < 48 then
    let pos := firstIndex 48 fun i => (children i).isNull
    .node { n with numChildren := n.numChildren + 1 }
      (Function.update keys c.toNat (UInt8.ofNat (pos + 1))) (Function.update children pos child)
  else
    addChild256 (copyHeader .node256 n) (fun _ => 0) (grow256 keys children) c child

/-- `_mm_cmplt_epi8` compares signed bytes, the portable loop unsigned ones. -/
def byteLt (build : Build) (c k : UInt8) : Bool :=
  match build with
  | .sse2 => decide (c.toInt8 < k.toInt8)
  | .portable => decide (c < k)

/-- Make room at `idx` and store the child: the tail of `add_child4` and of
`add_child16`. -/
def insertChild (n : Header) (keys : Nat → UInt8) (children : Nat → ArtNode V) (idx : Nat)
    (c : UInt8) (child : ArtNode V) : ArtNode V :=
  .node { n with numChildren := n.numChildren + 1 }
    (insertAt keys idx c n.numChildren.toNat) (insertAt children idx child n.numChildren.toNat)

/-- The key map of the NODE48 that replaces a full NODE16. -/
def grow48 (n : Header) (keys : Nat → UInt8) : Nat → UInt8 :=
  (List.range n.numChildren.toNat).foldl
    (fun ks i => Function.update ks (keys i).toNat (UInt8.ofNat (i + 1))) fun _ => 0

/-- `add_child16`.  The index is the lowest set bit of the mask of children
whose key is above `c`, or `num_children` when there is none. -/
def addChild16 (build : Build) (n : Header) (keys : Nat → UInt8) (children : Nat → ArtNode V)
    (c : UInt8) (child : ArtNode V) : ArtNode V :=
  if n.numChildren < 16 then
    let idx := firstIndex n.numChildren.toNat fun i => byteLt build c (keys i)
    insertChild n keys children idx c child
  else
    addChild48 (copyHeader .node48 n) (grow48 n keys)
      (memmove (fun _ => .null) 0 children 0 n.numChildren.toNat) c child

/-- `add_child4`. -/
def addChild4 (build : Build) (n : Header) (keys : Nat → UInt8) (children : Nat → ArtNode V)
    (c : UInt8) (child : ArtNode V) : ArtNode V :=
  if n.numChildren < 4 then
    let idx := firstIndex n.numChildren.toNat fun i => decide (c < keys i)
    insertChild n keys children idx c child
  else
    addChild16 build (copyHeader .node16 n) (memmove (fun _ => 0) 0 keys 0 n.numChildren.toNat)
      (memmove (fun _ => .null) 0 children 0 n.numChildren.toNat) c child

/-- `add_child`. -/
def addChild (build : Build) (n : Header) (keys : Nat → UInt8) (children : Nat → ArtNode V)
    (c : UInt8) (child : ArtNode V) : ArtNode V :=
  match n.type with
  | .node4 => addChild4 build n keys children c child
  | .node16 => addChild16 build n keys children c child
  | .node48 => addChild48 n keys children c child
  | .node256 => addChild256 n keys children c child

/-! ## remove_child -/

/-- `remove_child256`. -/
def removeChild256 (n : Header) (keys : Nat → UInt8) (children : Nat → ArtNode V) (c : UInt8) :
    ArtNode V :=
  let children := Function.update children c.toNat .null
  let n := { n with numChildren := n.numChildren - 1 }
  if n.numChildren = 37 then
    -- the `pos`-th non-NULL child moves to slot `pos`
    let kept := (List.range 256).filter fun i => !(children i).isNull
    .node (copyHeader .node48 n)
      (kept.zipIdx.foldl (fun ks p => Function.update ks p.1 (UInt8.ofNat (p.2 + 1))) fun _ => 0)
      (fun pos => (kept[pos]?).elim .null children)
  else
    .node n keys children

/-- `remove_child48`. -/
def removeChild48 (n : Header) (keys : Nat → UInt8) (children : Nat → ArtNode V) (c : UInt8) :
    ArtNode V :=
  let pos := (keys c.toNat).toNat
  let keys := Function.update keys c.toNat 0
  let children := Function.update children (pos - 1) .null
  let n := { n with numChildren := n.numChildren - 1 }
  if n.numChildren = 12 then
    let kept := (List.range 256).filter fun i => keys i != 0
    .node (copyHeader .node16 n)
      (fun child => (kept[child]?).elim 0 UInt8.ofNat)
      (fun child => (kept[child]?).elim .null fun i => children ((keys i).toNat - 1))
  else
    .node n keys children

/-- `remove_child16`; `pos` is `l - n->children`. -/
def removeChild16 (n : Header) (keys : Nat → UInt8) (children : Nat → ArtNode V) (pos : Nat) :
    ArtNode V :=
  let keys := eraseAt keys pos n.numChildren.toNat
  let children := eraseAt children pos n.numChildren.toNat
  let n := { n with numChildren := n.numChildren - 1 }
  if n.numChildren = 3 then
    .node (copyHeader .node4 n) (memmove (fun _ => 0) 0 keys 0 4)
      (memmove (fun _ => .null) 0 children 0 4)
  else
    .node n keys children

/-- The prefix concatenation of `remove_child4`: the header of an only child
takes over the path of its NODE4 parent, whose last key is `k`. -/
def mergeHeader (n : Header) (k : UInt8) (child : Header) : Header :=
  let len := n.partialLen
  let buf := if len < maxPrefixLen then Function.update n.partialBytes len k else n.partialBytes
  let len := if len < maxPrefixLen then len + 1 else len
  let sub := if len < maxPrefixLen then min child.partialLen (maxPrefixLen - len) else 0
  let buf := memmove buf len child.partialBytes 0 sub
  { child with
    partialBytes := memmove child.partialBytes 0 buf 0 (min (len + sub) maxPrefixLen)
    partialLen := child.partialLen + n.partialLen + 1 }

/-- `remove_child4`. -/
def removeChild4 (n : Header) (keys : Nat → UInt8) (children : Nat → ArtNode V) (pos : Nat) :
    ArtNode V :=
  let keys := eraseAt keys pos n.numChildren.toNat
  let children := eraseAt children pos n.numChildren.toNat
  let n := { n with numChildren := n.numChildren - 1 }
  if n.numChildren = 1 then
    match children 0 with
    | .node m ks ch => .node (mergeHeader n (keys 0) m) ks ch
    | child => child
  else
    .node n keys children

/-- `remove_child`; slot `pos` holds the child for byte `c`. -/
def removeChild (n : Header) (keys : Nat → UInt8) (children : Nat → ArtNode V) (c : UInt8)
    (pos : Nat) : ArtNode V :=
  match n.type with
  | .node4 => removeChild4 n keys children pos
  | .node16 => removeChild16 n keys children pos
  | .node48 => removeChild48 n keys children c
  | .node256 => removeChild256 n keys children c

end LightQuery
