import LightQuery.Dataflow.Message

/-!
# LightQuery.Dataflow.OpCode

`op_code_tree`: the operator code of an address.

The tree is walked along the address: below the root every node skips
`ignore_len` bytes and then the two bytes of the operator id that led to it.
-/

namespace LightQuery

/-- `op_name`. -/
inductive OpName where
  | getVertex | scanVertex | out | count | limit
  | whereEnter | whereOut | whereCount | whereIsGt | whereLeave
deriving DecidableEq, Repr

/-- `code_t`: the operator, the id of the operator downstream, the parameter. -/
structure Code where
  opName : OpName
  downstream : Int16
  params : String

/-- `op_code_tree::node`. -/
inductive OpNode where
  | mk (ignoreLen : Nat) (next : List OpNode) (data : Option Code)

/-- The `int16_t` in two bytes, low byte first. -/
def loadInt16 (lo hi : UInt8) : Int16 := (lo.toUInt16 ||| hi.toUInt16 <<< 8).toInt16

/-- The two bytes of an `int16_t`. -/
def storeInt16 (id : Int16) : List UInt8 := [id.toUInt16.toUInt8, (id.toUInt16 >>> 8).toUInt8]

mutual

/-- `get`, at byte `pos` of the address. -/
def OpNode.get (addr : Nat → UInt8) (pos : Nat) : OpNode → Except Fault (Option Code)
  | .mk _ [] data => .ok data
  | .mk ignoreLen (n :: ns) _ =>
      let pos := pos + 2 + ignoreLen
      let id := (loadInt16 (addr pos) (addr (pos + 1))).toInt
      -- a negative id is a huge index
      if id < 0 then .error .opCodeIndex else OpNode.getAt addr pos id.toNat (n :: ns)

/-- The walk goes on at `next[i]`. -/
def OpNode.getAt (addr : Nat → UInt8) (pos : Nat) : Nat → List OpNode → Except Fault (Option Code)
  | _, [] => .error .opCodeIndex
  | 0, n :: _ => OpNode.get addr pos n
  | i + 1, _ :: ns => OpNode.getAt addr pos i ns

end

/-- The code of OUT over "knows". -/
def codeOut : Code := ⟨.out, 1, "knows"⟩

/-- The code of LIMIT, which has no operator downstream. -/
def codeLimit : Code := ⟨.limit, -1, "5"⟩

/-- The tree of `dummy_insert_simple`. -/
def dummyInsertSimple : OpNode :=
  .mk 0 [.mk 4 [] (some codeOut), .mk 4 [] (some codeLimit)] none

/-- The simple tree holds OUT at operator id 0. -/
theorem get_of_id_zero {addr : Nat → UInt8} (h₂ : addr 2 = 0) (h₃ : addr 3 = 0) :
    dummyInsertSimple.get addr 0 = .ok (some codeOut) := by
  simp only [dummyInsertSimple, OpNode.get, Nat.zero_add, Nat.add_zero, h₂, h₃]
  rfl

/-- The simple tree holds LIMIT at operator id 1. -/
theorem get_of_id_one {addr : Nat → UInt8} (h₂ : addr 2 = 1) (h₃ : addr 3 = 0) :
    dummyInsertSimple.get addr 0 = .ok (some codeLimit) := by
  simp only [dummyInsertSimple, OpNode.get, Nat.zero_add, Nat.add_zero, h₂, h₃]
  rfl

end LightQuery
