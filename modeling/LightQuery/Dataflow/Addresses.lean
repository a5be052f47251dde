import LightQuery.Dataflow.Operators
import Mathlib.Tactic.IntervalCases

/-!
# LightQuery.Dataflow.Addresses

Operator addresses: the layout, the walk of `op_code_tree::get` along it, and
the addresses that operators send to.

The walk is given once more with reads that may leave the address (`getIn`),
which is `get` when the stray reads are lenient (`getIn_lenient`).
-/

namespace LightQuery

/-! ## operator ids -/

/-- An operator id is read back from its two bytes. -/
theorem loadInt16_storeInt16 (id : Int16) :
    loadInt16 id.toUInt16.toUInt8 (id.toUInt16 >>> 8).toUInt8 = id := by
  have hjoin : id.toUInt16.toUInt8.toUInt16 ||| (id.toUInt16 >>> 8).toUInt8.toUInt16 <<< 8 =
      id.toUInt16 := by
    rw [← UInt16.toBitVec_inj]
    refine BitVec.eq_of_getElem_eq fun i hi => ?_
    interval_cases i <;> simp [-UInt16.toUInt16_toUInt8]
  rw [loadInt16, hjoin, Int16.toInt16_toUInt16]

/-! ## the walk -/

mutual

/-- `get`, at byte `pos` of an address that is read with `past`. -/
def OpNode.getIn (past : Past) (addr : List UInt8) (pos : Nat) :
    OpNode → Except Fault (Option Code)
  | .mk _ [] data => .ok data
  | .mk ignoreLen (n :: ns) _ => do
      let pos := pos + 2 + ignoreLen
      let lo ← readByte past addr pos
      let hi ← readByte past addr (pos + 1)
      let id := (loadInt16 lo hi).toInt
      if id < 0 then .error .opCodeIndex else OpNode.getInAt past addr pos id.toNat (n :: ns)

/-- The walk goes on at `next[i]`. -/
def OpNode.getInAt (past : Past) (addr : List UInt8) (pos : Nat) :
    Nat → List OpNode → Except Fault (Option Code)
  | _, [] => .error .opCodeIndex
  | 0, n :: _ => OpNode.getIn past addr pos n
  | i + 1, _ :: ns => OpNode.getInAt past addr pos i ns

end

mutual

/-- With lenient reads the walk is `get`. -/
theorem OpNode.getIn_lenient (mem : Nat → UInt8) (addr : List UInt8) (pos : Nat) :
    (node : OpNode) → node.getIn (Past.lenient mem) addr pos =
      node.get (fun i => (addr[i]?).getD (mem i)) pos
  | .mk _ [] _ => by rw [getIn, get]
  | .mk _ (n :: ns) _ => by
      rw [getIn, get]
      simp only [readByte_lenient, bind, Except.bind]
      split
      · rfl
      · exact OpNode.getInAt_lenient mem addr _ _ (n :: ns)

theorem OpNode.getInAt_lenient (mem : Nat → UInt8) (addr : List UInt8) (pos i : Nat) :
    (ns : List OpNode) → getInAt (Past.lenient mem) addr pos i ns =
      getAt (fun i => (addr[i]?).getD (mem i)) pos i ns
  | [] => by rw [getInAt, getAt]
  | n :: ns => by
      cases i with
      | zero =>
          rw [getInAt, getAt]
          exact OpNode.getIn_lenient mem addr pos n
      | succ i =>
          rw [getInAt, getAt]
          exact OpNode.getInAt_lenient mem addr pos i ns

end

namespace OpNode

/-- `next[id]`. -/
def child? (id : Int16) : OpNode → Option OpNode
  | .mk _ next _ => if id.toInt < 0 then none else next[id.toInt.toNat]?

/-- The node that a path of operator ids leads to. -/
def nodeAt : OpNode → List Int16 → Option OpNode
  | node, [] => some node
  | node, id :: ids => (node.child? id).bind fun child => child.nodeAt ids

/-- The node skips `len` bytes, if it is not a leaf, and the nodes below it
that are not leaves skip four, a branch id. -/
inductive Ignores : (len : Nat) → OpNode → Prop
  | leaf {len : Nat} (ignoreLen : Nat) (data : Option Code) : Ignores len (.mk ignoreLen [] data)
  | inner {len : Nat} {next : List OpNode} (data : Option Code)
      (h : ∀ child ∈ next, Ignores 4 child) : Ignores len (.mk len next data)

theorem getInAt_eq (past : Past) (addr : List UInt8) (pos i : Nat) (ns : List OpNode) :
    getInAt past addr pos i ns =
      match ns[i]? with
      | some n => n.getIn past addr pos
      | none => .error .opCodeIndex := by
  induction ns generalizing i with
  | nil => simp [getInAt]
  | cons n ns ih =>
      cases i with
      | zero => simp [getInAt]
      | succ i => simp [getInAt, ih]

theorem Ignores.child {len : Nat} {node child : OpNode} (h : node.Ignores len) {id : Int16}
    (hchild : node.child? id = some child) : child.Ignores 4 := by
  cases h with
  | leaf ignoreLen data => simp [child?] at hchild
  | inner data h =>
      rw [child?] at hchild
      split at hchild
      · cases hchild
      · exact h child (List.mem_of_getElem? hchild)

/-- One round of the walk reads the operator id behind the bytes it skips. -/
theorem getIn_child {len : Nat} {node child : OpNode} (h : node.Ignores len) {id : Int16}
    (hchild : node.child? id = some child) (past : Past) {addr rest : List UInt8} {pos : Nat}
    (haddr : addr.drop (pos + 2 + len) = storeInt16 id ++ rest) :
    node.getIn past addr pos = child.getIn past addr (pos + 2 + len) := by
  have hlo : addr[pos + 2 + len]? = some id.toUInt16.toUInt8 := by
    have := congrArg (·[0]?) haddr
    simpa [storeInt16] using this
  have hhi : addr[pos + 2 + len + 1]? = some (id.toUInt16 >>> 8).toUInt8 := by
    have := congrArg (·[1]?) haddr
    simpa [storeInt16] using this
  cases h with
  | leaf ignoreLen data => simp [child?] at hchild
  | @inner _ next data h =>
      rw [child?] at hchild
      split at hchild
      · cases hchild
      · next hid =>
          cases next with
          | nil => simp at hchild
          | cons n ns =>
              rw [getIn]
              simp only [readByte, hlo, hhi, bind, Except.bind, loadInt16_storeInt16, if_neg hid,
                getInAt_eq, hchild]

end OpNode

/-! ## the layout -/

/-- A group id and a branch id: one level of nesting. -/
structure Scope where
  group : Int16
  branch : Vector UInt8 4

/-- The bytes of a scope. -/
def Scope.bytes (scope : Scope) : List UInt8 := storeInt16 scope.group ++ scope.branch.toList

@[simp] theorem Scope.length_bytes (scope : Scope) : scope.bytes.length = 6 := by
  simp [Scope.bytes, storeInt16]

/-- An address: the dataflow id, the scopes from the outermost in, the id of
the actor. -/
def layout (dataflow : Vector UInt8 2) (scopes : List Scope) (actor : Int16) : List UInt8 :=
  dataflow.toList ++ (scopes.flatMap Scope.bytes ++ storeInt16 actor)

/-- The length does not depend on the actor. -/
theorem length_layout (dataflow : Vector UInt8 2) (scopes : List Scope) (actor : Int16) :
    (layout dataflow scopes actor).length = 2 + (scopes.flatMap Scope.bytes).length + 2 := by
  simp [layout, storeInt16]
  omega

namespace OpNode

/-- The walk from a node on, when the address goes on with the scopes below
it. -/
theorem getIn_of_drop {len : Nat} {node parent : OpNode} (h : node.Ignores len) (past : Past)
    {addr : List UInt8} {pos : Nat} {scopes : List Scope} {actor : Int16} {ignoreLen : Nat}
    {data : Option Code}
    (haddr : addr.drop (pos + 2 + len) = scopes.flatMap Scope.bytes ++ storeInt16 actor)
    (hparent : node.nodeAt (scopes.map Scope.group) = some parent)
    (hleaf : parent.child? actor = some (.mk ignoreLen [] data)) :
    node.getIn past addr pos = .ok data := by
  induction scopes generalizing len node pos with
  | nil =>
      obtain rfl : node = parent := by simpa [nodeAt] using hparent
      have haddr : addr.drop (pos + 2 + len) = storeInt16 actor ++ [] := by simpa using haddr
      rw [getIn_child h hleaf past haddr, getIn]
  | cons scope scopes ih =>
      obtain ⟨child, hchild, hrest⟩ : ∃ child, node.child? scope.group = some child ∧
          child.nodeAt (scopes.map Scope.group) = some parent := by
        simpa [nodeAt, Option.bind_eq_some_iff] using hparent
      rw [List.flatMap_cons, Scope.bytes, List.append_assoc, List.append_assoc] at haddr
      rw [getIn_child h hchild past haddr]
      refine ih (h.child hchild) ?_ hrest
      rw [Nat.add_assoc, ← List.drop_drop, haddr]
      simp [storeInt16]

/-- The walk along an address whose bytes are at the start of a memory. -/
theorem get_of_getIn {node : OpNode} {addr : List UInt8} {data : Option Code} {mem : Nat → UInt8}
    (hmem : ∀ i (h : i < addr.length), mem i = addr[i])
    (h : ∀ past, node.getIn past addr 0 = .ok data) : node.get mem 0 = .ok data := by
  have hread : (fun i => (addr[i]?).getD (mem i)) = mem := by
    funext i
    by_cases hi : i < addr.length
    · simp [hi, hmem i hi]
    · simp [List.getElem?_eq_none (Nat.le_of_not_lt hi)]
  rw [← hread, ← getIn_lenient]
  exact h _

end OpNode

/-! ## addresses downstream -/

/-- No operator has the id -1. -/
theorem OpNode.child?_neg_one (node : OpNode) : node.child? (-1) = none := by
  cases node
  rfl

/-- The constructor of `operator_base` replaces the actor. -/
theorem OperatorBase.new_layout (dataflow : Vector UInt8 2) (scopes : List Scope) (actor : Int16)
    {d : Int16} (hd : d ≠ -1) (numUpstreams : UInt32) :
    OperatorBase.new (layout dataflow scopes actor) d (layout dataflow scopes actor).length
        numUpstreams =
      .ok ⟨layout dataflow scopes d, 0, numUpstreams, false⟩ := by
  have hlen := length_layout dataflow scopes actor
  have htake : (layout dataflow scopes actor).take ((layout dataflow scopes actor).length - 2) =
      dataflow.toList ++ scopes.flatMap Scope.bytes := by
    rw [hlen, layout, ← List.append_assoc]
    exact List.take_left' (by simp only [List.length_append, Vector.length_toList]; omega)
  rw [new, if_neg hd]
  simp only [Nat.min_self, Nat.sub_self, List.replicate_zero, List.append_nil]
  rw [if_neg (by omega), htake, layout, List.append_assoc]

/-- **Operator addresses resolve, and downstream addresses stay in scope.**
The walk along an address ends at the leaf and reads no byte behind it; what an
operator sends to its downstream has an address of the same scope, which
`process_mailbox` reads back and resolves to the leaf downstream. -/
theorem operator_addresses {root parent : OpNode} (hroot : root.Ignores 0)
    (dataflow : Vector UInt8 2) {scopes : List Scope} {actor : Int16} {ignoreLen : Nat}
    {data : Option Code}
    (hparent : root.nodeAt (scopes.map Scope.group) = some parent)
    (hleaf : parent.child? actor = some (.mk ignoreLen [] data)) :
    (∀ past, root.getIn past (layout dataflow scopes actor) 0 = .ok data) ∧
      (∀ mem : Nat → UInt8, (∀ i (h : i < (layout dataflow scopes actor).length),
          mem i = (layout dataflow scopes actor)[i]) → root.get mem 0 = .ok data) ∧
      ((layout dataflow scopes actor).length ≤ 18 →
        ∀ (d : Int16) (ignoreLen' : Nat) (data' : Option Code),
          parent.child? d = some (.mk ignoreLen' [] data') →
        ∀ (numUpstreams : UInt32) (payload : MessagePayload), ∃ base msg,
          OperatorBase.new (layout dataflow scopes actor) d (layout dataflow scopes actor).length
              numUpstreams = .ok base ∧
            base.message payload = .ok msg ∧
            msg.address.length = (layout dataflow scopes actor).length ∧
            msg.address.take (msg.address.length - 2) =
              (layout dataflow scopes actor).take (msg.address.length - 2) ∧
            root.get (fun i => msg.addrs (i + 1)) 0 = .ok data') := by
  have hdrop : ∀ id, (layout dataflow scopes id).drop (0 + 2 + 0) =
      scopes.flatMap Scope.bytes ++ storeInt16 id := fun id => by simp [layout]
  have hwalk : ∀ past, root.getIn past (layout dataflow scopes actor) 0 = .ok data := fun past =>
    OpNode.getIn_of_drop hroot past (hdrop actor) hparent hleaf
  refine ⟨hwalk, fun mem hmem => OpNode.get_of_getIn hmem hwalk, ?_⟩
  intro hlen d ignoreLen' data' hdown numUpstreams payload
  have hd : d ≠ -1 := by
    rintro rfl
    rw [OpNode.child?_neg_one] at hdown
    cases hdown
  have hlen' : (layout dataflow scopes d).length = (layout dataflow scopes actor).length := by
    rw [length_layout, length_layout]
  have hfits : (layout dataflow scopes d).length < maxAddrLen := by
    rw [maxAddrLen]
    omega
  have haddr : TagMessage.address
      ⟨.user, TagMessage.writeAddrs (layout dataflow scopes d), some payload⟩ =
      layout dataflow scopes d := TagMessage.address_writeAddrs (by omega)
  refine ⟨_, _, OperatorBase.new_layout dataflow scopes actor hd numUpstreams, if_pos hfits,
    by rw [haddr, hlen'], ?_, ?_⟩
  · rw [haddr, length_layout]
    simp only [layout, ← List.append_assoc]
    rw [List.take_left' (by simp), List.take_left' (by simp)]
  · refine OpNode.get_of_getIn (fun i hi => ?_) fun past =>
      OpNode.getIn_of_drop hroot past (hdrop d) hparent hdown
    simp [TagMessage.writeAddrs, hi]

/-- OUT and LIMIT inside a group: the hypotheses of `operator_addresses` can be
met. -/
theorem operator_addresses_nested : ∃ base msg,
    OperatorBase.new (layout #v[9, 9] [⟨1, #v[5, 6, 7, 8]⟩] 0) 1 10 = .ok base ∧
      base.message ⟨.eos, []⟩ = .ok msg ∧
      OpNode.get (fun i => msg.addrs (i + 1)) 0
          (.mk 0 [.mk 4 [] none, .mk 4 [.mk 4 [] (some codeOut), .mk 4 [] (some codeLimit)] none]
            none) =
        .ok (some codeLimit) := by
  have hgroup : OpNode.Ignores 4
      (.mk 4 [.mk 4 [] (some codeOut), .mk 4 [] (some codeLimit)] none) :=
    .inner none (by simp [OpNode.Ignores.leaf])
  have hroot : OpNode.Ignores 0
      (.mk 0 [.mk 4 [] none, .mk 4 [.mk 4 [] (some codeOut), .mk 4 [] (some codeLimit)] none]
        none) := .inner none (by simp [OpNode.Ignores.leaf, hgroup])
  have hparent : OpNode.nodeAt
      (.mk 0 [.mk 4 [] none, .mk 4 [.mk 4 [] (some codeOut), .mk 4 [] (some codeLimit)] none] none)
      ([(⟨1, #v[5, 6, 7, 8]⟩ : Scope)].map Scope.group) =
      some (.mk 4 [.mk 4 [] (some codeOut), .mk 4 [] (some codeLimit)] none) := rfl
  have hleaf : OpNode.child? 0 (.mk 4 [.mk 4 [] (some codeOut), .mk 4 [] (some codeLimit)] none) =
      some (.mk 4 [] (some codeOut)) := rfl
  obtain ⟨-, -, hdown⟩ := operator_addresses hroot #v[9, 9] hparent hleaf
  obtain ⟨base, msg, hbase, hmsg, -, -, hget⟩ :=
    hdown (by decide) 1 4 (some codeLimit) rfl shardNumber ⟨.eos, []⟩
  exact ⟨base, msg, hbase, hmsg, hget⟩

end LightQuery
