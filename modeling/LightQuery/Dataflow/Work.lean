import LightQuery.Dataflow.Operators

/-!
# LightQuery.Dataflow.Work

What `do_work` does, said without its loops.

`batch` cuts the results of OUT into full payloads and a rest; `do_work` of OUT
sends the former and keeps the latter.  LIMIT prints the nodes up to its limit.
The operators of the simple operator tree are `outAt` and `limitAt`.
-/

namespace LightQuery

/-! ## OUT -/

/-- The full payloads that a list of nodes fills, after what is left from
before, and what is left then. -/
def batch (left : List LightNode) : List LightNode → List (List LightNode) × List LightNode
  | [] => ([], left)
  | n :: ns =>
      if (left ++ [n]).length ≥ maxPayloadCapacity then
        ((left ++ [n]) :: (batch [] ns).1, (batch [] ns).2)
      else batch (left ++ [n]) ns

/-- Batching loses nothing and keeps the order. -/
theorem flatten_batch (left ns : List LightNode) :
    (batch left ns).1.flatten ++ (batch left ns).2 = left ++ ns := by
  induction ns generalizing left with
  | nil => simp [batch]
  | cons n ns ih =>
      rw [batch]
      split
      · simp [ih []]
      · simp [ih (left ++ [n])]

/-- A payload is filled by a node. -/
theorem length_batch_le (left ns : List LightNode) : (batch left ns).1.length ≤ ns.length := by
  induction ns generalizing left with
  | nil => simp [batch]
  | cons n ns ih =>
      rw [batch]
      split
      · simpa using ih []
      · exact (ih (left ++ [n])).trans (by simp)

theorem batch_append (left ns ms : List LightNode) :
    batch left (ns ++ ms) =
      ((batch left ns).1 ++ (batch (batch left ns).2 ms).1, (batch (batch left ns).2 ms).2) := by
  induction ns generalizing left with
  | nil => simp [batch]
  | cons n ns ih =>
      rw [List.cons_append, batch, batch]
      split
      · simp [ih []]
      · exact ih (left ++ [n])

namespace OutOp

/-- The operator with these nodes in its payload. -/
def withLeft (op : OutOp) (left : List LightNode) : OutOp :=
  { op with outPayload := ⟨.userData, left⟩ }

/-- A message with nodes for the operator downstream. -/
def dataMessage (op : OutOp) (ns : List LightNode) : TagMessage :=
  ⟨.user, TagMessage.writeAddrs op.dsAddr, some ⟨.userData, ns⟩⟩

/-- The EOS message for the operator downstream. -/
def eosMessage (op : OutOp) : TagMessage :=
  ⟨.user, TagMessage.writeAddrs op.dsAddr, some ⟨.eos, []⟩⟩

variable {op : OutOp} (hds : op.dsAddr.length < maxAddrLen)
include hds

theorem emplaceBack_eq (left : List LightNode) (sent : List TagMessage) (n : LightNode) :
    emplaceBack (op.withLeft left, sent) n =
      .ok (op.withLeft (batch left [n]).2, sent ++ (batch left [n]).1.map op.dataMessage) := by
  by_cases h : maxPayloadCapacity ≤ left.length + 1
  · simp [emplaceBack, batch, withLeft, h, flushOutPayload, OperatorBase.message, hds, dataMessage,
      bind, Except.bind]
  · simp [emplaceBack, batch, withLeft, h]

theorem foldlM_emplaceBack (left : List LightNode) (sent : List TagMessage) (ns : List LightNode) :
    ns.foldlM emplaceBack (op.withLeft left, sent) =
      .ok (op.withLeft (batch left ns).2, sent ++ (batch left ns).1.map op.dataMessage) := by
  induction ns generalizing left sent with
  | nil => simp [batch, pure, Except.pure]
  | cons n ns ih =>
      rw [List.foldlM_cons, emplaceBack_eq hds]
      have := batch_append left [n] ns
      rw [List.singleton_append] at this
      simp [bind, Except.bind, ih, this]

/-- **OUT on nodes**: the full payloads are sent, the rest is kept. -/
theorem doWork_userData (getOutV : GetOutV) (left ns : List LightNode) :
    (op.withLeft left).doWork getOutV ⟨.userData, ns⟩ =
      .ok ⟨op.withLeft (batch left (ns.flatMap (outNodes getOutV op))).2,
        (batch left (ns.flatMap (outNodes getOutV op))).1.map op.dataMessage, [], .available⟩ := by
  have key : ∀ left sent,
      ns.foldlM (fun acc n => (outNodes getOutV acc.1 n).foldlM emplaceBack acc)
        (op.withLeft left, sent) =
      (Except.ok (op.withLeft (batch left (ns.flatMap (outNodes getOutV op))).2,
        sent ++ (batch left (ns.flatMap (outNodes getOutV op))).1.map op.dataMessage) :
        Except Fault (OutOp × List TagMessage)) := by
    induction ns with
    | nil => intro left sent; simp [batch, pure, Except.pure]
    | cons n ns ih =>
        intro left sent
        have hout : outNodes getOutV (op.withLeft left) n = outNodes getOutV op n := rfl
        rw [List.foldlM_cons, hout, foldlM_emplaceBack hds]
        simp [bind, Except.bind, ih, batch_append]
  simp [doWork, key, bind, Except.bind]

/-- **OUT on the last EOS**: the rest is sent, then an EOS, and the operator
asks to be stopped. -/
theorem doWork_eos (getOutV : GetOutV) (left ns : List LightNode)
    (h : op.numRcvEos + 1 = op.numUpstreams) :
    (op.withLeft left).doWork getOutV ⟨.eos, ns⟩ =
      .ok ⟨{ op with numRcvEos := op.numRcvEos + 1 }.withLeft [],
        [op.dataMessage left, op.eosMessage], [], .cancelMe⟩ := by
  simp [doWork, withLeft, h, flushOutPayload, OperatorBase.message, hds, dataMessage, eosMessage,
    bind, Except.bind]

end OutOp

/-! ## LIMIT -/

namespace LimitOp

/-- The operator with this many nodes printed. -/
def withCnt (op : LimitOp) (cnt : UInt32) : LimitOp := { op with curCnt := cnt }

/-- Printing only counts. -/
theorem exists_withCnt (op : LimitOp) (ns : List LightNode) :
    ∃ cnt, (op.printNodes ns).1 = op.withCnt cnt := by
  induction ns generalizing op with
  | nil => exact ⟨op.curCnt, rfl⟩
  | cons n ns ih =>
      rw [printNodes]
      split
      · exact ⟨op.curCnt + 1, rfl⟩
      · obtain ⟨cnt, h⟩ := ih { op with curCnt := op.curCnt + 1 }
        exact ⟨cnt, by simp [h, withCnt]⟩

/-- **LIMIT on nodes**: it prints them up to the limit, and asks to be stopped
when it is reached. -/
theorem printNodes_eq (op : LimitOp) {cnt : Nat} (hcnt : cnt < op.limitCnt.toNat)
    (ns : List LightNode) :
    (op.withCnt (.ofNat cnt)).printNodes ns =
      if cnt + ns.length < op.limitCnt.toNat then
        (op.withCnt (.ofNat (cnt + ns.length)), ns.map .node, .available)
      else (op.withCnt op.limitCnt, (ns.take (op.limitCnt.toNat - cnt)).map .node, .cancelMe) := by
  induction ns generalizing cnt with
  | nil => simp [printNodes, hcnt]
  | cons n ns ih =>
      have hsize : op.limitCnt.toNat < UInt32.size := op.limitCnt.toNat_lt_size
      have hsucc : UInt32.ofNat cnt + 1 = UInt32.ofNat (cnt + 1) := by
        simp
      have hge : UInt32.ofNat (cnt + 1) ≥ op.limitCnt ↔ op.limitCnt.toNat ≤ cnt + 1 := by
        rw [ge_iff_le, UInt32.le_iff_toNat_le, UInt32.toNat_ofNat_of_lt' (by omega)]
      have hlen : (n :: ns).length = ns.length + 1 := rfl
      rw [printNodes]
      simp only [withCnt, hsucc, hge]
      by_cases hlast : op.limitCnt.toNat ≤ cnt + 1
      · have hone : op.limitCnt.toNat - cnt = 1 := by omega
        have hfull : ¬ cnt + (n :: ns).length < op.limitCnt.toNat := by omega
        have hcount : UInt32.ofNat (cnt + 1) = op.limitCnt := by
          rw [show cnt + 1 = op.limitCnt.toNat by omega, UInt32.ofNat_toNat]
        rw [if_pos hlast, if_neg hfull, hone, hcount]
        rfl
      · have hmore : op.limitCnt.toNat - cnt = op.limitCnt.toNat - (cnt + 1) + 1 := by omega
        have := ih (show cnt + 1 < op.limitCnt.toNat by omega)
        simp only [withCnt] at this
        rw [if_neg hlast, this, hlen, hmore, List.take_succ_cons, Nat.add_right_comm,
          ← Nat.add_assoc]
        split <;> simp

theorem curCnt_lt (op : LimitOp) {cnt : Nat} (hcnt : cnt < op.limitCnt.toNat) :
    ¬ (op.withCnt (.ofNat cnt)).curCnt ≥ (op.withCnt (.ofNat cnt)).limitCnt := by
  have hsize : op.limitCnt.toNat < UInt32.size := op.limitCnt.toNat_lt_size
  have hcur : (op.withCnt (.ofNat cnt)).curCnt = UInt32.ofNat cnt := rfl
  have hlimit : (op.withCnt (.ofNat cnt)).limitCnt = op.limitCnt := rfl
  rw [hcur, hlimit, ge_iff_le, UInt32.le_iff_toNat_le, UInt32.toNat_ofNat_of_lt' (by omega)]
  omega

theorem doWork_userData (op : LimitOp) {cnt : Nat} (hcnt : cnt < op.limitCnt.toNat)
    (ns : List LightNode) :
    (op.withCnt (.ofNat cnt)).doWork ⟨.userData, ns⟩ =
      if cnt + ns.length < op.limitCnt.toNat then
        ⟨op.withCnt (.ofNat (cnt + ns.length)), [], ns.map .node, .available⟩
      else ⟨op.withCnt op.limitCnt, [], (ns.take (op.limitCnt.toNat - cnt)).map .node,
        .cancelMe⟩ := by
  rw [doWork, if_neg (op.curCnt_lt hcnt)]
  simp only [op.printNodes_eq hcnt]
  split <;> rfl

theorem doWork_eos (op : LimitOp) {cnt : Nat} (hcnt : cnt < op.limitCnt.toNat)
    (hlast : op.lastOp = true) (heos : op.numRcvEos + 1 = op.numUpstreams) (ns : List LightNode) :
    (op.withCnt (.ofNat cnt)).doWork ⟨.eos, ns⟩ =
      ⟨{ op with numRcvEos := op.numRcvEos + 1 }.withCnt (.ofNat cnt), [], [], .cancelMe⟩ := by
  rw [doWork, if_neg (op.curCnt_lt hcnt)]
  simp [withCnt, heos, hlast]

/-- LIMIT sends nothing, and counts until it asks to be stopped. -/
theorem doWork_spec (op : LimitOp) (cnt : UInt32) (data : MessagePayload) (hlast : op.lastOp = true)
    (heos : op.numRcvEos + 1 = op.numUpstreams) :
    ((op.withCnt cnt).doWork data).sent = [] ∧
      (((op.withCnt cnt).doWork data).result ≠ .cancelMe →
        ∃ cnt', ((op.withCnt cnt).doWork data).op = op.withCnt cnt') := by
  rw [doWork]
  split
  · exact ⟨rfl, fun _ => ⟨cnt, rfl⟩⟩
  · obtain ⟨type, ns⟩ := data
    cases type with
    | userData =>
        obtain ⟨cnt', h⟩ := exists_withCnt (op.withCnt cnt) ns
        exact ⟨rfl, fun _ => ⟨cnt', h⟩⟩
    | eos => simp [withCnt, heos, hlast]
    | nothing => exact ⟨rfl, fun _ => ⟨cnt, rfl⟩⟩

end LimitOp

/-! ## the operators of the simple tree -/

/-- The address of OUT in a dataflow. -/
def outAddr (x y : UInt8) : List UInt8 := [x, y, 0, 0]

/-- The address of LIMIT in a dataflow. -/
def limitAddr (x y : UInt8) : List UInt8 := [x, y, 1, 0]

/-- The addresses of operators have four bytes. -/
theorem length_of_form {addr : List UInt8}
    (h : ∃ x y, addr = outAddr x y ∨ addr = limitAddr x y) : addr.length = 4 := by
  obtain ⟨x, y, rfl | rfl⟩ := h <;> rfl

/-- OUT as it is created. -/
def outAt (x y : UInt8) : OutOp :=
  ⟨⟨limitAddr x y, 0, shardNumber, false⟩, codeOut.params, ⟨.userData, []⟩, maxTime⟩

theorem length_dsAddr_outAt (x y : UInt8) : (outAt x y).dsAddr.length = 4 := rfl

/-- The address downstream fits a message. -/
theorem length_dsAddr_outAt_lt (x y : UInt8) : (outAt x y).dsAddr.length < maxAddrLen := by
  rw [length_dsAddr_outAt, maxAddrLen]
  omega

/-- LIMIT as it is created. -/
def limitAt (limitCnt : UInt32) : LimitOp :=
  ⟨⟨List.replicate 4 0, 0, shardNumber, true⟩, limitCnt, 0⟩

/-- The operators that live at an address until they ask to be stopped. -/
inductive OperatorAt (limitCnt : UInt32) : List UInt8 → Operator → Prop
  | out (x y : UInt8) (left : List LightNode) :
      OperatorAt limitCnt (outAddr x y) (.out ((outAt x y).withLeft left))
  | limit (x y : UInt8) (cnt : UInt32) :
      OperatorAt limitCnt (limitAddr x y) (.limit ((limitAt limitCnt).withCnt cnt))

/-- A USER message with a payload for an operator of the simple tree. -/
structure TagMessage.ToOperator (msg : TagMessage) : Prop where
  type : msg.type = .user
  payload : ∃ data, msg.payload = some data
  address : ∃ x y, msg.address = outAddr x y ∨ msg.address = limitAddr x y

theorem TagMessage.addrs_of_address {msg : TagMessage} {addr : List UInt8} (h : msg.address = addr)
    {i : Nat} {b : UInt8} (hb : addr[i]? = some b) : msg.addrs (i + 1) = b := by
  rw [← h, address, List.getElem?_map, Option.map_eq_some_iff] at hb
  obtain ⟨j, hj, rfl⟩ := hb
  obtain ⟨_, hji⟩ := List.getElem?_eq_some_iff.mp hj
  rw [← hji, List.getElem_range]

/-- OUT is created at its address. -/
theorem newOperator_outAddr (f : String → UInt32) (x y : UInt8) :
    newOperator f (outAddr x y) codeOut = .ok (some (.out (outAt x y))) := rfl

/-- LIMIT is created at its address. -/
theorem newOperator_limitAddr (f : String → UInt32) (x y : UInt8) :
    newOperator f (limitAddr x y) codeLimit = .ok (some (.limit (limitAt (f codeLimit.params)))) :=
  rfl

/-- The operator that `process_mailbox` creates at an address. -/
def createdOp (stringToUnsignedInt : String → UInt32) (addr : List UInt8) :
    Except Fault (Option Operator) := do
  match ← dummyInsertSimple.get (fun i => addr.getD i 0) 0 with
  | none => .ok none
  | some code => newOperator stringToUnsignedInt addr code

theorem createdOp_outAddr (f : String → UInt32) (x y : UInt8) :
    createdOp f (outAddr x y) = .ok (some (.out (outAt x y))) := by
  rw [createdOp, get_of_id_zero rfl rfl]
  exact newOperator_outAddr f x y

theorem createdOp_limitAddr (f : String → UInt32) (x y : UInt8) :
    createdOp f (limitAddr x y) = .ok (some (.limit (limitAt (f codeLimit.params)))) := by
  rw [createdOp, get_of_id_one rfl rfl]
  exact newOperator_limitAddr f x y

/-- Every message for an operator finds its code, and the operator is created
as it should be. -/
theorem TagMessage.ToOperator.newOperator {msg : TagMessage} (h : msg.ToOperator)
    (f : String → UInt32) :
    ∃ code op, dummyInsertSimple.get (fun i => msg.addrs (i + 1)) 0 = .ok (some code) ∧
      LightQuery.newOperator f msg.address code = .ok (some op) ∧
      createdOp f msg.address = .ok (some op) ∧ OperatorAt (f codeLimit.params) msg.address op := by
  obtain ⟨x, y, ha | ha⟩ := h.address
  · have h₂ : msg.addrs (2 + 1) = 0 := addrs_of_address ha rfl
    have h₃ : msg.addrs (3 + 1) = 0 := addrs_of_address ha rfl
    refine ⟨_, _, get_of_id_zero h₂ h₃, ha ▸ newOperator_outAddr f x y,
      ha ▸ createdOp_outAddr f x y, ha ▸ ?_⟩
    exact .out x y []
  · have h₂ : msg.addrs (2 + 1) = 1 := addrs_of_address ha rfl
    have h₃ : msg.addrs (3 + 1) = 0 := addrs_of_address ha rfl
    refine ⟨_, _, get_of_id_one h₂ h₃, ha ▸ newOperator_limitAddr f x y,
      ha ▸ createdOp_limitAddr f x y, ha ▸ ?_⟩
    exact .limit x y 0

/-! ## what a call of do_work may do -/

/-- The results of OUT for a payload. -/
def outResults (getOutV : GetOutV) (x y : UInt8) (data : MessagePayload) : List LightNode :=
  data.data.flatMap (OutOp.outNodes getOutV (outAt x y))

/-- The messages of OUT go to LIMIT of the same dataflow. -/
theorem address_of_mem_sent {x y : UInt8} {msg : TagMessage}
    (h : (∃ ns, msg = (outAt x y).dataMessage ns) ∨ msg = (outAt x y).eosMessage) :
    msg.address = limitAddr x y ∧ msg.ToOperator := by
  have haddr : msg.address = limitAddr x y := by
    have hlen : (outAt x y).dsAddr.length < 256 := by rw [length_dsAddr_outAt]; omega
    rcases h with ⟨ns, rfl⟩ | rfl <;> exact TagMessage.address_writeAddrs hlen
  refine ⟨haddr, ?_, ?_, x, y, .inr haddr⟩
  · rcases h with ⟨ns, rfl⟩ | rfl <;> rfl
  · rcases h with ⟨ns, rfl⟩ | rfl <;> exact ⟨_, rfl⟩

/-- **A call of `do_work`** on an operator that was not asked to stop. -/
theorem OperatorAt.doWork {limitCnt : UInt32} {addr : List UInt8} {op : Operator}
    (h : OperatorAt limitCnt addr op) (getOutV : GetOutV) (data : MessagePayload) :
    ∃ w, op.doWork getOutV data = .ok w ∧
      (w.result ≠ .cancelMe → OperatorAt limitCnt addr w.op) ∧
      (∀ msg ∈ w.sent, ∃ x y, addr = outAddr x y ∧ msg.address = limitAddr x y ∧ msg.ToOperator ∧
        w.sent.length ≤ (outResults getOutV x y data).length + 2) := by
  cases h with
  | out x y left =>
      have hds := length_dsAddr_outAt_lt x y
      obtain ⟨type, ns⟩ := data
      cases type with
      | userData =>
          refine ⟨_, by rw [Operator.doWork, OutOp.doWork_userData hds]; rfl,
            fun _ => .out x y _, fun msg hmsg => ⟨x, y, rfl, ?_⟩⟩
          obtain ⟨c, -, rfl⟩ := List.mem_map.mp hmsg
          obtain ⟨haddr, hto⟩ := address_of_mem_sent (.inl ⟨c, rfl⟩)
          refine ⟨haddr, hto, ?_⟩
          have := length_batch_le left (outResults getOutV x y ⟨.userData, ns⟩)
          rw [List.length_map]
          exact this.trans (Nat.le_add_right _ 2)
      | eos =>
          refine ⟨_, by rw [Operator.doWork, OutOp.doWork_eos hds _ _ _ rfl]; rfl,
            fun hne => absurd rfl hne, fun msg hmsg => ⟨x, y, rfl, ?_⟩⟩
          have hmem : (∃ ns, msg = (outAt x y).dataMessage ns) ∨ msg = (outAt x y).eosMessage := by
            rcases List.mem_pair.mp hmsg with rfl | rfl
            · exact .inl ⟨left, rfl⟩
            · exact .inr rfl
          exact ⟨(address_of_mem_sent hmem).1, (address_of_mem_sent hmem).2, by simp⟩
      | nothing =>
          exact ⟨_, rfl, fun _ => .out x y left, by simp⟩
  | limit x y cnt =>
      obtain ⟨hsent, hop⟩ := LimitOp.doWork_spec (limitAt limitCnt) cnt data rfl rfl
      refine ⟨_, rfl, fun hne => ?_, fun msg hmsg => ?_⟩
      · obtain ⟨cnt', hcnt⟩ := hop hne
        rw [hcnt]
        exact .limit x y cnt'
      · rw [hsent] at hmsg
        cases hmsg

/-- What `OperatorAt.doWork` says of a call that is known. -/
theorem OperatorAt.of_doWork {limitCnt : UInt32} {addr : List UInt8} {op : Operator}
    (h : OperatorAt limitCnt addr op) {getOutV : GetOutV} {data : MessagePayload}
    {w : Work Operator} (hwork : op.doWork getOutV data = .ok w) :
    (w.result ≠ .cancelMe → OperatorAt limitCnt addr w.op) ∧
      (∀ msg ∈ w.sent, ∃ x y, addr = outAddr x y ∧ msg.address = limitAddr x y ∧ msg.ToOperator ∧
        w.sent.length ≤ (outResults getOutV x y data).length + 2) := by
  obtain ⟨w', hwork', hspec⟩ := h.doWork getOutV data
  rw [hwork] at hwork'
  obtain rfl := Except.ok.inj hwork'
  exact hspec

end LightQuery
