import LightQuery.Dataflow.OpCode
import Mathlib.Data.List.Basic

/-!
# LightQuery.Dataflow.Operators

The operators of a query, OUT and LIMIT, and what a call of `do_work` does.

An operator sends nothing itself here: a call of `do_work` returns the messages
it sends, the lines it prints and its result flag.  `GetOutV` is a parameter.
What OUT does to a payload is said by `batch`, which cuts a list of nodes into
full payloads and a rest.
-/

namespace LightQuery

/-! ## operator_base -/

/-- `operator_base`: the address downstream and the count of EOS messages. -/
structure OperatorBase where
  dsAddr : List UInt8
  numRcvEos : UInt32
  numUpstreams : UInt32
  lastOp : Bool
deriving DecidableEq, Repr

/-- `shard_number`. -/
def shardNumber : UInt32 := 1

/-- The constructor of `operator_base`.  The bytes of `_ds_addr` that it does
not write are zero here. -/
def OperatorBase.new (addr : List UInt8) (downstreamOpId : Int16) (downstreamLen : Nat)
    (numUpstreams : UInt32 := shardNumber) : Except Fault OperatorBase :=
  if downstreamOpId = -1 then .ok ⟨List.replicate downstreamLen 0, 0, numUpstreams, true⟩
  else
    let scopeDsLen := min addr.length downstreamLen
    if scopeDsLen < 2 then .error .assertScopeLen
    else .ok ⟨addr.take (scopeDsLen - 2) ++ storeInt16 downstreamOpId ++
      List.replicate (downstreamLen - scopeDsLen) 0, 0, numUpstreams, false⟩

/-- A new message with `flush_ds_addr_to_msg`. -/
def OperatorBase.message (op : OperatorBase) (payload : MessagePayload) :
    Except Fault TagMessage :=
  if op.dsAddr.length < maxAddrLen then .ok ⟨.user, TagMessage.writeAddrs op.dsAddr, some payload⟩
  else .error .assertDsLen

/-- `result_flags`. -/
inductive ResultFlag where
  | available | cancelMe | error
deriving DecidableEq, Repr

/-- A call of `do_work`: the operator after it, the messages it sends in order,
what it prints and what it returns. -/
structure Work (Op : Type) where
  op : Op
  sent : List TagMessage
  lines : List Line
  result : ResultFlag

/-! ## out_op -/

/-- `time_weight`. -/
def timeWeight : UInt64 := 2

/-- `GetOutV(vertex, label, time, time_weight, latest_arr_time)`. -/
abbrev GetOutV := UInt64 → String → UInt64 → UInt64 → UInt64 → List LightNode

/-- `out_op`. -/
structure OutOp extends OperatorBase where
  outLabel : String
  outPayload : MessagePayload
  latestArrTime : UInt64
deriving DecidableEq, Repr

namespace OutOp

/-- `flush_out_payload`. -/
def flushOutPayload (op : OutOp) : Except Fault (OutOp × TagMessage) := do
  let msg ← op.message op.outPayload
  .ok ({ op with outPayload := ⟨.userData, []⟩ }, msg)

/-- One result of `GetOutV`: it joins the payload, which is flushed when full. -/
def emplaceBack (acc : OutOp × List TagMessage) (n : LightNode) :
    Except Fault (OutOp × List TagMessage) :=
  let op := { acc.1 with
    outPayload := { acc.1.outPayload with data := acc.1.outPayload.data ++ [n] } }
  if op.outPayload.data.length ≥ maxPayloadCapacity then do
    let (op, msg) ← op.flushOutPayload
    .ok (op, acc.2 ++ [msg])
  else .ok (op, acc.2)

/-- The results for one node. -/
def outNodes (getOutV : GetOutV) (op : OutOp) (n : LightNode) : List LightNode :=
  getOutV n.vertex op.outLabel n.time timeWeight op.latestArrTime

/-- `do_work` of `out_op`. -/
def doWork (getOutV : GetOutV) (op : OutOp) (data : MessagePayload) :
    Except Fault (Work OutOp) :=
  match data.type with
  | .userData => do
      let (op, sent) ← data.data.foldlM
        (fun acc n => (outNodes getOutV acc.1 n).foldlM emplaceBack acc) (op, [])
      .ok ⟨op, sent, [], .available⟩
  | .eos =>
      let op := { op with numRcvEos := op.numRcvEos + 1 }
      if op.numRcvEos = op.numUpstreams then do
        let (op, msg) ← op.flushOutPayload
        let eos ← op.message ⟨.eos, []⟩
        .ok ⟨op, [msg, eos], [], .cancelMe⟩
      else .ok ⟨op, [], [], .available⟩
  | .nothing => .ok ⟨op, [], [.undefinedData], .error⟩

end OutOp

/-! ## limit_op -/

/-- `limit_op`. -/
structure LimitOp extends OperatorBase where
  limitCnt : UInt32
  curCnt : UInt32
deriving DecidableEq, Repr

namespace LimitOp

/-- The loop over the nodes, which ends when the limit is reached. -/
def printNodes (op : LimitOp) : List LightNode → LimitOp × List Line × ResultFlag
  | [] => (op, [], .available)
  | n :: ns =>
      let op := { op with curCnt := op.curCnt + 1 }
      if op.curCnt ≥ op.limitCnt then (op, [.node n], .cancelMe)
      else
        let (op, lines, flag) := op.printNodes ns
        (op, .node n :: lines, flag)

/-- `do_work` of `limit_op`. -/
def doWork (op : LimitOp) (data : MessagePayload) : Work LimitOp :=
  if op.curCnt ≥ op.limitCnt then ⟨op, [], [], .available⟩
  else
    match data.type with
    | .userData =>
        let (op, lines, flag) := op.printNodes data.data
        ⟨op, [], lines, flag⟩
    | .eos =>
        let op := { op with numRcvEos := op.numRcvEos + 1 }
        if op.numRcvEos = op.numUpstreams ∧ op.lastOp = true then ⟨op, [], [], .cancelMe⟩
        else ⟨op, [], [], .available⟩
    | .nothing => ⟨op, [], [.undefinedData], .error⟩

end LimitOp

/-! ## operators -/

/-- An operator of a dataflow. -/
inductive Operator where
  | out (op : OutOp)
  | limit (op : LimitOp)
deriving DecidableEq, Repr

/-- `do_work`. -/
def Operator.doWork (getOutV : GetOutV) (data : MessagePayload) :
    Operator → Except Fault (Work Operator)
  | .out op => do
      let w ← op.doWork getOutV data
      .ok ⟨.out w.op, w.sent, w.lines, w.result⟩
  | .limit op =>
      let w := op.doWork data
      .ok ⟨.limit w.op, w.sent, w.lines, w.result⟩

/-- Whether `do_work` returns before it looks at its payload and deletes it. -/
def Operator.keepsData : Operator → Bool
  | .out _ => false
  | .limit op => decide (op.curCnt ≥ op.limitCnt)

/-- `std::numeric_limits<time_t>::max()`. -/
def maxTime : UInt64 := 0xFFFFFFFFFFFFFFFF

/-- The operator that `process_mailbox` creates for a code, if any. -/
def newOperator (stringToUnsignedInt : String → UInt32) (addr : List UInt8) (code : Code) :
    Except Fault (Option Operator) :=
  match code.opName with
  | .out => do
      let base ← OperatorBase.new addr code.downstream addr.length
      .ok (some (.out ⟨base, code.params, ⟨.userData, []⟩, maxTime⟩))
  | .limit => do
      let base ← OperatorBase.new addr code.downstream addr.length
      .ok (some (.limit ⟨base, stringToUnsignedInt code.params, 0⟩))
  | _ => .ok none

end LightQuery
