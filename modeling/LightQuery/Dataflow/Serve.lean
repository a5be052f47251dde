import LightQuery.Dataflow.Work

/-!
# LightQuery.Dataflow.Serve

An operator that is given payloads one after the other.

`untilCancel`, `cancels`, `sentBy` and `printedBy` say what a fresh operator
makes of a list of payloads: which ones it takes before it asks to be stopped,
whether it does, what it sends and what it prints.  `Serves` is the same as a
relation that grows with every payload, for the invariant of a run.
-/

namespace LightQuery

variable (getOutV : GetOutV)

/-! ## a list of payloads -/

/-- The payloads up to the first one on which `do_work` returns CancelMe. -/
def untilCancel : Operator → List MessagePayload → List MessagePayload
  | _, [] => []
  | op, data :: rest =>
      match op.doWork getOutV data with
      | .ok w => if w.result = .cancelMe then [data] else data :: untilCancel w.op rest
      | .error _ => []

/-- Some payload makes `do_work` return CancelMe. -/
def cancels : Operator → List MessagePayload → Bool
  | _, [] => false
  | op, data :: rest =>
      match op.doWork getOutV data with
      | .ok w => decide (w.result = .cancelMe) || cancels w.op rest
      | .error _ => false

/-- The messages that an operator sends on these payloads. -/
def sentBy : Operator → List MessagePayload → List TagMessage
  | _, [] => []
  | op, data :: rest =>
      match op.doWork getOutV data with
      | .ok w => w.sent ++ sentBy w.op rest
      | .error _ => []

/-- The lines that an operator prints on these payloads. -/
def printedBy : Operator → List MessagePayload → List Line
  | _, [] => []
  | op, data :: rest =>
      match op.doWork getOutV data with
      | .ok w => w.lines ++ printedBy w.op rest
      | .error _ => []

/-! ## growing lists -/

/-- A fresh operator `op₀` was given the payloads and is `op` now; no payload
but the last made it ask to be stopped, and `stopped` says whether that did. -/
inductive Serves (op₀ : Operator) : List MessagePayload → Operator → Bool → Prop
  | nil : Serves op₀ [] op₀ false
  | snoc {served : List MessagePayload} {op : Operator} {data : MessagePayload}
      {w : Work Operator} (h : Serves op₀ served op false)
      (hwork : op.doWork getOutV data = .ok w) :
      Serves op₀ (served ++ [data]) w.op (w.result = .cancelMe)

variable {getOutV} {op₀ op : Operator} {served : List MessagePayload} {stopped : Bool}

/-- The rest of the payloads is for the operator as it is now. -/
theorem Serves.untilCancel_append (h : Serves getOutV op₀ served op stopped)
    (rest : List MessagePayload) :
    untilCancel getOutV op₀ (served ++ rest) =
      served ++ if stopped then [] else untilCancel getOutV op rest := by
  induction h generalizing rest with
  | nil => rfl
  | @snoc served op data w h hwork ih =>
      rw [List.append_assoc, ih, List.singleton_append, untilCancel, hwork]
      by_cases hres : w.result = .cancelMe <;> simp [hres]

/-- An operator that asked to be stopped has done so. -/
theorem Serves.cancels_append (h : Serves getOutV op₀ served op stopped)
    (rest : List MessagePayload) :
    cancels getOutV op₀ (served ++ rest) = (stopped || cancels getOutV op rest) := by
  induction h generalizing rest with
  | nil => rfl
  | @snoc served op data w h hwork ih =>
      rw [List.append_assoc, ih, List.singleton_append, cancels, hwork]
      simp

/-- What is sent on one payload more. -/
theorem Serves.sentBy_append (h : Serves getOutV op₀ served op stopped)
    (rest : List MessagePayload) :
    sentBy getOutV op₀ (served ++ rest) =
      sentBy getOutV op₀ served ++ sentBy getOutV op rest := by
  induction h generalizing rest with
  | nil => rfl
  | @snoc served op data w h hwork ih =>
      rw [List.append_assoc, ih, ih, List.singleton_append, sentBy, sentBy, hwork]
      simp [sentBy]

/-- What is printed on one payload more. -/
theorem Serves.printedBy_append (h : Serves getOutV op₀ served op stopped)
    (rest : List MessagePayload) :
    printedBy getOutV op₀ (served ++ rest) =
      printedBy getOutV op₀ served ++ printedBy getOutV op rest := by
  induction h generalizing rest with
  | nil => rfl
  | @snoc served op data w h hwork ih =>
      rw [List.append_assoc, ih, ih, List.singleton_append, printedBy, printedBy, hwork]
      simp [printedBy]

theorem sentBy_singleton {data : MessagePayload} {w : Work Operator}
    (hwork : op.doWork getOutV data = .ok w) : sentBy getOutV op [data] = w.sent := by
  simp [sentBy, hwork]

theorem printedBy_singleton {data : MessagePayload} {w : Work Operator}
    (hwork : op.doWork getOutV data = .ok w) : printedBy getOutV op [data] = w.lines := by
  simp [printedBy, hwork]

/-- The operator's name. -/
def Operator.opName : Operator → OpName
  | .out _ => .out
  | .limit _ => .limit

theorem Serves.opName_eq (h : Serves getOutV op₀ served op stopped) : op.opName = op₀.opName := by
  induction h with
  | nil => rfl
  | @snoc served op data w h hwork ih =>
      rw [← ih]
      cases op with
      | out op =>
          rw [Operator.doWork] at hwork
          cases hout : op.doWork getOutV data with
          | error e => simp [hout, bind, Except.bind] at hwork
          | ok w' =>
              rw [hout] at hwork
              rw [← Except.ok.inj hwork]
              rfl
      | limit op =>
          rw [← Except.ok.inj hwork]
          rfl

/-! ## payloads in a mailbox -/

/-- The payloads of the USER messages for an address, in the order of the
messages. -/
def payloadsFor (addr : List UInt8) (msgs : List TagMessage) : List MessagePayload :=
  msgs.filterMap fun msg =>
    if msg.type = .user ∧ msg.address = addr then msg.payload else none

variable {addr : List UInt8} {msg : TagMessage} {msgs : List TagMessage}

@[simp] theorem payloadsFor_nil : payloadsFor addr [] = [] := rfl

@[simp] theorem payloadsFor_append (msgs' : List TagMessage) :
    payloadsFor addr (msgs ++ msgs') = payloadsFor addr msgs ++ payloadsFor addr msgs' :=
  List.filterMap_append ..

/-- A message for the address comes first. -/
theorem payloadsFor_cons_self (h : msg.ToOperator) (haddr : msg.address = addr)
    {data : MessagePayload} (hdata : msg.payload = some data) :
    payloadsFor addr (msg :: msgs) = data :: payloadsFor addr msgs := by
  simp [payloadsFor, h.type, haddr, hdata]

/-- A message for another address is skipped. -/
theorem payloadsFor_cons_ne (haddr : msg.address ≠ addr) :
    payloadsFor addr (msg :: msgs) = payloadsFor addr msgs := by
  simp [payloadsFor, haddr]

theorem payloadsFor_eq_nil (h : ∀ msg ∈ msgs, msg.address ≠ addr) :
    payloadsFor addr msgs = [] := by
  simp only [payloadsFor, List.filterMap_eq_nil_iff]
  intro msg hmsg
  simp [h msg hmsg]

/-- All messages are for the address. -/
theorem payloadsFor_eq_of_forall {data : List MessagePayload}
    (h : ∀ msg ∈ msgs, msg.type = .user ∧ msg.address = addr)
    (hdata : msgs.map TagMessage.payload = data.map some) : payloadsFor addr msgs = data := by
  have hself : payloadsFor addr msgs = (msgs.map TagMessage.payload).filterMap id := by
    rw [payloadsFor, List.filterMap_map]
    refine List.filterMap_congr fun msg hmsg => ?_
    rw [if_pos (h msg hmsg)]
    rfl
  rw [hself, hdata, List.filterMap_map]
  exact List.filterMap_some

/-! ## nodes and an EOS -/

/-- Payloads of nodes with an EOS after them. -/
def nodesThenEos (nss : List (List LightNode)) (last : List LightNode) : List MessagePayload :=
  nss.map (MessagePayload.mk .userData) ++ [⟨.eos, last⟩]

theorem nodesThenEos_cons (ns : List LightNode) (nss : List (List LightNode))
    (last : List LightNode) :
    nodesThenEos (ns :: nss) last = ⟨.userData, ns⟩ :: nodesThenEos nss last := rfl

section Out

variable {op : OutOp} (hds : op.dsAddr.length < maxAddrLen)
  (heos : op.numRcvEos + 1 = op.numUpstreams)
include hds

theorem out_doWork_userData (left ns : List LightNode) :
    (Operator.out (op.withLeft left)).doWork getOutV ⟨.userData, ns⟩ =
      .ok ⟨.out (op.withLeft (batch left (ns.flatMap (op.outNodes getOutV))).2),
        (batch left (ns.flatMap (op.outNodes getOutV))).1.map op.dataMessage, [], .available⟩ := by
  rw [Operator.doWork, OutOp.doWork_userData hds]
  rfl

include heos

theorem out_doWork_eos (left ns : List LightNode) :
    (Operator.out (op.withLeft left)).doWork getOutV ⟨.eos, ns⟩ =
      .ok ⟨.out ({ op with numRcvEos := op.numRcvEos + 1 }.withLeft []),
        [op.dataMessage left, op.eosMessage], [], .cancelMe⟩ := by
  rw [Operator.doWork, OutOp.doWork_eos hds _ _ _ heos]
  rfl

variable (left : List LightNode) (nss : List (List LightNode)) (last : List LightNode)

/-- OUT takes all of its payloads. -/
theorem untilCancel_out : untilCancel getOutV (.out (op.withLeft left)) (nodesThenEos nss last) =
    nodesThenEos nss last := by
  induction nss generalizing left with
  | nil => simp [nodesThenEos, untilCancel, out_doWork_eos hds heos]
  | cons ns nss ih =>
      rw [nodesThenEos_cons, untilCancel, out_doWork_userData hds]
      simp [ih]

theorem cancels_out : cancels getOutV (.out (op.withLeft left)) (nodesThenEos nss last) = true := by
  induction nss generalizing left with
  | nil => simp [nodesThenEos, cancels, out_doWork_eos hds heos]
  | cons ns nss ih =>
      rw [nodesThenEos_cons, cancels, out_doWork_userData hds]
      simp [ih]

theorem printedBy_out :
    printedBy getOutV (.out (op.withLeft left)) (nodesThenEos nss last) = [] := by
  induction nss generalizing left with
  | nil => simp [nodesThenEos, printedBy, out_doWork_eos hds heos]
  | cons ns nss ih =>
      rw [nodesThenEos_cons, printedBy, out_doWork_userData hds]
      simp [ih]

/-- OUT sends its results in full payloads, the rest and an EOS. -/
theorem sentBy_out : sentBy getOutV (.out (op.withLeft left)) (nodesThenEos nss last) =
    (batch left (nss.flatten.flatMap (op.outNodes getOutV))).1.map op.dataMessage ++
      [op.dataMessage (batch left (nss.flatten.flatMap (op.outNodes getOutV))).2,
        op.eosMessage] := by
  induction nss generalizing left with
  | nil => simp [nodesThenEos, sentBy, out_doWork_eos hds heos, batch]
  | cons ns nss ih =>
      rw [nodesThenEos_cons, sentBy, out_doWork_userData hds]
      simp [ih, batch_append]

end Out

section Limit

variable {op : LimitOp} (hlast : op.lastOp = true) (heos : op.numRcvEos + 1 = op.numUpstreams)
  {cnt : Nat} (hcnt : cnt < op.limitCnt.toNat) (nss : List (List LightNode)) (last : List LightNode)
include hlast heos hcnt

/-- LIMIT below its limit will ask to be stopped. -/
theorem cancels_limit :
    cancels getOutV (.limit (op.withCnt (.ofNat cnt))) (nodesThenEos nss last) = true := by
  induction nss generalizing cnt with
  | nil => simp [nodesThenEos, cancels, Operator.doWork, op.doWork_eos hcnt hlast heos]
  | cons ns nss ih =>
      rw [nodesThenEos_cons, cancels, Operator.doWork, op.doWork_userData hcnt]
      by_cases hlt : cnt + ns.length < op.limitCnt.toNat
      · simp [hlt, ih hlt, -UInt32.ofNat_add]
      · simp [hlt]

/-- **LIMIT prints the nodes up to its limit**, and no more before it is stopped. -/
theorem printedBy_limit :
    printedBy getOutV (.limit (op.withCnt (.ofNat cnt)))
        (untilCancel getOutV (.limit (op.withCnt (.ofNat cnt))) (nodesThenEos nss last)) =
      (nss.flatten.take (op.limitCnt.toNat - cnt)).map .node := by
  induction nss generalizing cnt with
  | nil => simp [nodesThenEos, untilCancel, printedBy, Operator.doWork,
      op.doWork_eos hcnt hlast heos]
  | cons ns nss ih =>
      rw [nodesThenEos_cons, untilCancel, Operator.doWork, op.doWork_userData hcnt]
      by_cases hlt : cnt + ns.length < op.limitCnt.toNat
      · have htake : ns.take (op.limitCnt.toNat - cnt) = ns :=
          List.take_of_length_le (by omega)
        have hrest : op.limitCnt.toNat - cnt - ns.length =
          op.limitCnt.toNat - (cnt + ns.length) := by omega
        simp [hlt, printedBy, Operator.doWork, op.doWork_userData hcnt, ih hlt, List.take_append,
          htake, hrest, -UInt32.ofNat_add, -List.map_flatten]
      · have hfull : op.limitCnt.toNat - cnt - ns.length = 0 := by omega
        simp [hlt, printedBy, Operator.doWork, op.doWork_userData hcnt, List.take_append, hfull]

end Limit

/-! ## the operators of the simple tree on nodes and an EOS -/

section Simple

variable (x y : UInt8) {limitCnt : UInt32} (hpos : 0 < limitCnt.toNat)
  (nss : List (List LightNode)) (last : List LightNode)

theorem untilCancel_outAt :
    untilCancel getOutV (.out (outAt x y)) (nodesThenEos nss last) = nodesThenEos nss last :=
  untilCancel_out (length_dsAddr_outAt_lt x y) rfl [] nss last

theorem cancels_outAt : cancels getOutV (.out (outAt x y)) (nodesThenEos nss last) = true :=
  cancels_out (length_dsAddr_outAt_lt x y) rfl [] nss last

theorem printedBy_outAt : printedBy getOutV (.out (outAt x y)) (nodesThenEos nss last) = [] :=
  printedBy_out (length_dsAddr_outAt_lt x y) rfl [] nss last

/-- What OUT of a dataflow sends is nodes and an EOS for LIMIT. -/
theorem payloadsFor_sentBy_outAt :
    ∃ mss, payloadsFor (limitAddr x y)
        (sentBy getOutV (.out (outAt x y)) (nodesThenEos nss last)) = nodesThenEos mss [] ∧
      mss.flatten = nss.flatten.flatMap ((outAt x y).outNodes getOutV) := by
  have hbatch := flatten_batch [] (nss.flatten.flatMap ((outAt x y).outNodes getOutV))
  have hsent : sentBy getOutV (.out (outAt x y)) (nodesThenEos nss last) = _ :=
    sentBy_out (length_dsAddr_outAt_lt x y) rfl [] nss last
  generalize batch [] (nss.flatten.flatMap ((outAt x y).outNodes getOutV)) = b at hbatch hsent
  refine ⟨b.1 ++ [b.2], ?_, by simpa using hbatch⟩
  rw [hsent]
  refine payloadsFor_eq_of_forall (fun msg hmsg => ?_) ?_
  · have hform : (∃ ns, msg = (outAt x y).dataMessage ns) ∨ msg = (outAt x y).eosMessage := by
      simp only [List.mem_append, List.mem_map, List.mem_pair] at hmsg
      rcases hmsg with ⟨ns, -, rfl⟩ | rfl | rfl
      · exact .inl ⟨ns, rfl⟩
      · exact .inl ⟨_, rfl⟩
      · exact .inr rfl
    obtain ⟨haddr, hto⟩ := address_of_mem_sent hform
    exact ⟨hto.type, haddr⟩
  · simp [nodesThenEos, OutOp.dataMessage, OutOp.eosMessage]

include hpos

theorem cancels_limitAt :
    cancels getOutV (.limit (limitAt limitCnt)) (nodesThenEos nss last) = true := by
  have hfresh : limitAt limitCnt = (limitAt limitCnt).withCnt (.ofNat 0) := rfl
  rw [hfresh]
  exact cancels_limit rfl rfl hpos nss last

theorem printedBy_limitAt :
    printedBy getOutV (.limit (limitAt limitCnt))
        (untilCancel getOutV (.limit (limitAt limitCnt)) (nodesThenEos nss last)) =
      (nss.flatten.take limitCnt.toNat).map .node := by
  have hfresh : limitAt limitCnt = (limitAt limitCnt).withCnt (.ofNat 0) := rfl
  rw [hfresh]
  exact printedBy_limit rfl rfl hpos nss last

end Simple

end LightQuery
