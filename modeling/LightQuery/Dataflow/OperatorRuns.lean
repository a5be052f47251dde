import LightQuery.Dataflow.Work

/-!
# LightQuery.Dataflow.OperatorRuns

OUT and LIMIT with any number of upstreams, on payloads of nodes with EOS
payloads anywhere between them, up to the EOS of the last upstream.

OUT loses nothing and asks to be stopped on the last EOS (`out_run_spec`).
LIMIT prints a prefix of its input; it asks to be stopped exactly once if its
limit is not 0, and never if it is (`limit_run_iff`).
-/

namespace LightQuery

/-! ## lists of payloads -/

/-- The nodes of the payloads. -/
def nodesOf (datas : List MessagePayload) : List LightNode :=
  datas.flatMap fun data => if data.type = .userData then data.data else []

/-- The number of EOS payloads. -/
def eosCount (datas : List MessagePayload) : Nat := datas.countP fun data => data.type = .eos

@[simp] theorem nodesOf_nil : nodesOf [] = [] := rfl

@[simp] theorem nodesOf_append (datas datas' : List MessagePayload) :
    nodesOf (datas ++ datas') = nodesOf datas ++ nodesOf datas' := by simp [nodesOf]

@[simp] theorem nodesOf_userData (ns : List LightNode) (datas : List MessagePayload) :
    nodesOf (⟨.userData, ns⟩ :: datas) = ns ++ nodesOf datas := by simp [nodesOf]

@[simp] theorem nodesOf_eos (ns : List LightNode) (datas : List MessagePayload) :
    nodesOf (⟨.eos, ns⟩ :: datas) = nodesOf datas := by simp [nodesOf]

@[simp] theorem eosCount_nil : eosCount [] = 0 := rfl

@[simp] theorem eosCount_userData (ns : List LightNode) (datas : List MessagePayload) :
    eosCount (⟨.userData, ns⟩ :: datas) = eosCount datas := by simp [eosCount]

@[simp] theorem eosCount_eos (ns : List LightNode) (datas : List MessagePayload) :
    eosCount (⟨.eos, ns⟩ :: datas) = eosCount datas + 1 := by simp [eosCount]

/-- USER_DATA and EOS payloads that end with the EOS of the last of `u`
upstreams. -/
inductive UpToLastEos : (u : Nat) → List MessagePayload → Prop
  | last (ns : List LightNode) : UpToLastEos 1 [⟨.eos, ns⟩]
  | userData (ns : List LightNode) {u : Nat} {datas : List MessagePayload}
      (h : UpToLastEos u datas) : UpToLastEos u (⟨.userData, ns⟩ :: datas)
  | eos (ns : List LightNode) {u : Nat} {datas : List MessagePayload} (h : UpToLastEos u datas) :
      UpToLastEos (u + 1) (⟨.eos, ns⟩ :: datas)

/-- Any payloads of the two types are such a sequence when an EOS ends them. -/
theorem upToLastEos_iff {u : Nat} {datas : List MessagePayload} :
    UpToLastEos u datas ↔ (∀ data ∈ datas, data.type ≠ .nothing) ∧ eosCount datas = u ∧
      ∃ init ns, datas = init ++ [⟨.eos, ns⟩] := by
  constructor
  · intro h
    induction h with
    | last ns => exact ⟨by simp, by simp, [], ns, rfl⟩
    | userData ns h ih =>
        obtain ⟨htype, hcount, init, last, rfl⟩ := ih
        exact ⟨by simpa using htype, by simp [hcount], ⟨.userData, ns⟩ :: init, last, rfl⟩
    | eos ns h ih =>
        obtain ⟨htype, hcount, init, last, rfl⟩ := ih
        exact ⟨by simpa using htype, by simp [hcount], ⟨.eos, ns⟩ :: init, last, rfl⟩
  · rintro ⟨htype, hcount, init, last, rfl⟩
    induction init generalizing u with
    | nil =>
        rw [← hcount]
        exact .last last
    | cons data init ih =>
        obtain ⟨type, ns⟩ := data
        have hrest : ∀ data ∈ init ++ [⟨.eos, last⟩], data.type ≠ .nothing := fun data hdata =>
          htype data (List.mem_cons_of_mem _ hdata)
        cases type with
        | userData =>
            rw [List.cons_append, eosCount_userData] at hcount
            exact .userData ns (ih hrest hcount)
        | eos =>
            rw [List.cons_append, eosCount_eos] at hcount
            rw [← hcount]
            exact .eos ns (ih hrest rfl)
        | nothing => exact absurd rfl (htype _ List.mem_cons_self)

/-- One EOS more, below the number of upstreams. -/
theorem toNat_eos_succ {cnt num : UInt32} {u : Nat} (h : cnt.toNat + (u + 1) = num.toNat) :
    (cnt + 1).toNat = cnt.toNat + 1 ∧ (cnt + 1 = num ↔ u = 0) := by
  have hlt : num.toNat < 2 ^ 32 := num.toNat_lt
  have hsucc : (cnt + 1).toNat = cnt.toNat + 1 := by
    rw [UInt32.toNat_add]
    exact Nat.mod_eq_of_lt (by simp; omega)
  refine ⟨hsucc, ?_⟩
  rw [← UInt32.toNat_inj, hsucc]
  omega

theorem UpToLastEos.pos {u : Nat} {datas : List MessagePayload} (h : UpToLastEos u datas) :
    0 < u := by
  induction h with
  | last ns => exact Nat.one_pos
  | userData ns h ih => exact ih
  | eos ns h ih => exact Nat.succ_pos _

/-! ## OUT -/

/-- Full payloads have a hundred nodes, and the rest has fewer. -/
theorem length_batch {left : List LightNode} (h : left.length < maxPayloadCapacity)
    (ns : List LightNode) :
    (∀ full ∈ (batch left ns).1, full.length = maxPayloadCapacity) ∧
      (batch left ns).2.length < maxPayloadCapacity := by
  induction ns generalizing left with
  | nil => simpa [batch] using h
  | cons n ns ih =>
      have hsnoc : (left ++ [n]).length = left.length + 1 := by simp
      rw [batch]
      split
      · next hfull =>
          obtain ⟨hall, hrest⟩ :=
            ih (show ([] : List LightNode).length < maxPayloadCapacity by decide)
          refine ⟨fun full hmem => ?_, hrest⟩
          rcases List.mem_cons.mp hmem with rfl | hmem
          · omega
          · exact hall full hmem
      · next hroom => exact ih (by omega)

namespace OutOp

/-- The calls of `do_work` on the payloads, one after the other. -/
def run (getOutV : GetOutV) : OutOp → List MessagePayload → Except Fault (List (Work OutOp))
  | _, [] => .ok []
  | op, data :: rest => do
      let w ← op.doWork getOutV data
      let ws ← w.op.run getOutV rest
      .ok (w :: ws)

/-- As it is constructed: no EOS received, an empty payload. -/
structure Fresh (op : OutOp) : Prop where
  eos : op.numRcvEos = 0
  payload : op.outPayload = ⟨.userData, []⟩

variable {op : OutOp}

/-- An EOS before the last one is counted. -/
theorem doWork_early_eos (getOutV : GetOutV) (left ns : List LightNode)
    (h : op.numRcvEos + 1 ≠ op.numUpstreams) :
    (op.withLeft left).doWork getOutV ⟨.eos, ns⟩ =
      .ok ⟨{ op with numRcvEos := op.numRcvEos + 1 }.withLeft left, [], [], .available⟩ := by
  simp [doWork, withLeft, h]

/-- What a run sends and returns, from any state of the operator. -/
theorem run_eq (getOutV : GetOutV) (hds : op.dsAddr.length < maxAddrLen) {u : Nat}
    {datas : List MessagePayload} (h : UpToLastEos u datas)
    (hu : op.numRcvEos.toNat + u = op.numUpstreams.toNat) (left : List LightNode) :
    ∃ ws, (op.withLeft left).run getOutV datas = .ok ws ∧
      ws.flatMap Work.sent =
        (batch left ((nodesOf datas).flatMap (outNodes getOutV op))).1.map op.dataMessage ++
          [op.dataMessage (batch left ((nodesOf datas).flatMap (outNodes getOutV op))).2,
            op.eosMessage] ∧
      ws.map Work.result = List.replicate (datas.length - 1) .available ++ [.cancelMe] := by
  induction h generalizing op left with
  | last ns =>
      have heos := (toNat_eos_succ hu).2.mpr rfl
      refine ⟨_, by rw [run, doWork_eos hds getOutV left ns heos]; rfl, ?_, rfl⟩
      simp [batch]
  | @userData ns u datas h ih =>
      have hlen : datas.length = datas.length - 1 + 1 := by cases h <;> rfl
      obtain ⟨ws, hrun, hsent, hresult⟩ :=
        ih hds hu (batch left (ns.flatMap (outNodes getOutV op))).2
      refine ⟨_, by rw [run, doWork_userData hds]; simp only [bind, Except.bind, hrun]; rfl, ?_, ?_⟩
      · simp [hsent, batch_append]
      · simp only [List.map_cons, hresult, List.length_cons, Nat.add_sub_cancel]
        rw [hlen, List.replicate_succ]
        rfl
  | @eos ns u datas h ih =>
      have hlen : datas.length = datas.length - 1 + 1 := by cases h <;> rfl
      obtain ⟨hsucc, hlast⟩ := toNat_eos_succ hu
      have hpos := h.pos
      have heos : op.numRcvEos + 1 ≠ op.numUpstreams := fun heq => by
        have := hlast.mp heq
        omega
      have hcount : (op.numRcvEos + 1).toNat + u = op.numUpstreams.toNat := by omega
      obtain ⟨ws, hrun, hsent, hresult⟩ :=
        @ih { op with numRcvEos := op.numRcvEos + 1 } hds hcount left
      refine ⟨_, by
        rw [run, doWork_early_eos getOutV left ns heos]
        simp only [bind, Except.bind, hrun]
        rfl, ?_, ?_⟩
      · simp [hsent]
        rfl
      · simp only [List.map_cons, hresult, List.length_cons, Nat.add_sub_cancel]
        rw [hlen, List.replicate_succ]
        rfl

/-- **Batching loses nothing.**  OUT sends the results for all of its input in
order, in payloads of a hundred nodes and a last one of fewer, and then one
EOS, all to the same address; it asks to be stopped on the last EOS only.  An
address has at most 18 bytes: a message holds no more. -/
theorem out_run_spec (getOutV : GetOutV) (hfresh : op.Fresh) (hds : op.dsAddr.length < maxAddrLen)
    {datas : List MessagePayload} (h : UpToLastEos op.numUpstreams.toNat datas) :
    ∃ ws, op.run getOutV datas = .ok ws ∧
      (∃ (full : List (List LightNode)) (rest : List LightNode),
        ws.flatMap Work.sent =
          full.map op.dataMessage ++ [op.dataMessage rest, op.eosMessage] ∧
        full.flatten ++ rest = ((nodesOf datas).flatMap fun n =>
          getOutV n.vertex op.outLabel n.time timeWeight op.latestArrTime) ∧
        (∀ ns ∈ full, ns.length = maxPayloadCapacity) ∧ rest.length < maxPayloadCapacity) ∧
      (∀ msg ∈ ws.flatMap Work.sent, msg.type = .user ∧ msg.address = op.dsAddr) ∧
      ws.map Work.result = List.replicate (datas.length - 1) .available ++ [.cancelMe] := by
  have hop : op = op.withLeft [] := by
    rw [withLeft, ← hfresh.payload]
  obtain ⟨ws, hrun, hsent, hresult⟩ := run_eq getOutV hds h (by rw [hfresh.eos]; simp) []
  rw [← hop] at hrun
  have hbatch := flatten_batch [] ((nodesOf datas).flatMap (op.outNodes getOutV))
  obtain ⟨hfull, hrest⟩ := length_batch
    (show ([] : List LightNode).length < maxPayloadCapacity by decide)
    ((nodesOf datas).flatMap (op.outNodes getOutV))
  have hresults : (batch [] ((nodesOf datas).flatMap (op.outNodes getOutV))).1.flatten ++
      (batch [] ((nodesOf datas).flatMap (op.outNodes getOutV))).2 =
        (nodesOf datas).flatMap fun n =>
          getOutV n.vertex op.outLabel n.time timeWeight op.latestArrTime := by
    rw [hbatch, List.nil_append]
    rfl
  refine ⟨ws, hrun, ⟨_, _, hsent, hresults, hfull, hrest⟩, ?_, hresult⟩
  intro msg hmsg
  have haddr : ∀ payload, (⟨.user, TagMessage.writeAddrs op.dsAddr, payload⟩ : TagMessage).address =
      op.dsAddr := fun payload =>
    TagMessage.address_writeAddrs (by rw [maxAddrLen] at hds; omega)
  rw [hsent] at hmsg
  simp only [List.mem_append, List.mem_map, List.mem_pair] at hmsg
  rcases hmsg with ⟨ns, -, rfl⟩ | rfl | rfl
  · exact ⟨rfl, haddr _⟩
  · exact ⟨rfl, haddr _⟩
  · exact ⟨rfl, haddr _⟩

/-- Two upstreams, sixty results for a node and an EOS between two payloads: the
hypotheses of `out_run_spec` can be met, and a full payload is sent and a rest. -/
theorem out_run_spec_two_upstreams :
    ∃ ws, OutOp.run (fun vertex _ time _ _ => List.replicate 60 ⟨vertex + 1, time⟩)
        ⟨⟨[7, 0, 1, 0], 0, 2, false⟩, "knows", ⟨.userData, []⟩, maxTime⟩
        [⟨.userData, [⟨1, 0⟩]⟩, ⟨.eos, []⟩, ⟨.userData, [⟨5, 0⟩]⟩, ⟨.eos, []⟩] = .ok ws ∧
      (∃ full rest, (ws.flatMap Work.sent).map TagMessage.payload =
          [some ⟨.userData, full⟩, some ⟨.userData, rest⟩, some ⟨.eos, []⟩] ∧
        full.length = 100 ∧ rest.length = 20 ∧
        full ++ rest = List.replicate 60 ⟨2, 0⟩ ++ List.replicate 60 ⟨6, 0⟩) ∧
      ws.map Work.result = [.available, .available, .available, .cancelMe] := by
  have hfresh : Fresh ⟨⟨[7, 0, 1, 0], 0, 2, false⟩, "knows", ⟨.userData, []⟩, maxTime⟩ :=
    ⟨rfl, rfl⟩
  obtain ⟨ws, hrun, ⟨fulls, rest, hsent, hall, hfull, hrest⟩, -, hresult⟩ := out_run_spec
    (fun vertex _ time _ _ => List.replicate 60 ⟨vertex + 1, time⟩) hfresh (by decide)
    (.userData [⟨1, 0⟩] (.eos [] (.userData [⟨5, 0⟩] (.last []))))
  refine ⟨ws, hrun, ?_, hresult⟩
  have hlen := congrArg List.length hall
  simp only [List.length_append, List.length_flatten] at hlen
  change _ = 120 at hlen
  have hcap : maxPayloadCapacity = 100 := rfl
  -- 120 results fill one payload
  rcases fulls with - | ⟨full, - | ⟨full', fulls⟩⟩
  · simp only [List.map_nil, List.sum_nil] at hlen
    omega
  · have hone := hfull full List.mem_cons_self
    simp only [List.map_cons, List.map_nil, List.sum_cons, List.sum_nil] at hlen
    refine ⟨full, rest, by rw [hsent]; rfl, hone, by omega, ?_⟩
    rw [List.flatten_singleton] at hall
    exact hall
  · have hone := hfull full List.mem_cons_self
    have htwo := hfull full' (List.mem_cons_of_mem _ List.mem_cons_self)
    simp only [List.map_cons, List.sum_cons] at hlen
    omega

end OutOp

/-! ## LIMIT -/

namespace LimitOp

/-- The calls of `do_work` on the payloads, one after the other. -/
def run : LimitOp → List MessagePayload → List (Work LimitOp)
  | _, [] => []
  | op, data :: rest => op.doWork data :: (op.doWork data).op.run rest

/-- As it is constructed: no EOS received, no node printed. -/
structure Fresh (op : LimitOp) : Prop where
  eos : op.numRcvEos = 0
  cnt : op.curCnt = 0

/-- LIMIT prints the first `limit_cnt` nodes, and one call, no other, returns
CancelMe: the one that prints the last of them, if so many come. -/
def StopsRight (op : LimitOp) (datas : List MessagePayload) : Prop :=
  (op.run datas).flatMap Work.lines =
      ((nodesOf datas).take op.limitCnt.toNat).map .node ∧
    ∃ i < datas.length,
      (∀ j, ((op.run datas)[j]?).map Work.result = some .cancelMe ↔ j = i) ∧
        (1 ≤ op.limitCnt.toNat → op.limitCnt.toNat ≤ (nodesOf datas).length →
          (nodesOf (datas.take i)).length < op.limitCnt.toNat ∧
            op.limitCnt.toNat ≤ (nodesOf (datas.take (i + 1))).length)

variable {op : LimitOp}

/-- At the limit every call returns at once. -/
theorem run_of_limit (h : op.curCnt ≥ op.limitCnt) (datas : List MessagePayload) :
    op.run datas = datas.map fun _ => ⟨op, [], [], .available⟩ := by
  induction datas with
  | nil => rfl
  | cons data rest ih =>
      have hwork : op.doWork data = ⟨op, [], [], .available⟩ := by rw [doWork, if_pos h]
      rw [run, hwork, ih, List.map_cons]

/-- An EOS before the last one is counted. -/
theorem doWork_early_eos {cnt : Nat} (hcnt : cnt < op.limitCnt.toNat)
    (heos : op.numRcvEos + 1 ≠ op.numUpstreams) (ns : List LightNode) :
    (op.withCnt (.ofNat cnt)).doWork ⟨.eos, ns⟩ =
      ⟨{ op with numRcvEos := op.numRcvEos + 1 }.withCnt (.ofNat cnt), [], [], .available⟩ := by
  rw [doWork, if_neg (op.curCnt_lt hcnt)]
  simp [withCnt, heos]

/-- What a run prints and returns, from any count below the limit. -/
theorem run_eq (hlast : op.lastOp = true) {u : Nat} {datas : List MessagePayload}
    (h : UpToLastEos u datas) (hu : op.numRcvEos.toNat + u = op.numUpstreams.toNat) {cnt : Nat}
    (hcnt : cnt < op.limitCnt.toNat) :
    ((op.withCnt (.ofNat cnt)).run datas).flatMap Work.lines =
        ((nodesOf datas).take (op.limitCnt.toNat - cnt)).map .node ∧
      ∃ i k, ((op.withCnt (.ofNat cnt)).run datas).map Work.result =
          List.replicate i .available ++ .cancelMe :: List.replicate k .available ∧
        (op.limitCnt.toNat ≤ cnt + (nodesOf datas).length →
          cnt + (nodesOf (datas.take i)).length < op.limitCnt.toNat ∧
            op.limitCnt.toNat ≤ cnt + (nodesOf (datas.take (i + 1))).length) := by
  induction h generalizing op cnt with
  | last ns =>
      have heos := (toNat_eos_succ hu).2.mpr rfl
      simp only [run, op.doWork_eos hcnt hlast heos]
      refine ⟨by simp, 0, 0, rfl, fun hle => ?_⟩
      simp at hle
      omega
  | @userData ns u datas h ih =>
      simp only [run, op.doWork_userData hcnt]
      by_cases hlt : cnt + ns.length < op.limitCnt.toNat
      · simp only [hlt, if_true]
        obtain ⟨hlines, i, k, hresult, hi⟩ := ih hlast hu hlt
        have htake : ns.take (op.limitCnt.toNat - cnt) = ns := List.take_of_length_le (by omega)
        have hrest : op.limitCnt.toNat - cnt - ns.length =
            op.limitCnt.toNat - (cnt + ns.length) := by omega
        refine ⟨by simp [hlines, List.take_append, htake, hrest, -UInt32.ofNat_add], i + 1, k, ?_,
          fun hle => ?_⟩
        · rw [List.map_cons, hresult]
          rfl
        · have := hi (by simp at hle; omega)
          simp only [List.take_succ_cons, nodesOf_userData, List.length_append]
          omega
      · simp only [hlt, if_false]
        have hdone : (op.withCnt op.limitCnt).run datas = _ :=
          run_of_limit (UInt32.le_refl op.limitCnt) datas
        have hfull : op.limitCnt.toNat - cnt - ns.length = 0 := by omega
        rw [hdone]
        refine ⟨by simp [List.take_append, hfull], 0, datas.length, ?_, fun hle => ?_⟩
        · simp
        · simp
          omega
  | @eos ns u datas h ih =>
      obtain ⟨hsucc, hend⟩ := toNat_eos_succ hu
      have hpos := h.pos
      have heos : op.numRcvEos + 1 ≠ op.numUpstreams := fun heq => by
        have := hend.mp heq
        omega
      simp only [run, doWork_early_eos hcnt heos]
      have hcount : (op.numRcvEos + 1).toNat + u = op.numUpstreams.toNat := by omega
      obtain ⟨hlines, i, k, hresult, hi⟩ :=
        @ih { op with numRcvEos := op.numRcvEos + 1 } hlast hcount cnt hcnt
      refine ⟨by simpa using hlines, i + 1, k, ?_, fun hle => ?_⟩
      · rw [List.map_cons, hresult]
        rfl
      · have := hi (by simpa using hle)
        simpa using this

theorem length_run (op : LimitOp) (datas : List MessagePayload) :
    (op.run datas).length = datas.length := by
  induction datas generalizing op with
  | nil => rfl
  | cons data rest ih => rw [run, List.length_cons, ih, List.length_cons]

/-- The only element of its kind in a list. -/
theorem getElem?_single_iff {α : Type} {a c : α} (hac : a ≠ c) (i k j : Nat) :
    (List.replicate i a ++ c :: List.replicate k a)[j]? = some c ↔ j = i := by
  rcases Nat.lt_trichotomy j i with hlt | rfl | hgt
  · rw [List.getElem?_append_left (by simpa using hlt), List.getElem?_replicate, if_pos hlt]
    refine iff_of_false (fun h => hac (Option.some.inj h)) (by omega)
  · simp
  · obtain ⟨d, rfl⟩ : ∃ d, j = i + 1 + d := ⟨j - (i + 1), by omega⟩
    rw [List.getElem?_append_right (by simp; omega), List.length_replicate,
      show i + 1 + d - i = d + 1 by omega, List.getElem?_cons_succ, List.getElem?_replicate]
    refine iff_of_false (fun h => ?_) (by omega)
    split at h
    · exact hac (Option.some.inj h)
    · cases h

/-- **LIMIT stops right** if and only if its limit is not 0. -/
theorem limit_run_iff (hfresh : op.Fresh) (hlast : op.lastOp = true) {datas : List MessagePayload}
    (h : UpToLastEos op.numUpstreams.toNat datas) :
    op.StopsRight datas ↔ 1 ≤ op.limitCnt.toNat := by
  constructor
  · rintro ⟨-, i, -, hi, -⟩
    by_contra hzero
    have hlimit : op.limitCnt = 0 := UInt32.toNat_inj.mp (by show _ = 0; omega)
    have hcancel := (hi i).mpr rfl
    rw [run_of_limit (by rw [hfresh.cnt, hlimit]; exact UInt32.le_refl 0), List.getElem?_map,
      Option.map_map] at hcancel
    cases hdata : datas[i]? <;> simp [hdata] at hcancel
  · intro hpos
    have hop : op = op.withCnt (.ofNat 0) := by
      rw [withCnt]
      exact congrArg (fun cnt => { op with curCnt := cnt }) hfresh.cnt
    obtain ⟨hlines, i, k, hresult, hi⟩ := run_eq hlast h (by rw [hfresh.eos]; simp) hpos
    rw [← hop] at hlines hresult
    have hlen := congrArg List.length hresult
    simp only [List.length_map, length_run, List.length_append, List.length_replicate,
      List.length_cons] at hlen
    refine ⟨hlines, i, by omega, fun j => ?_, fun _ hle => by simpa using hi (by simpa using hle)⟩
    rw [← List.getElem?_map, hresult, getElem?_single_iff (by decide)]

/-- A limit of three that is reached inside the second payload: the hypotheses
of `limit_run_iff` can be met, and its condition too. -/
theorem limit_run_iff_two_payloads :
    StopsRight ⟨⟨[0, 0, 0, 0], 0, 1, true⟩, 3, 0⟩
      [⟨.userData, [⟨1, 0⟩, ⟨2, 0⟩]⟩, ⟨.userData, [⟨3, 0⟩, ⟨4, 0⟩]⟩, ⟨.eos, []⟩] := by
  have hfresh : Fresh ⟨⟨[0, 0, 0, 0], 0, 1, true⟩, 3, 0⟩ := ⟨rfl, rfl⟩
  exact (limit_run_iff hfresh rfl
    (.userData [⟨1, 0⟩, ⟨2, 0⟩] (.userData [⟨3, 0⟩, ⟨4, 0⟩] (.last [])))).mpr (by decide)

/-- A limit of 0 and one EOS: no call asks to be stopped. -/
theorem limit_zero_never_stops : ¬ ∀ (op : LimitOp) (datas : List MessagePayload), op.Fresh →
    op.lastOp = true → UpToLastEos op.numUpstreams.toNat datas → op.StopsRight datas := by
  intro hall
  obtain ⟨-, i, hlt, hi, -⟩ := hall ⟨⟨[0, 0, 0, 0], 0, 1, true⟩, 0, 0⟩ [⟨.eos, []⟩] ⟨rfl, rfl⟩ rfl
    (.last [])
  have hzero : i = 0 := by simpa using hlt
  have hcancel := (hi i).mpr rfl
  rw [hzero] at hcancel
  simp [run, doWork] at hcancel

end LimitOp

/-! ## the operators that are created -/

/-- What `process_mailbox` creates is fresh. -/
theorem fresh_of_newOperator {stringToUnsignedInt : String → UInt32} {addr : List UInt8}
    {code : Code} {op : Operator} (h : newOperator stringToUnsignedInt addr code = .ok (some op)) :
    match op with
    | .out op => op.Fresh
    | .limit op => op.Fresh := by
  have hbase : ∀ {d len base}, OperatorBase.new addr d len = .ok base → base.numRcvEos = 0 := by
    intro d len base hbase
    unfold OperatorBase.new at hbase
    split at hbase
    · cases hbase
      rfl
    · simp only at hbase
      split at hbase <;> cases hbase
      rfl
  unfold newOperator at h
  split at h
  · cases hnew : OperatorBase.new addr code.downstream addr.length with
    | error e => simp [hnew, bind, Except.bind] at h
    | ok base =>
        rw [hnew] at h
        cases h
        exact ⟨hbase hnew, rfl⟩
  · cases hnew : OperatorBase.new addr code.downstream addr.length with
    | error e => simp [hnew, bind, Except.bind] at h
    | ok base =>
        rw [hnew] at h
        cases h
        exact ⟨hbase hnew, rfl⟩
  · cases h

end LightQuery
