import LightQuery.Dataflow.Simulation
import LightQuery.Dataflow.Schedule

/-!
# LightQuery.Dataflow.Query

What a query computes over the radix tree.

The first result is about any USER messages for operators: every payload is
served once, in the order in which it was enqueued, until its operator asks to
be stopped.  The second one follows a query from the payloads for OUT to the
lines that LIMIT prints.
-/

namespace LightQuery

open State

variable {cfg : Config} {msgs : List TagMessage} {mem : Nat → UInt8} {build : Build}

/-! ## a run that has returned -/

/-- What is known when the run over the tree, and the one over the map that it
follows, have returned. -/
structure Finished (cfg : Config) (msgs : List TagMessage) (s : State (ArtTree Nat))
    (m : State (MapIndex Nat)) : Prop extends Follows cfg msgs s m where
  returned : Returned m
  queue : m.taskQueue = []
  mailbox : m.mailbox = []
  idle : ∀ i a, m.Holds i a → a.mailbox = []

theorem finished_of_returns (h : ∀ msg ∈ msgs, msg.ToOperator) {s : State (ArtTree Nat)}
    (hs : Machine.Returns Returned (step (radixIndex mem build) cfg)
      (State.start ArtTree.init msgs) s) : ∃ m, Finished cfg msgs s m := by
  obtain ⟨m, hsteps, hfol⟩ := follows_of_steps mem build h hs.1
  have hret := hfol.returned_iff.mp hs.2
  obtain ⟨hqueue, hbox, hidle⟩ := (run_returns cfg fun msg hmsg => .inl (h msg hmsg)).2 m
    ⟨hsteps, hret⟩
  exact ⟨m, hfol, hret, hqueue, hbox, hidle⟩

namespace Finished

variable {s : State (ArtTree Nat)} {m : State (MapIndex Nat)}

theorem processed_map (h : Finished cfg msgs s m) (addr : List UInt8) :
    processed s addr = processed m addr := by
  rw [h.rest]
  rfl

theorem enqueued_map (h : Finished cfg msgs s m) : s.enqueued = m.enqueued := by
  rw [h.rest]
  rfl

/-- Every payload is served until the operator asks to be stopped. -/
theorem processed_eq (h : Finished cfg msgs s m) {addr : List UInt8} {op : Operator}
    (hop : createdOp cfg.stringToUnsignedInt addr = .ok (some op)) :
    processed s addr = untilCancel cfg.getOutV op (payloadsFor addr s.enqueued) := by
  rw [h.processed_map, h.enqueued_map]
  exact h.delivered.processed_eq h.inv h.mailbox h.idle hop

/-- The payloads for OUT come from the outside. -/
theorem processed_outAddr (h : Finished cfg msgs s m) (x y : UInt8) :
    processed s (outAddr x y) =
      untilCancel cfg.getOutV (.out (outAt x y)) (payloadsFor (outAddr x y) msgs) := by
  rw [h.processed_eq (createdOp_outAddr _ x y), h.enqueued_map, h.delivered.outSource]

/-- The payloads for LIMIT come from the outside and then from OUT. -/
theorem payloadsFor_limitAddr (h : Finished cfg msgs s m) (x y : UInt8) :
    payloadsFor (limitAddr x y) s.enqueued =
      payloadsFor (limitAddr x y) msgs ++ payloadsFor (limitAddr x y)
        (sentBy cfg.getOutV (.out (outAt x y)) (processed s (outAddr x y))) := by
  rw [h.processed_map, h.enqueued_map, h.delivered.limitSource]

/-- There are no other actors. -/
theorem processed_eq_nil (h : Finished cfg msgs s m) {addr : List UInt8}
    (haddr : ¬ ∃ x y, addr = outAddr x y ∨ addr = limitAddr x y) : processed s addr = [] := by
  rw [h.processed_map]
  refine LightQuery.processed_eq_nil fun i a hi ha => haddr ?_
  obtain ⟨x, y, hform⟩ := (h.delivered.actor i a hi).form
  exact ⟨x, y, ha ▸ hform⟩

/-- An actor that is not stopped has worked off its mailbox. -/
theorem mailbox_eq_nil (h : Finished cfg msgs s m) {i : Nat} {a : Actor}
    (hi : m.actors[i]? = some a) (ht : a.terminating = false) : a.mailbox = [] :=
  h.idle i a ⟨hi, (h.inv.actor i a hi).deleted_eq ht⟩

/-- An actor that is stopped is deleted. -/
theorem deleted_of_terminating (h : Finished cfg msgs s m) {i : Nat} {a : Actor}
    (hi : m.actors[i]? = some a) (ht : a.terminating = true) : a.deleted = true := by
  have ha := h.inv.actor i a hi
  have hret : m.pc = .returned := h.returned
  cases hd : a.deleted with
  | true => rfl
  | false =>
      -- it would be queued
      have hmem := ha.queued.mpr ⟨(ha.stopped ht).1, hd, by simp [hret]⟩
      rw [h.queue] at hmem
      cases hmem

end Finished

/-! ## delivery -/

/-- **Exactly once, in order, whatever the clock says.**  No two actors have one
address; when the run returns, the payloads that an actor was given are those
of the messages enqueued for it, in order, up to the one on which it asked to
be stopped; and another clock makes no difference to them. -/
theorem exactly_once_in_order (mem : Nat → UInt8) (build : Build) (cfg : Config)
    {msgs : List TagMessage} (h : ∀ msg ∈ msgs, msg.ToOperator) :
    (∀ s, Machine.Steps Returned (step (radixIndex mem build) cfg)
      (State.start ArtTree.init msgs) s → (s.actors.map Actor.address).Nodup) ∧
    (∃ s, Machine.Returns Returned (step (radixIndex mem build) cfg)
      (State.start ArtTree.init msgs) s) ∧
    ∀ s, Machine.Returns Returned (step (radixIndex mem build) cfg)
      (State.start ArtTree.init msgs) s →
      (∀ addr op, createdOp cfg.stringToUnsignedInt addr = .ok (some op) →
        processed s addr = untilCancel cfg.getOutV op (payloadsFor addr s.enqueued)) ∧
      ∀ clock s', Machine.Returns Returned
        (step (radixIndex mem build) { cfg with clock := clock }) (State.start ArtTree.init msgs) s' →
        ∀ addr, processed s' addr = processed s addr := by
  refine ⟨fun s hs => ?_, exists_returns mem build cfg h, fun s hs => ?_⟩
  · obtain ⟨m, -, hfol⟩ := follows_of_steps mem build h hs
    rw [hfol.rest]
    exact hfol.inv.addr_nodup
  · obtain ⟨m, hfin⟩ := finished_of_returns h hs
    refine ⟨fun addr op => hfin.processed_eq, fun clock s' hs' addr => ?_⟩
    obtain ⟨m', hfin'⟩ := finished_of_returns h hs'
    -- OUT sees the same in both runs, so LIMIT does
    have hout : ∀ x y, processed s' (outAddr x y) = processed s (outAddr x y) := fun x y =>
      (hfin'.processed_outAddr x y).trans (hfin.processed_outAddr x y).symm
    by_cases haddr : ∃ x y, addr = outAddr x y ∨ addr = limitAddr x y
    · obtain ⟨x, y, rfl | rfl⟩ := haddr
      · exact hout x y
      · rw [hfin.processed_eq (createdOp_limitAddr _ x y), hfin.payloadsFor_limitAddr,
          hfin'.processed_eq (createdOp_limitAddr _ x y), hfin'.payloadsFor_limitAddr, hout]
    · rw [hfin.processed_eq_nil haddr, hfin'.processed_eq_nil haddr]

/-- A message with the EOS for OUT of dataflow 7. -/
def lastFor : TagMessage := ⟨.user, TagMessage.writeAddrs (outAddr 7 0), some ⟨.eos, []⟩⟩

theorem lastFor_toOperator : lastFor.ToOperator :=
  ⟨rfl, ⟨_, rfl⟩, 7, 0, .inl (TagMessage.address_writeAddrs (by decide))⟩

/-- A node and an EOS: `exactly_once_in_order` on what LIMIT is given. -/
theorem exactly_once_in_order_chain :
    ∃ s, Machine.Returns Returned (step (radixIndex (fun _ => 0) .sse2) chain)
        (State.start ArtTree.init [nodesFor [⟨1, 1⟩], lastFor]) s ∧
      processed s (limitAddr 7 0) = [⟨.userData, [⟨2, 1⟩]⟩, ⟨.eos, []⟩] := by
  have hmsgs : ∀ msg ∈ [nodesFor [⟨1, 1⟩], lastFor], msg.ToOperator := by
    intro msg hmsg
    rcases List.mem_pair.mp hmsg with rfl | rfl
    · exact nodesFor_toOperator _
    · exact lastFor_toOperator
  obtain ⟨-, -, hmain⟩ := exactly_once_in_order (fun _ => 0) .sse2 chain hmsgs
  obtain ⟨s, hsteps, hs⟩ : ∃ s, Machine.Steps Returned (step (radixIndex (fun _ => 0) .sse2) chain)
      (State.start ArtTree.init [nodesFor [⟨1, 1⟩], lastFor]) s ∧
      (s.pc == .returned && payloadsFor (limitAddr 7 0) s.enqueued ==
        [⟨.userData, [⟨2, 1⟩]⟩, ⟨.eos, []⟩]) = true :=
    Machine.exists_steps_of_iterate (n := 40) (by decide +kernel)
  simp only [Bool.and_eq_true, beq_iff_eq] at hs
  refine ⟨s, ⟨hsteps, hs.1⟩, ?_⟩
  rw [(hmain s ⟨hsteps, hs.1⟩).1 _ _ (createdOp_limitAddr _ 7 0), hs.2]
  decide

/-! ## from OUT to LIMIT -/

/-- The messages of a query: payloads of nodes and an EOS, all for one OUT. -/
structure Query (x y : UInt8) (nss : List (List LightNode)) (last : List LightNode)
    (msgs : List TagMessage) : Prop where
  user : ∀ msg ∈ msgs, msg.type = .user ∧ msg.address = outAddr x y
  payload : msgs.map TagMessage.payload = (nodesThenEos nss last).map some

namespace Query

variable {x y : UInt8} {nss : List (List LightNode)} {last : List LightNode}
  {s : State (ArtTree Nat)} {m : State (MapIndex Nat)}

theorem toOperator (h : Query x y nss last msgs) : ∀ msg ∈ msgs, msg.ToOperator := by
  intro msg hmsg
  obtain ⟨htype, haddr⟩ := h.user msg hmsg
  have hmem := List.mem_map_of_mem (f := TagMessage.payload) hmsg
  rw [h.payload] at hmem
  obtain ⟨data, -, hdata⟩ := List.mem_map.mp hmem
  exact ⟨htype, ⟨data, hdata.symm⟩, x, y, .inl haddr⟩

/-- OUT is given all of the messages. -/
theorem processed_outAddr (h : Query x y nss last msgs) (hfin : Finished cfg msgs s m) :
    processed s (outAddr x y) = nodesThenEos nss last := by
  rw [hfin.processed_outAddr, payloadsFor_eq_of_forall h.user h.payload]
  exact untilCancel_outAt x y nss last

/-- The payloads that reach an address: the query's, those of its OUT, and none
for other dataflows. -/
theorem payloadsFor_enqueued (h : Query x y nss last msgs) (hfin : Finished cfg msgs s m) :
    payloadsFor (outAddr x y) m.enqueued = nodesThenEos nss last ∧
      (∃ mss, payloadsFor (limitAddr x y) m.enqueued = nodesThenEos mss [] ∧
        mss.flatten = nss.flatten.flatMap ((outAt x y).outNodes cfg.getOutV)) ∧
      ∀ x' y', outAddr x' y' ≠ outAddr x y → payloadsFor (outAddr x' y') m.enqueued = [] ∧
        payloadsFor (limitAddr x' y') m.enqueued = [] := by
  have hnone : ∀ addr, addr ≠ outAddr x y → payloadsFor addr msgs = [] := fun addr hne =>
    payloadsFor_eq_nil fun msg hmsg ha => hne (ha.symm.trans (h.user msg hmsg).2)
  refine ⟨?_, ?_, fun x' y' hne => ⟨?_, ?_⟩⟩
  · rw [hfin.delivered.outSource, payloadsFor_eq_of_forall h.user h.payload]
  · rw [← hfin.enqueued_map, hfin.payloadsFor_limitAddr, h.processed_outAddr hfin,
      hnone _ (outAddr_ne_limitAddr x y x y).symm, List.nil_append]
    exact payloadsFor_sentBy_outAt x y nss last
  · rw [hfin.delivered.outSource, hnone _ hne]
  · rw [← hfin.enqueued_map, hfin.payloadsFor_limitAddr, hfin.processed_outAddr, hnone _ hne,
      hnone _ (outAddr_ne_limitAddr x y x' y').symm]
    rfl

/-- There are two actors. -/
theorem exists_actor_iff (h : Query x y nss last msgs) (hfin : Finished cfg msgs s m)
    (addr : List UInt8) : (∃ a ∈ m.actors, a.address = addr) ↔
      addr = outAddr x y ∨ addr = limitAddr x y := by
  obtain ⟨hout, ⟨mss, hlimit, -⟩, hother⟩ := h.payloadsFor_enqueued hfin
  constructor
  · rintro ⟨a, ha, rfl⟩
    obtain ⟨i, hi⟩ := List.mem_iff_getElem?.mp ha
    have hact := hfin.delivered.actor i a hi
    by_contra hne
    obtain ⟨hno, hnl⟩ := not_or.mp hne
    obtain ⟨x', y', hform | hform⟩ := hact.form
    · have := (hother x' y' (hform ▸ hno)).1
      exact hact.mailed (hform ▸ this)
    · have := (hother x' y' fun heq => hnl (hform.trans (limitAddr_inj.mpr heq))).2
      exact hact.mailed (hform ▸ this)
  · intro haddr
    by_contra hno
    have habs := hfin.delivered.absent addr fun i a hi ha =>
      hno ⟨a, List.mem_of_getElem? hi, ha⟩
    rw [hfin.mailbox, payloadsFor_nil] at habs
    rcases haddr with rfl | rfl
    · rw [hout] at habs
      simp [nodesThenEos] at habs
    · rw [hlimit] at habs
      simp [nodesThenEos] at habs

/-- Both actors have been stopped and deleted. -/
theorem stopped (h : Query x y nss last msgs) (hfin : Finished cfg msgs s m)
    (hpos : 0 < cfg.limitCnt.toNat) {i : Nat} {a : Actor} (hi : m.actors[i]? = some a) :
    a.terminating = true ∧ a.deleted = true := by
  obtain ⟨hout, ⟨mss, hlimit, -⟩, -⟩ := h.payloadsFor_enqueued hfin
  have ht : a.terminating = true := by
    rcases (h.exists_actor_iff hfin a.address).mp ⟨a, List.mem_of_getElem? hi, rfl⟩ with ha | ha
    · have hop := createdOp_outAddr cfg.stringToUnsignedInt x y
      rw [← ha] at hop
      rw [hfin.delivered.terminating_eq hfin.mailbox hi (hfin.mailbox_eq_nil hi) hop, ha, hout]
      exact cancels_outAt x y nss last
    · have hop := createdOp_limitAddr cfg.stringToUnsignedInt x y
      rw [← ha] at hop
      rw [hfin.delivered.terminating_eq hfin.mailbox hi (hfin.mailbox_eq_nil hi) hop, ha, hlimit]
      exact cancels_limitAt hpos mss []
  exact ⟨ht, hfin.deleted_of_terminating hi ht⟩

/-- The lines of an actor are those of the payloads that it was given. -/
theorem linesOf_eq (hfin : Finished cfg msgs s m) {i : Nat} {a : Actor}
    (hi : m.actors[i]? = some a) {op : Operator}
    (hop : createdOp cfg.stringToUnsignedInt a.address = .ok (some op)) :
    linesOf m.cout i = printedBy cfg.getOutV op (processed s a.address) := by
  obtain ⟨-, hlines⟩ := (hfin.delivered.actor i a hi).of_createdOp hop
  rw [hlines, hfin.processed_map, processed_eq hfin.inv.addr_nodup hi]

/-- **What is printed**: LIMIT prints the results of OUT up to its limit. -/
theorem cout_eq (h : Query x y nss last msgs) (hfin : Finished cfg msgs s m)
    (hpos : 0 < cfg.limitCnt.toNat) {i : Nat} {a : Actor} (hi : m.actors[i]? = some a)
    (ha : a.address = limitAddr x y) :
    m.cout = ((nss.flatten.flatMap ((outAt x y).outNodes cfg.getOutV)).take
      cfg.limitCnt.toNat).map fun n => (some i, .node n) := by
  obtain ⟨-, ⟨mss, hlimit, hresults⟩, -⟩ := h.payloadsFor_enqueued hfin
  have honly : ∀ e ∈ m.cout, e.1 = some i := by
    intro e he
    obtain ⟨j, hj, hej⟩ := hfin.delivered.lines e he
    have hget := List.getElem?_eq_getElem hj
    rcases (h.exists_actor_iff hfin _).mp ⟨_, List.getElem_mem hj, rfl⟩ with haddr | haddr
    · -- OUT prints nothing
      have hmem := mem_linesOf he hej
      have hop := createdOp_outAddr cfg.stringToUnsignedInt x y
      rw [← haddr] at hop
      rw [linesOf_eq hfin hget hop, haddr, h.processed_outAddr hfin] at hmem
      rw [printedBy_outAt] at hmem
      cases hmem
    · rw [hej, hfin.inv.eq_of_address hget hi (haddr.trans ha.symm)]
  have hop := createdOp_limitAddr cfg.stringToUnsignedInt x y
  have hlines := linesOf_eq hfin hi (ha ▸ hop)
  rw [ha, hfin.processed_eq hop, hfin.enqueued_map, hlimit] at hlines
  have hprints : linesOf m.cout i = (mss.flatten.take cfg.limitCnt.toNat).map .node :=
    hlines.trans (printedBy_limitAt hpos mss [])
  rw [eq_map_linesOf honly, hprints, hresults, List.map_map]
  rfl

/-- The two actors are OUT and LIMIT. -/
theorem actors_perm (h : Query x y nss last msgs) (hfin : Finished cfg msgs s m) :
    (m.actors.map fun a => (a.address, a.op.opName)).Perm
      [(outAddr x y, .out), (limitAddr x y, .limit)] := by
  have hname : ∀ a ∈ m.actors, ∀ op,
      createdOp cfg.stringToUnsignedInt a.address = .ok (some op) → a.op.opName = op.opName := by
    intro a ha op hop
    obtain ⟨i, hi⟩ := List.mem_iff_getElem?.mp ha
    obtain ⟨hserves, -⟩ := (hfin.delivered.actor i a hi).of_createdOp hop
    exact hserves.opName_eq
  have hout : ∀ a ∈ m.actors, a.address = outAddr x y → a.op.opName = .out := fun a ha haddr =>
    hname a ha (.out (outAt x y)) (haddr ▸ createdOp_outAddr _ x y)
  have hlimit : ∀ a ∈ m.actors, a.address = limitAddr x y → a.op.opName = .limit :=
    fun a ha haddr => hname a ha (.limit (limitAt cfg.limitCnt)) (haddr ▸ createdOp_limitAddr _ x y)
  have hnodup : (m.actors.map fun a => (a.address, a.op.opName)).Nodup := by
    refine List.Nodup.of_map Prod.fst ?_
    rw [List.map_map]
    exact hfin.inv.addr_nodup
  refine (List.perm_ext_iff_of_nodup hnodup (by simp)).mpr fun ⟨addr, name⟩ => ?_
  rw [List.mem_map, List.mem_pair, Prod.mk.injEq, Prod.mk.injEq]
  constructor
  · rintro ⟨a, ha, hpair⟩
    obtain ⟨rfl, rfl⟩ := Prod.mk.inj hpair
    rcases (h.exists_actor_iff hfin _).mp ⟨a, ha, rfl⟩ with haddr | haddr
    · exact .inl ⟨haddr, hout a ha haddr⟩
    · exact .inr ⟨haddr, hlimit a ha haddr⟩
  · rintro (⟨rfl, rfl⟩ | ⟨rfl, rfl⟩)
    · obtain ⟨a, ha, haddr⟩ := (h.exists_actor_iff hfin _).mpr (.inl rfl)
      exact ⟨a, ha, by rw [haddr, hout a ha haddr]⟩
    · obtain ⟨a, ha, haddr⟩ := (h.exists_actor_iff hfin _).mpr (.inr rfl)
      exact ⟨a, ha, by rw [haddr, hlimit a ha haddr]⟩

/-- The addresses of stopped actors look up as disabled. -/
theorem lookup_eq (h : Query x y nss last msgs) (hfin : Finished cfg msgs s m)
    (hpos : 0 < cfg.limitCnt.toNat) {addr : List UInt8}
    (haddr : addr = outAddr x y ∨ addr = limitAddr x y) :
    (radixIndex mem build).lookup s.actorTree addr = .ok (-1, none) := by
  obtain ⟨a, ha, rfl⟩ := (h.exists_actor_iff hfin addr).mpr haddr
  obtain ⟨i, hi⟩ := List.mem_iff_getElem?.mp ha
  have hcov := (hfin.inv.actor i a hi).covered (.inl (h.stopped hfin hpos hi).1)
  have hlook : (radixIndex mem build).lookup s.actorTree a.address =
      .ok (m.actorTree.lookup a.address) := hfin.tree.lookup_eq mem a.address
  rw [hlook, MapIndex.lookup, if_pos hcov]

end Query

/-- **The result of a query.**  Nodes for OUT and an EOS: when the run returns,
LIMIT has printed the first nodes of the concatenated results, up to its limit,
and nothing else is printed; OUT and LIMIT were created, stopped and deleted,
their addresses are disabled, and nothing is left to do. -/
theorem query_result (mem : Nat → UInt8) (build : Build) (cfg : Config) {x y : UInt8}
    {nss : List (List LightNode)} {last : List LightNode} {msgs : List TagMessage}
    (h : Query x y nss last msgs)
    (hpos : 1 ≤ (cfg.stringToUnsignedInt codeLimit.params).toNat) :
    (∃ s, Machine.Returns Returned (step (radixIndex mem build) cfg)
      (State.start ArtTree.init msgs) s) ∧
    ∀ s, Machine.Returns Returned (step (radixIndex mem build) cfg)
      (State.start ArtTree.init msgs) s →
      (∃ limit, s.actors[limit]?.map Actor.address = some (limitAddr x y) ∧
        s.cout = ((nss.flatten.flatMap fun n =>
          cfg.getOutV n.vertex codeOut.params n.time timeWeight maxTime).take
            (cfg.stringToUnsignedInt codeLimit.params).toNat).map fun n => (some limit, .node n)) ∧
      (s.actors.map fun a => (a.address, a.op.opName)).Perm
        [(outAddr x y, .out), (limitAddr x y, .limit)] ∧
      (∀ a ∈ s.actors, a.terminating = true ∧ a.deleted = true) ∧
      (∀ addr ∈ [outAddr x y, limitAddr x y],
        (radixIndex mem build).lookup s.actorTree addr = .ok (-1, none)) ∧
      s.mailbox = [] ∧ s.taskQueue = [] ∧ s.numTerminatingChildren = 0 := by
  refine ⟨exists_returns mem build cfg h.toOperator, fun s hs => ?_⟩
  obtain ⟨m, hfin⟩ := finished_of_returns h.toOperator hs
  have hstopped : ∀ a ∈ m.actors, a.terminating = true ∧ a.deleted = true := by
    intro a ha
    obtain ⟨i, hi⟩ := List.mem_iff_getElem?.mp ha
    exact h.stopped hfin hpos hi
  have hlook : ∀ addr ∈ [outAddr x y, limitAddr x y],
      (radixIndex mem build).lookup s.actorTree addr = .ok (-1, none) := fun addr haddr =>
    h.lookup_eq hfin hpos (List.mem_pair.mp haddr)
  obtain ⟨a, ha, haddr⟩ := (h.exists_actor_iff hfin _).mpr (.inr rfl)
  obtain ⟨limit, hlimit⟩ := List.mem_iff_getElem?.mp ha
  have hcout := h.cout_eq hfin hpos hlimit haddr
  have hcount : m.numTerminatingChildren = 0 := by
    have hzero : m.actors.countP Actor.stopping = 0 := List.countP_eq_zero.mpr fun a ha => by
      simp [Actor.stopping, (hstopped a ha).2]
    rw [hfin.inv.count, hzero]
    rfl
  -- but for the index the two states are one
  rw [hfin.rest]
  exact ⟨⟨limit, by simp [withTree, hlimit, haddr], hcout⟩, h.actors_perm hfin, hstopped, hlook,
    hfin.mailbox, hfin.queue, hcount⟩

/-- Six nodes and a limit of five: the hypotheses of `query_result` can be met. -/
theorem query_result_chain :
    ∃ s, Machine.Returns Returned (step (radixIndex (fun _ => 0) .sse2) chain)
        (State.start ArtTree.init
          [nodesFor [⟨1, 1⟩, ⟨2, 2⟩, ⟨3, 3⟩], nodesFor [⟨4, 4⟩, ⟨5, 5⟩, ⟨6, 6⟩], lastFor]) s ∧
      s.cout.map Prod.snd = [.node ⟨2, 1⟩, .node ⟨3, 2⟩, .node ⟨4, 3⟩, .node ⟨5, 4⟩,
        .node ⟨6, 5⟩] := by
  have hquery : Query 7 0 [[⟨1, 1⟩, ⟨2, 2⟩, ⟨3, 3⟩], [⟨4, 4⟩, ⟨5, 5⟩, ⟨6, 6⟩]] []
      [nodesFor [⟨1, 1⟩, ⟨2, 2⟩, ⟨3, 3⟩], nodesFor [⟨4, 4⟩, ⟨5, 5⟩, ⟨6, 6⟩], lastFor] := by
    refine ⟨fun msg hmsg => ?_, rfl⟩
    simp only [List.mem_cons, List.not_mem_nil, or_false] at hmsg
    rcases hmsg with rfl | rfl | rfl <;>
      exact ⟨rfl, TagMessage.address_writeAddrs (by decide)⟩
  obtain ⟨⟨s, hs⟩, hmain⟩ := query_result (fun _ => 0) .sse2 chain hquery (by decide)
  obtain ⟨⟨limit, -, hcout⟩, -⟩ := hmain s hs
  refine ⟨s, hs, ?_⟩
  rw [hcout]
  rfl

end LightQuery
