import LightQuery.Dataflow.Accounting

/-!
# LightQuery.Dataflow.Cases

What one step can do over the map index.

`StepCase` lists the outcomes of a step together with what is known when they
come about, and `step_cases` says that a step of a dataflow that keeps the
invariant is one of them and keeps it.  Whatever else is proved of all runs
goes through these cases and not through the code.
-/

namespace LightQuery

open State

/-! ## outcomes -/

variable {σ : Type}

namespace State

/-- All the actors behind the pointers are stopped. -/
def stopAll (s : State σ) : List Nat → State σ
  | [] => s
  | i :: is =>
      match s.actors[i]? with
      | some a => (s.stop i a).stopAll is
      | none => s.stopAll is

@[simp] theorem stopAll_pc (s : State σ) (is : List Nat) : (s.stopAll is).pc = s.pc := by
  induction is generalizing s with
  | nil => rfl
  | cons i is ih =>
      rw [stopAll]
      split
      · rw [ih]
        rfl
      · exact ih s

/-- A scope is disabled and its actors are stopped. -/
def cancelScope (s : State (MapIndex Nat)) (p : List UInt8) : State (MapIndex Nat) :=
  { s with actorTree := s.actorTree.disable p }.stopAll (s.actorTree.scope p)

/-- An actor's slice begins. -/
def beginRun (s : State σ) (i : Nat) (a : Actor) (queue : List Nat) (count reads : Nat) : State σ :=
  { s with
    executionCount := count
    clockReads := reads
    taskQueue := queue
    pc := .running i
    actors := s.actors.set i { a with executionCount := 0 } }

/-- The running actor after a call of `do_work` on the head of its mailbox. -/
def worker (a : Actor) (rest : List TagMessage) (data : MessagePayload) (w : Work Operator)
    (count : Nat) : Actor :=
  { a with executionCount := count, mailbox := rest, op := w.op, served := a.served ++ [data] }

/-- The dataflow after a call of `do_work`. -/
def worked (s : State σ) (i : Nat) (a : Actor) (rest : List TagMessage) (data : MessagePayload)
    (w : Work Operator) (count reads : Nat) : State σ :=
  { s with
    clockReads := reads
    actors := s.actors.set i (worker a rest data w count)
    cout := s.cout ++ w.lines.map fun line => (some i, line)
    mailbox := s.mailbox ++ w.sent
    enqueued := s.enqueued ++ w.sent }

/-- The running actor's end. -/
def deleteChild (s : State σ) (i : Nat) (a : Actor) : State σ :=
  { s with
    pc := .tasks
    numTerminatingChildren := s.numTerminatingChildren - 1
    actors := s.actors.set i { a with deleted := true } }

/-- The running actor goes idle. -/
def idleChild (s : State σ) (i : Nat) (a : Actor) : State σ :=
  { s with pc := .tasks, actors := s.actors.set i { a with isActive := false } }

/-- The running actor's slice is over. -/
def requeueChild (s : State σ) (i : Nat) (a : Actor) (reads : Nat) : State σ :=
  { s with clockReads := reads, pc := .tasks }.wake i
    { a with executionCount := 0, isActive := false }

end State

/-- The outcomes of a step. -/
inductive StepCase (cfg : Config) (s : State (MapIndex Nat)) :
    State (MapIndex Nat) → Prop
  /-- a USER message of a disabled address, or a cancellation of the whole dataflow -/
  | discard (msg : TagMessage) (rest : List TagMessage) (hpc : s.pc = .mailbox)
      (hbox : s.mailbox = msg :: rest) (hcov : msg.ToOperator → s.actorTree.Covers msg.address) :
      StepCase cfg s { s with mailbox := rest }
  | deliver (msg : TagMessage) (rest : List TagMessage) (i : Nat) (a : Actor)
      (hpc : s.pc = .mailbox) (hbox : s.mailbox = msg :: rest) (hmsg : msg.ToOperator)
      (hi : s.Holds i a) (ht : a.terminating = false) (haddr : msg.address = a.address) :
      StepCase cfg s
        ({ s with mailbox := rest }.wake i { a with mailbox := a.mailbox ++ [msg] })
  | create (msg : TagMessage) (rest : List TagMessage) (op : Operator)
      (hpc : s.pc = .mailbox) (hbox : s.mailbox = msg :: rest) (hmsg : msg.ToOperator)
      (hcov : ¬ s.actorTree.Covers msg.address) (hget : s.actorTree.get msg.address = none)
      (hop : createdOp cfg.stringToUnsignedInt msg.address = .ok (some op))
      (hat : OperatorAt (cfg.stringToUnsignedInt codeLimit.params) msg.address op) :
      StepCase cfg s
        (({ s with mailbox := rest }.create msg.address op).wake s.actors.length
          { address := msg.address, op := op, mailbox := [msg] })
  | cancel (msg : TagMessage) (rest : List TagMessage) (hpc : s.pc = .mailbox)
      (hbox : s.mailbox = msg :: rest) (hmsg : msg.type = .cancelScope)
      (hlen : msg.addrLen > cfg.addrLen) :
      StepCase cfg s ({ s with mailbox := rest }.cancelScope msg.address)
  | schedule (hpc : s.pc = .mailbox) (hbox : s.mailbox = []) : StepCase cfg s { s with pc := .tasks }
  | finish (hpc : s.pc = .tasks) (hqueue : s.taskQueue = []) (hbox : s.mailbox = []) :
      StepCase cfg s { s with pc := .returned }
  | poll (hpc : s.pc = .tasks) (hqueue : s.taskQueue = []) (hbox : s.mailbox ≠ []) :
      StepCase cfg s { s with pc := .mailbox }
  | expire (hpc : s.pc = .tasks) (hqueue : s.taskQueue ≠ [])
      (hcount : ¬ s.executionCount + 1 < defaultExecutionInterval) (reads : Nat) :
      StepCase cfg s { s with executionCount := 0, clockReads := reads, pc := .mailbox }
  | begin (i : Nat) (a : Actor) (queue : List Nat) (count reads : Nat) (hpc : s.pc = .tasks)
      (hqueue : s.taskQueue = i :: queue) (hi : s.Holds i a) :
      StepCase cfg s (s.beginRun i a queue count reads)
  | work (i : Nat) (a : Actor) (msg : TagMessage) (rest : List TagMessage) (data : MessagePayload)
      (w : Work Operator) (count reads : Nat) (hpc : s.pc = .running i) (hi : s.Holds i a)
      (ht : a.terminating = false) (hbox : a.mailbox = msg :: rest)
      (hdata : msg.payload = some data) (hwork : a.op.doWork cfg.getOutV data = .ok w)
      (hres : w.result ≠ .cancelMe) :
      StepCase cfg s (s.worked i a rest data w count reads)
  | lastWork (i : Nat) (a : Actor) (msg : TagMessage) (rest : List TagMessage)
      (data : MessagePayload) (w : Work Operator) (count reads : Nat) (hpc : s.pc = .running i)
      (hi : s.Holds i a) (ht : a.terminating = false) (hbox : a.mailbox = msg :: rest)
      (hdata : msg.payload = some data) (hwork : a.op.doWork cfg.getOutV data = .ok w)
      (hres : w.result = .cancelMe) :
      StepCase cfg s
        ({ s.worked i a rest data w count reads with
          actorTree := s.actorTree.disable a.address }.stop i (worker a rest data w count))
  | delete (i : Nat) (a : Actor) (hpc : s.pc = .running i) (hi : s.Holds i a)
      (ht : a.terminating = true) : StepCase cfg s (s.deleteChild i a)
  | idle (i : Nat) (a : Actor) (hpc : s.pc = .running i) (hi : s.Holds i a)
      (ht : a.terminating = false) (hbox : a.mailbox = []) : StepCase cfg s (s.idleChild i a)
  | requeue (i : Nat) (a : Actor) (hpc : s.pc = .running i) (hi : s.Holds i a)
      (ht : a.terminating = false) (hbox : a.mailbox ≠ [])
      (hcount : ¬ a.executionCount + 1 < defaultExecutionInterval) (reads : Nat) :
      StepCase cfg s (s.requeueChild i a reads)

/-! ## the invariant in every outcome -/

section Invariant

variable {limitCnt : UInt32} {pending : List Nat} {s : State (MapIndex Nat)} {i : Nat} {a : Actor}

/-- The fields that the invariant does not read may change. -/
theorem Inv.congr {s' : State (MapIndex Nat)} (h : Inv limitCnt pending s)
    (hactors : s'.actors = s.actors) (htree : s'.actorTree = s.actorTree)
    (hqueue : s'.taskQueue = s.taskQueue)
    (hpc : ∀ j, s'.pc = .running j ↔ s.pc = .running j) (hmail : ∀ m ∈ s'.mailbox, Accepted m)
    (hcount : s'.numTerminatingChildren = s.numTerminatingChildren) : Inv limitCnt pending s' := by
  refine ⟨?_, hmail, hqueue ▸ h.queue_nodup, ?_, ?_, h.pending_nodup, ?_, ?_, ?_, ?_, ?_, ?_⟩
  · intro i a ha
    have hi := h.actor i a (hactors ▸ ha)
    exact { hi with
      queued := by rw [hqueue, hi.queued, Ne, Ne, hpc]
      running := fun hr => hi.running ((hpc i).mp hr)
      covered := fun hp => htree ▸ hi.covered hp
      live := fun addr => by rw [htree, hi.live] }
  · exact fun i hi => hactors ▸ h.queue_lt i (hqueue ▸ hi)
  · exact fun i hi => hactors ▸ h.running_lt i ((hpc i).mp hi)
  · exact fun i hi => hactors ▸ h.pending_lt i hi
  · exact fun addr i hi => hactors ▸ h.live_lt addr i (htree ▸ hi)
  · exact fun addr i hi => htree ▸ h.uncovered addr i (htree ▸ hi)
  · exact htree ▸ h.live_nodup
  · exact hactors ▸ h.addr_nodup
  · rw [hcount, h.count, hactors]

/-- A pending actor is there. -/
theorem Inv.exists_holds (h : Inv limitCnt pending s) (hi : i ∈ pending) :
    ∃ a, s.Holds i a ∧ a.terminating = false := by
  have hterm : ∀ a, s.actors[i]? = some a → a.terminating = false := fun a ha =>
    (h.actor i a ha).waits hi
  obtain ⟨a, ha⟩ := h.holds_of_lt (h.pending_lt i hi) hterm
  exact ⟨a, ha, hterm a ha.1⟩

/-- A stored actor is there. -/
theorem Inv.holds_of_live (h : Inv limitCnt pending s) {addr : List UInt8}
    (hlive : (addr, i) ∈ s.actorTree.live) :
    ∃ a, s.Holds i a ∧ a.terminating = false ∧ addr = a.address := by
  have hactor : ∀ a, s.actors[i]? = some a → addr = a.address ∧ a.terminating = false := by
    intro a ha
    obtain ⟨haddr, ht, -⟩ := ((h.actor i a ha).live addr).mp hlive
    exact ⟨haddr, ht⟩
  obtain ⟨a, ha⟩ := h.holds_of_lt (h.live_lt addr i hlive) fun a ha => (hactor a ha).2
  exact ⟨a, ha, (hactor a ha.1).2, (hactor a ha.1).1⟩

/-- **The callbacks of a cancellation** stop all pending actors. -/
theorem Inv.stopAll (h : Inv limitCnt pending s) :
    pending.foldlM stopFunc s = .ok (s.stopAll pending) ∧ Inv limitCnt [] (s.stopAll pending) := by
  induction pending generalizing s with
  | nil => exact ⟨rfl, h⟩
  | cons i is ih =>
      obtain ⟨a, hi, ht⟩ := h.exists_holds List.mem_cons_self
      obtain ⟨hfold, hinv⟩ := ih (h.stop hi)
      have hstop : stopFunc s i = .ok (s.stop i a) := by
        have hs : State.Holds
            { s with numTerminatingChildren := s.numTerminatingChildren + 1 } i a :=
          hi
        exact handleStopFromParent_eq hs ht
      rw [List.foldlM_cons, hstop, State.stopAll, hi.1]
      exact ⟨hfold, hinv⟩

theorem Inv.cancelScope (h : Inv limitCnt [] s) (p : List UInt8) :
    Inv limitCnt [] (s.cancelScope p) :=
  (h.disable p).stopAll.2

/-- A slice begins. -/
theorem Inv.beginRun (h : Inv limitCnt [] s) (hpc : s.pc = .tasks) {queue : List Nat}
    (hqueue : s.taskQueue = i :: queue) (hi : s.Holds i a) (count reads : Nat) :
    Inv limitCnt [] (s.beginRun i a queue count reads) := by
  have hnodup := h.queue_nodup
  rw [hqueue, List.nodup_cons] at hnodup
  have ha := h.actor i a hi.1
  have hact := ha.queued.mp (by rw [hqueue]; exact List.mem_cons_self)
  refine h.set (b := { a with executionCount := 0 }) hi.1 rfl rfl rfl ?_ hnodup.2 ?_
    (fun _ _ => Iff.rfl) List.nodup_nil h.mail rfl ?_
  · intro j hj
    simp [State.beginRun, hqueue, hj]
  · intro j hj
    simp [State.beginRun, hpc, hj.symm]
  · exact { ha with
      queued := by simp [State.beginRun, hnodup.1]
      running := fun _ => ⟨hact.1, hact.2.1⟩ }

/-- **A call of `do_work`** by the running actor; where the actor is pending it
may have asked to stop. -/
theorem Inv.worked (h : Inv limitCnt pending s) (hpc : s.pc = .running i) (hi : s.Holds i a)
    (ht : a.terminating = false) {msg : TagMessage} {rest : List TagMessage}
    (hbox : a.mailbox = msg :: rest) (data : MessagePayload) {w : Work Operator}
    (hsent : ∀ m ∈ w.sent, m.ToOperator) (hop : i ∉ pending → OperatorAt limitCnt a.address w.op)
    (count reads : Nat) : Inv limitCnt pending (s.worked i a rest data w count reads) := by
  have ha := h.actor i a hi.1
  have hact := ha.running hpc
  refine h.set (b := worker a rest data w count) hi.1 rfl rfl rfl (fun _ _ => Iff.rfl)
    h.queue_nodup (fun _ _ => Iff.rfl) (fun _ _ => Iff.rfl) h.pending_nodup ?_ rfl ?_
  · intro m hm
    rcases List.mem_append.mp hm with hm | hm
    · exact h.mail m hm
    · exact .inl (hsent m hm)
  · exact { ha with
      woken := fun _ => hact.1
      stopped := fun hterm => by
        rw [show a.terminating = true from hterm] at ht
        cases ht
      mail := fun m hm => ha.mail m (hbox ▸ List.mem_cons_of_mem _ hm)
      op := fun _ hp => hop hp }

/-- The addresses of the simple tree are as long as one another. -/
theorem OperatorAt.length {addr : List UInt8} {op : Operator} (h : OperatorAt limitCnt addr op) :
    addr.length = 4 := by
  cases h <;> rfl

/-- Disabling a live actor's address makes it the only pending one. -/
theorem Inv.disable_address (h : Inv limitCnt [] s) (hi : s.actors[i]? = some a)
    (ht : a.terminating = false) :
    Inv limitCnt [i] { s with actorTree := s.actorTree.disable a.address } := by
  refine (h.disable a.address).congr_pending (fun j => ?_) (List.nodup_singleton i)
  rw [List.mem_singleton, MapIndex.mem_scope]
  constructor
  · rintro rfl
    exact ⟨a.address, List.prefix_rfl, ((h.actor j a hi).live _).mpr ⟨rfl, ht, List.not_mem_nil⟩⟩
  · rintro ⟨addr, hp, hlive⟩
    obtain ⟨b, hj, htb, rfl⟩ := h.holds_of_live hlive
    have hla := ((h.actor i a hi).op ht List.not_mem_nil).length
    have hlb := ((h.actor j b hj.1).op htb List.not_mem_nil).length
    exact h.eq_of_address hj.1 hi (hp.eq_of_length (hla.trans hlb.symm)).symm

theorem Inv.deleteChild (h : Inv limitCnt [] s) (hpc : s.pc = .running i) (hi : s.Holds i a)
    (ht : a.terminating = true) : Inv limitCnt [] (s.deleteChild i a) := by
  have ha := h.actor i a hi.1
  refine h.set (b := { a with deleted := true }) hi.1 rfl rfl rfl (fun _ _ => Iff.rfl)
    h.queue_nodup ?_ (fun _ _ => Iff.rfl) List.nodup_nil h.mail ?_ ?_
  · intro j hj
    simp [State.deleteChild, hpc, hj.symm]
  · simp [State.deleteChild, Actor.stopping, ht, hi.2]
  · exact { ha with
      queued := by
        show i ∈ s.taskQueue ↔ _
        rw [ha.queued]
        simp [hpc]
      running := fun hr => by cases hr
      deleted := fun _ => ht }

theorem Inv.idleChild (h : Inv limitCnt [] s) (hpc : s.pc = .running i) (hi : s.Holds i a)
    (ht : a.terminating = false) (hbox : a.mailbox = []) : Inv limitCnt [] (s.idleChild i a) := by
  have ha := h.actor i a hi.1
  refine h.set (b := { a with isActive := false }) hi.1 rfl rfl rfl (fun _ _ => Iff.rfl)
    h.queue_nodup ?_ (fun _ _ => Iff.rfl) List.nodup_nil h.mail rfl ?_
  · intro j hj
    simp [State.idleChild, hpc, hj.symm]
  · exact { ha with
      queued := by
        show i ∈ s.taskQueue ↔ _
        rw [ha.queued]
        simp [hpc]
      running := fun hr => by cases hr
      woken := fun hm => absurd hbox hm
      stopped := fun hterm => by
        rw [show a.terminating = true from hterm] at ht
        cases ht }

theorem Inv.requeueChild (h : Inv limitCnt [] s) (hpc : s.pc = .running i) (hi : s.Holds i a)
    (ht : a.terminating = false) (reads : Nat) : Inv limitCnt [] (s.requeueChild i a reads) := by
  have ha := h.actor i a hi.1
  have hfree : i ∉ s.taskQueue := by
    rw [ha.queued]
    simp [hpc]
  refine h.set (b := { a with executionCount := 0, isActive := true }) hi.1 rfl rfl rfl ?_ ?_ ?_
    (fun _ _ => Iff.rfl) List.nodup_nil h.mail rfl ?_
  · intro j hj
    simp [State.requeueChild, mem_wake_taskQueue, hj]
  · have := h.queue_nodup.append (List.nodup_singleton i) (by simpa using hfree)
    simpa [State.requeueChild, State.wake] using this
  · intro j hj
    simp [State.requeueChild, hpc, hj.symm]
  · exact { ha with
      queued := by simp [State.requeueChild, mem_wake_taskQueue, hi.2]
      running := fun hr => by cases hr
      woken := fun _ => rfl
      stopped := fun hterm => by
        rw [show a.terminating = true from hterm] at ht
        cases ht }

end Invariant

/-! ## every step is one of the outcomes -/

section Steps

variable {cfg : Config} {s : State (MapIndex Nat)} {i : Nat} {a : Actor}

/-- The limit count of the simple tree's LIMIT. -/
def Config.limitCnt (cfg : Config) : UInt32 := cfg.stringToUnsignedInt codeLimit.params

/-- `handle_child_termination` for a live actor. -/
theorem handleChildTermination_eq (h : Inv cfg.limitCnt [] s) (hi : s.Holds i a)
    (ht : a.terminating = false) (s' : State (MapIndex Nat)) {b : Actor}
    (htree : s'.actorTree = s.actorTree) (hs' : s'.Holds i b) (hb : b.terminating = false) :
    handleChildTermination mapIndex s' a.address =
      .ok ({ s' with actorTree := s.actorTree.disable a.address }.stop i b) := by
  have hlive := ((h.actor i a hi.1).live a.address).mpr ⟨rfl, ht, List.not_mem_nil⟩
  have hlookup : s.actorTree.lookup a.address = (1, some i) := by
    have hfun : s.actorTree.Functional := by
      intro addr v w hv hw
      obtain ⟨c, hc, -, rfl⟩ := h.holds_of_live hv
      obtain ⟨d, hd, -, hcd⟩ := h.holds_of_live hw
      exact h.eq_of_address hc.1 hd.1 hcd
    rw [MapIndex.lookup, if_neg (h.uncovered _ _ hlive), hfun.get_eq_some_iff.mpr hlive]
  have hstop : State.Holds { s' with
      numTerminatingChildren := s'.numTerminatingChildren + 1
      actorTree := s.actorTree.disable a.address } i b := hs'
  simp only [handleChildTermination, mapIndex, htree, hlookup, bind, Except.bind]
  exact handleStopFromParent_eq hstop hb

/-- The index's tree is not read by the callbacks of a cancellation. -/
theorem foldlM_stopFunc_tree {σ : Type} (s : State σ) (tree : σ) (targets : List Nat) :
    targets.foldlM stopFunc { s with actorTree := tree } =
      (targets.foldlM stopFunc s).map fun s => { s with actorTree := tree } := by
  induction targets generalizing s with
  | nil => rfl
  | cons i is ih =>
      have hstop : stopFunc { s with actorTree := tree } i =
          (stopFunc s i).map fun s => { s with actorTree := tree } := by
        simp only [stopFunc, handleStopFromParent, activate, deref, bind, Except.bind]
        cases hi : s.actors[i]? with
        | none => rfl
        | some a => cases hd : a.deleted <;> cases ht : a.terminating <;> cases hact : a.isActive <;>
            simp [ht, hact, hd, put, Except.map, (List.getElem?_eq_some_iff.mp hi).1]
      rw [List.foldlM_cons, List.foldlM_cons, hstop]
      cases stopFunc s i with
      | error e => rfl
      | ok s' => exact ih s'

/-- `handle_scope_cancellation`. -/
theorem handleScopeCancellation_eq (h : Inv cfg.limitCnt [] s) (p : List UInt8) :
    handleScopeCancellation mapIndex s p = .ok (s.cancelScope p) := by
  have hfold := (h.disable p).stopAll.1
  rw [foldlM_stopFunc_tree] at hfold
  simp only [handleScopeCancellation, mapIndex, bind, Except.bind]
  cases hs : (s.actorTree.scope p).foldlM stopFunc s with
  | error e =>
      rw [hs] at hfold
      cases hfold
  | ok s' =>
      rw [hs] at hfold
      have hself := (foldlM_stopFunc_tree s s.actorTree (s.actorTree.scope p)).symm.trans hs
      rw [hs] at hself
      have htree : s'.actorTree = s.actorTree :=
        (congrArg State.actorTree (Except.ok.inj hself)).symm
      show Except.ok { s' with actorTree := s'.actorTree.disable p } = _
      rw [htree]
      exact hfold

/-- A message less in the mailbox. -/
theorem Inv.pop (h : Inv cfg.limitCnt [] s) {msg : TagMessage} {rest : List TagMessage}
    (hbox : s.mailbox = msg :: rest) : Inv cfg.limitCnt [] { s with mailbox := rest } :=
  h.congr rfl rfl rfl (fun _ => Iff.rfl)
    (fun m hm => h.mail m (hbox ▸ List.mem_cons_of_mem _ hm)) rfl

theorem deliver_user {σ : Type} {s : State σ} {i : Nat} {a : Actor} (hi : s.Holds i a)
    {msg : TagMessage} (hmsg : msg.ToOperator) :
    deliver s i msg = .ok (s.wake i { a with mailbox := a.mailbox ++ [msg] }) := by
  have huser : MessageType.user.toNat ≤ MessageType.flowControl.toNat := by decide
  rw [deliver, hmsg.type, if_pos huser, childEnqueMessage_eq hi]

/-- A step of `process_mailbox` on a USER message. -/
theorem handleUser_cases (h : Inv cfg.limitCnt [] s) {msg : TagMessage} {rest : List TagMessage}
    (hpc : s.pc = .mailbox) (hbox : s.mailbox = msg :: rest) (hmsg : msg.ToOperator) :
    ∃ s', handleUser mapIndex cfg { s with mailbox := rest } msg = .ok s' ∧ StepCase cfg s s' := by
  by_cases hcov : s.actorTree.Covers msg.address
  · refine ⟨_, ?_, .discard msg rest hpc hbox fun _ => hcov⟩
    simp [handleUser, mapIndex, MapIndex.lookup, hcov, bind, Except.bind]
  · cases hget : s.actorTree.get msg.address with
    | some i =>
        have hlive : (msg.address, i) ∈ s.actorTree.live := by
          obtain ⟨e, he, rfl⟩ := Option.map_eq_some_iff.mp hget
          have haddr : e.1 = msg.address := by simpa using List.find?_some he
          exact haddr ▸ List.mem_of_find?_eq_some he
        obtain ⟨a, hi, ht, haddr⟩ := h.holds_of_live hlive
        have hi' : State.Holds { s with mailbox := rest } i a := hi
        refine ⟨_, ?_, .deliver msg rest i a hpc hbox hmsg hi ht haddr⟩
        simp [handleUser, mapIndex, MapIndex.lookup, hcov, hget, bind, Except.bind,
          deliver_user hi' hmsg]
    | none =>
        obtain ⟨code, op, hcode, hop, hcreated, hat⟩ := hmsg.newOperator cfg.stringToUnsignedInt
        refine ⟨_, ?_, .create msg rest op hpc hbox hmsg hcov hget hcreated hat⟩
        have hnew : State.Holds (State.create { s with mailbox := rest } msg.address op)
            s.actors.length { address := msg.address, op := op } :=
          ⟨by simp [State.create], rfl⟩
        have hdel := deliver_user hnew hmsg
        simp only [handleUser, mapIndex, MapIndex.lookup, hcov, hget, hcode, hop, bind, Except.bind,
          if_false, if_true]
        exact hdel

/-- A step of `process_mailbox`. -/
theorem handleMessage_cases (h : Inv cfg.limitCnt [] s) {msg : TagMessage}
    {rest : List TagMessage} (hpc : s.pc = .mailbox) (hbox : s.mailbox = msg :: rest) :
    ∃ s', handleMessage mapIndex cfg { s with mailbox := rest } msg = .ok s' ∧
      StepCase cfg s s' := by
  rcases h.mail msg (hbox ▸ List.mem_cons_self) with hmsg | hmsg
  · obtain ⟨s', hrun, hcase⟩ := handleUser_cases h hpc hbox hmsg
    refine ⟨s', ?_, hcase⟩
    rw [handleMessage, hmsg.type]
    exact hrun
  · by_cases hlen : msg.addrLen > cfg.addrLen
    · refine ⟨_, ?_, .cancel msg rest hpc hbox hmsg hlen⟩
      rw [handleMessage, hmsg]
      simpa [hlen] using handleScopeCancellation_eq (h.pop hbox) msg.address
    · refine ⟨_, ?_, .discard msg rest hpc hbox fun hto => ?_⟩
      · rw [handleMessage, hmsg]
        simp [hlen]
      · rw [hto.type] at hmsg
        cases hmsg

/-- A step of the loop over the tasks. -/
theorem nextTask_cases (h : Inv cfg.limitCnt [] s) (hpc : s.pc = .tasks) :
    ∃ s', nextTask cfg s = .ok s' ∧ StepCase cfg s s' := by
  cases hqueue : s.taskQueue with
  | nil =>
      by_cases hbox : s.mailbox = []
      · exact ⟨_, by simp [nextTask, hqueue, hbox], .finish hpc hqueue hbox⟩
      · exact ⟨_, by simp [nextTask, hqueue, hbox], .poll hpc hqueue hbox⟩
  | cons i queue =>
      have hmem : i ∈ s.taskQueue := hqueue ▸ List.mem_cons_self
      have hlt := h.queue_lt i hmem
      have hi : s.Holds i s.actors[i] := ⟨List.getElem?_eq_getElem hlt,
        ((h.actor i _ (List.getElem?_eq_getElem hlt)).queued.mp hmem).2.1⟩
      have hbegin : ∀ count reads, (do
          let a ← { s with executionCount := count, clockReads := reads }.deref i
          Except.ok { State.put { s with executionCount := count, clockReads := reads } i
              { a with executionCount := 0 } with
            taskQueue := queue, pc := .running i }) =
          Except.ok (s.beginRun i s.actors[i] queue count reads) := by
        intro count reads
        have hi' : State.Holds { s with executionCount := count, clockReads := reads } i
            s.actors[i] := hi
        rw [hi'.deref]
        rfl
      by_cases hcount : s.executionCount + 1 < defaultExecutionInterval
      · refine ⟨_, ?_, .begin i _ queue (s.executionCount + 1) s.clockReads hpc hqueue hi⟩
        simpa [nextTask, hqueue, notExpired, hcount] using hbegin _ _
      · cases hclock : cfg.clock s.clockReads with
        | true =>
            refine ⟨_, ?_, .begin i _ queue 0 (s.clockReads + 1) hpc hqueue hi⟩
            simpa [nextTask, hqueue, notExpired, hcount, hclock] using hbegin _ _
        | false =>
            refine ⟨_, ?_, .expire hpc (by simp [hqueue]) hcount (s.clockReads + 1)⟩
            simp [nextTask, hqueue, notExpired, hcount, hclock]

/-- The running actor's call of `do_work`. -/
theorem runMessage_cases (h : Inv cfg.limitCnt [] s) (hpc : s.pc = .running i) (hi : s.Holds i a)
    {msg : TagMessage} {rest : List TagMessage} (hbox : a.mailbox = msg :: rest)
    (count reads : Nat) :
    ∃ s', runMessage mapIndex cfg ({ s with clockReads := reads }.put i
        { a with executionCount := count, mailbox := rest }) i msg = .ok s' ∧
      StepCase cfg s s' := by
  have ha := h.actor i a hi.1
  have ht := ha.terminating_of_mailbox (by simp [hbox])
  obtain ⟨hmsg, -⟩ := ha.mail msg (hbox ▸ List.mem_cons_self)
  obtain ⟨data, hdata⟩ := hmsg.payload
  obtain ⟨w, hwork, -, -⟩ := (ha.op ht List.not_mem_nil).doWork cfg.getOutV data
  have hread : State.Holds { s with clockReads := reads } i a := hi
  have hput := hread.put (b := { a with executionCount := count, mailbox := rest }) hi.2
  -- both writes of the actor are one
  have happly : applyWork (State.put { s with clockReads := reads } i
      { a with executionCount := count, mailbox := rest }) i
      { a with executionCount := count, mailbox := rest } data w =
      s.worked i a rest data w count reads := by
    rw [applyWork_eq]
    simp [State.put, State.worked, worker, List.set_set]
  by_cases hres : w.result = .cancelMe
  · refine ⟨_, ?_, .lastWork i a msg rest data w count reads hpc hi ht hbox hdata hwork hres⟩
    have hworked : (s.worked i a rest data w count reads).Holds i (worker a rest data w count) :=
      ⟨List.getElem?_set_self hi.lt, hi.2⟩
    have hstop := handleChildTermination_eq h hi ht (s.worked i a rest data w count reads)
      rfl hworked ht
    rw [runMessage, hput.deref]
    simp only [bind, Except.bind, hmsg.type, hdata, hwork, happly, hres, if_true]
    exact hstop
  · refine ⟨_, ?_, .work i a msg rest data w count reads hpc hi ht hbox hdata hwork hres⟩
    rw [runMessage, hput.deref]
    simp only [bind, Except.bind, hmsg.type, hdata, hwork, happly, hres, if_false]

/-- A running actor with an empty mailbox is at its end. -/
theorem runChild_nil {σ : Type} {index : ActorIndex σ} {s : State σ} {i : Nat} {a : Actor}
    (hi : s.Holds i a) (hbox : a.mailbox = []) :
    runChild index cfg s i = finishRun s i := by
  rw [runChild, hi.deref]
  simp only [bind, Except.bind]
  rw [hbox]

/-- A running actor with a message asks for the time. -/
theorem runChild_cons {σ : Type} {index : ActorIndex σ} {s : State σ} {i : Nat} {a : Actor}
    (hi : s.Holds i a) {msg : TagMessage} {rest : List TagMessage} (hbox : a.mailbox = msg :: rest)
    {go : Bool} {count reads : Nat}
    (hgo : notExpired cfg.clock a.executionCount s.clockReads = (go, count, reads)) :
    runChild index cfg s i =
      if go then runMessage index cfg ({ s with clockReads := reads }.put i
        { a with executionCount := count, mailbox := rest }) i msg
      else
        finishRun ({ s with clockReads := reads }.put i { a with executionCount := count }) i := by
  rw [runChild, hi.deref]
  simp only [bind, Except.bind, hgo]
  split
  · next h =>
      rw [hbox] at h
      cases h
  · next h =>
      rw [hbox] at h
      obtain ⟨rfl, rfl⟩ := List.cons.inj h
      rfl

/-- A step of a running actor. -/
theorem runChild_cases (h : Inv cfg.limitCnt [] s) (hpc : s.pc = .running i) :
    ∃ s', runChild mapIndex cfg s i = .ok s' ∧ StepCase cfg s s' := by
  have hlt := h.running_lt i hpc
  have ha := h.actor i _ (List.getElem?_eq_getElem hlt)
  have hi : s.Holds i s.actors[i] := ⟨List.getElem?_eq_getElem hlt, (ha.running hpc).2⟩
  generalize s.actors[i] = a at ha hi
  cases hbox : a.mailbox with
  | nil =>
      rw [runChild_nil hi hbox]
      cases ht : a.terminating with
      | true => exact ⟨_, finishRun_delete hi ht, .delete i a hpc hi ht⟩
      | false => exact ⟨_, finishRun_idle hi ht hbox, .idle i a hpc hi ht hbox⟩
  | cons msg rest =>
      have hne : a.mailbox ≠ [] := by simp [hbox]
      have ht := ha.terminating_of_mailbox hne
      by_cases hcount : a.executionCount + 1 < defaultExecutionInterval
      · rw [runChild_cons hi hbox (by rw [notExpired, if_pos hcount]), if_pos rfl]
        exact runMessage_cases h hpc hi hbox _ _
      · rw [runChild_cons hi hbox (by rw [notExpired, if_neg hcount])]
        cases hclock : cfg.clock s.clockReads with
        | true => exact runMessage_cases h hpc hi hbox _ _
        | false =>
            have hread : State.Holds { s with clockReads := s.clockReads + 1 } i a := hi
            have hput := hread.put (b := { a with executionCount := 0 }) hi.2
            refine ⟨_, finishRun_requeue hput ht hne, ?_⟩
            have hcase : StepCase cfg s _ :=
              .requeue i a hpc hi ht hne hcount (s.clockReads + 1)
            simpa [State.requeueChild, State.wake, State.put, List.set_set] using hcase

/-- **Every step has one of the outcomes**, and none faults. -/
theorem step_cases (h : Inv cfg.limitCnt [] s) (hs : ¬ Returned s) :
    ∃ s', step mapIndex cfg s = .ok s' ∧ StepCase cfg s s' := by
  cases hpc : s.pc with
  | mailbox =>
      cases hbox : s.mailbox with
      | nil => exact ⟨_, step_mailbox_nil hpc hbox, .schedule hpc hbox⟩
      | cons msg rest =>
          rw [step_mailbox_cons hpc hbox]
          exact handleMessage_cases h hpc hbox
  | tasks =>
      rw [step_tasks hpc]
      exact nextTask_cases h hpc
  | running i =>
      rw [step_running hpc]
      exact runChild_cases h hpc
  | returned => exact absurd hpc hs

/-- A step that is taken has one of the outcomes. -/
theorem stepCase_of_step (h : Inv cfg.limitCnt [] s) (hs : ¬ Returned s)
    {s' : State (MapIndex Nat)} (hstep : step mapIndex cfg s = .ok s') : StepCase cfg s s' := by
  obtain ⟨t, ht, hcase⟩ := step_cases h hs
  rw [hstep] at ht
  obtain rfl := Except.ok.inj ht
  exact hcase

/-- **Every outcome keeps the invariant.** -/
theorem StepCase.inv {s' : State (MapIndex Nat)} (hcase : StepCase cfg s s')
    (h : Inv cfg.limitCnt [] s) : Inv cfg.limitCnt [] s' := by
  cases hcase with
  | discard msg rest _ hbox => exact h.pop hbox
  | deliver msg rest i a _ hbox hmsg hi ht haddr =>
      exact (h.pop hbox).deliver hi List.not_mem_nil ht hmsg haddr
  | create msg rest op _ hbox hmsg hcov hget _ hat =>
      have hnew : State.Holds (State.create { s with mailbox := rest } msg.address op)
          s.actors.length { address := msg.address, op := op } := ⟨by simp [State.create], rfl⟩
      exact ((h.pop hbox).create hcov hget hat).deliver hnew List.not_mem_nil rfl hmsg rfl
  | cancel msg rest _ hbox => exact (h.pop hbox).cancelScope msg.address
  | schedule hpc => exact h.congr rfl rfl rfl (by simp [hpc]) h.mail rfl
  | finish hpc => exact h.congr rfl rfl rfl (by simp [hpc]) h.mail rfl
  | poll hpc => exact h.congr rfl rfl rfl (by simp [hpc]) h.mail rfl
  | expire hpc => exact h.congr rfl rfl rfl (by simp [hpc]) h.mail rfl
  | begin i a queue count reads hpc hqueue hi => exact h.beginRun hpc hqueue hi count reads
  | work i a msg rest data w count reads hpc hi ht hbox _ hwork hres =>
      obtain ⟨hop, hsent⟩ := ((h.actor i a hi.1).op ht List.not_mem_nil).of_doWork hwork
      refine h.worked hpc hi ht hbox data (fun m hm => ?_) (fun _ => hop hres) count reads
      obtain ⟨_, _, _, _, hto, _⟩ := hsent m hm
      exact hto
  | lastWork i a msg rest data w count reads hpc hi ht hbox _ hwork hres =>
      obtain ⟨hop, hsent⟩ := ((h.actor i a hi.1).op ht List.not_mem_nil).of_doWork hwork
      -- the address is disabled first, then the pending actor works and is stopped
      have hdis := h.disable_address hi.1 ht
      have hworked := hdis.worked hpc hi ht hbox data (fun m hm => by
        obtain ⟨_, _, _, _, hto, _⟩ := hsent m hm
        exact hto) (fun hp => absurd List.mem_cons_self hp) count reads
      exact hworked.stop ⟨List.getElem?_set_self hi.lt, hi.2⟩
  | delete i a hpc hi ht => exact h.deleteChild hpc hi ht
  | idle i a hpc hi ht hbox => exact h.idleChild hpc hi ht hbox
  | requeue i a hpc hi ht hbox hcount reads => exact h.requeueChild hpc hi ht reads

end Steps

end LightQuery
