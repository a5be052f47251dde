import LightQuery.Dataflow.Schedule
import Mathlib.Data.Prod.Lex

/-!
# LightQuery.Dataflow.Termination

A run of a dataflow over the map index ends.

`work` weighs the messages by what they may still cause: a delivery, the
creation of an actor, and for OUT a message to LIMIT for every result.  No step
adds to it, and a step that does not lessen it lessens `patience`, which counts
how often the clock may still refuse before the next message: a refusal sets
the count of calls back, and the first nine calls after that are not refused.
-/

namespace LightQuery

open State CArray

/-! ## the measure -/

/-- A bound on the messages that `do_work` sends for a message. -/
def sendBound (getOutV : GetOutV) (msg : TagMessage) : Nat :=
  if msg.address[2]? = some 0 then
    match msg.payload with
    | some data => (outResults getOutV 0 0 data).length + 2
    | none => 0
  else 0

/-- The work of a message in an actor's mailbox. -/
def runCost (getOutV : GetOutV) (msg : TagMessage) : Nat := 1 + 4 * sendBound getOutV msg

/-- The work of a message in the dataflow's mailbox, which may be delivered to
a new actor and wake it. -/
def handleCost (getOutV : GetOutV) (msg : TagMessage) : Nat := runCost getOutV msg + 3

/-- The work of an actor: its messages, and its stop. -/
def Actor.work (getOutV : GetOutV) (a : Actor) : Nat :=
  (a.mailbox.map (runCost getOutV)).sum + if a.terminating then 0 else 1

/-- A running actor is a task, too. -/
def Pc.tasks? : Pc → Nat
  | .running _ => 1
  | _ => 0

/-- The work that is left. -/
def State.work {σ : Type} (getOutV : GetOutV) (s : State σ) : Nat :=
  (s.mailbox.map (handleCost getOutV)).sum + (s.actors.map (Actor.work getOutV)).sum +
    s.taskQueue.length + s.pc.tasks?

/-- How many steps there may be before the next message. -/
def State.patience {σ : Type} (s : State σ) : Nat :=
  match s.pc with
  | .returned => 0
  | .mailbox =>
      if s.mailbox ≠ [] then 0
      else if s.executionCount + 1 < defaultExecutionInterval then 2 else 4
  | .tasks => if s.executionCount + 1 < defaultExecutionInterval then 1 else 3
  | .running i =>
      match s.actors[i]? with
      | some a => if a.executionCount + 1 < defaultExecutionInterval then 0 else 5
      | none => 0

/-! ## what an outcome costs -/

section Outcomes

variable {σ : Type} (getOutV : GetOutV) {s : State σ} {i : Nat} {a b : Actor}

/-- Waking an actor costs a task at most. -/
theorem work_wake (hi : s.Holds i a) (b : Actor) :
    (s.wake i b).work getOutV + a.work getOutV ≤ s.work getOutV + b.work getOutV + 1 := by
  have hsum := sum_map_set (Actor.work getOutV) hi.1 { b with isActive := true }
  have hb : Actor.work getOutV { b with isActive := true } = b.work getOutV := rfl
  have hqueue : (s.wake i b).taskQueue.length ≤ s.taskQueue.length + 1 := by
    cases h : b.isActive <;> simp [wake, h]
  simp only [State.work, wake_mailbox, wake_actors, wake_pc]
  omega

/-- A stop costs nothing: it pays for its task. -/
theorem work_stop (hi : s.Holds i a) (ht : a.terminating = false) :
    (s.stop i a).work getOutV ≤ s.work getOutV := by
  have hs : State.Holds { s with numTerminatingChildren := s.numTerminatingChildren + 1 } i a := hi
  have hwake := work_wake getOutV hs { a with terminating := true, mailbox := [] }
  have hb : Actor.work getOutV { a with terminating := true, mailbox := [] } = 0 := rfl
  have ha : 1 ≤ a.work getOutV := by
    simp only [Actor.work, ht]
    exact Nat.le_add_left ..
  have hw : State.work getOutV { s with numTerminatingChildren := s.numTerminatingChildren + 1 } =
    s.work getOutV := rfl
  rw [State.stop]
  omega

/-- A message is taken off the mailbox. -/
theorem work_pop {msg : TagMessage} {rest : List TagMessage} (hbox : s.mailbox = msg :: rest) :
    State.work getOutV { s with mailbox := rest } + handleCost getOutV msg = s.work getOutV := by
  simp only [State.work, hbox, List.map_cons, List.sum_cons]
  omega

/-- A message that was taken off pays for its delivery. -/
theorem work_deliver (hi : s.Holds i a) (msg : TagMessage) :
    (s.wake i { a with mailbox := a.mailbox ++ [msg] }).work getOutV <
      s.work getOutV + handleCost getOutV msg := by
  have hwake := work_wake getOutV hi { a with mailbox := a.mailbox ++ [msg] }
  have ha : Actor.work getOutV { a with mailbox := a.mailbox ++ [msg] } =
      a.work getOutV + runCost getOutV msg := by
    simp [Actor.work, Nat.add_right_comm]
  rw [handleCost]
  omega

/-- A task that begins is counted as the one that runs. -/
theorem work_beginRun (hpc : s.pc = .tasks) {queue : List Nat} (hqueue : s.taskQueue = i :: queue)
    (hi : s.Holds i a) (count reads : Nat) :
    (s.beginRun i a queue count reads).work getOutV = s.work getOutV := by
  have hsum := sum_map_set (Actor.work getOutV) hi.1 { a with executionCount := 0 }
  have ha : Actor.work getOutV { a with executionCount := 0 } = a.work getOutV := rfl
  simp only [State.work, State.beginRun, hpc, hqueue, Pc.tasks?, List.length_cons]
  omega

/-- The end of a task saves it. -/
theorem work_deleteChild (hpc : s.pc = .running i) (hi : s.Holds i a) :
    (s.deleteChild i a).work getOutV < s.work getOutV := by
  have hsum := sum_map_set (Actor.work getOutV) hi.1 { a with deleted := true }
  have ha : Actor.work getOutV { a with deleted := true } = a.work getOutV := rfl
  simp only [State.work, State.deleteChild, hpc, Pc.tasks?]
  omega

theorem work_idleChild (hpc : s.pc = .running i) (hi : s.Holds i a) :
    (s.idleChild i a).work getOutV < s.work getOutV := by
  have hsum := sum_map_set (Actor.work getOutV) hi.1 { a with isActive := false }
  have ha : Actor.work getOutV { a with isActive := false } = a.work getOutV := rfl
  simp only [State.work, State.idleChild, hpc, Pc.tasks?]
  omega

/-- Unless it goes to the end of the queue. -/
theorem work_requeueChild (hpc : s.pc = .running i) (hi : s.Holds i a) (reads : Nat) :
    (s.requeueChild i a reads).work getOutV = s.work getOutV := by
  have hsum := sum_map_set (Actor.work getOutV) hi.1
    { a with executionCount := 0, isActive := true }
  have ha : Actor.work getOutV { a with executionCount := 0, isActive := true } =
    a.work getOutV := rfl
  simp only [State.work, State.requeueChild, State.wake, hpc, Pc.tasks?, List.length_append,
    List.length_singleton, Bool.false_eq_true, if_false]
  omega

/-- A step that only moves the program counter outside of tasks keeps the work. -/
theorem work_of_pc {s' : State σ} (hmail : s'.mailbox = s.mailbox) (hactors : s'.actors = s.actors)
    (hqueue : s'.taskQueue = s.taskQueue) (hpc : s'.pc.tasks? = s.pc.tasks?) :
    s'.work getOutV = s.work getOutV := by
  rw [State.work, hmail, hactors, hqueue, hpc, State.work]

end Outcomes

/-! ## how long the clock may refuse -/

section Patience

variable {σ : Type} {s : State σ} {i : Nat} {a : Actor}

/-- A count that was set back is below the interval. -/
theorem fresh_count : 0 + 1 < defaultExecutionInterval := by decide

theorem patience_beginRun (hpc : s.pc = .tasks) (hi : s.Holds i a) (queue : List Nat)
    (count reads : Nat) : (s.beginRun i a queue count reads).patience < s.patience := by
  simp only [State.patience, State.beginRun, hpc, List.getElem?_set_self hi.lt, if_pos fresh_count]
  split <;> omega

/-- The clock refused the task that runs. -/
theorem patience_requeueChild (hpc : s.pc = .running i) (hi : s.Holds i a)
    (hcount : ¬ a.executionCount + 1 < defaultExecutionInterval) (reads : Nat) :
    (s.requeueChild i a reads).patience < s.patience := by
  simp only [State.patience, State.requeueChild, wake_pc, wake_executionCount, hpc, hi.1,
    if_neg hcount]
  by_cases hc : s.executionCount + 1 < defaultExecutionInterval <;> simp [hc]

/-- The clock refused to begin the next task. -/
theorem patience_expire (hpc : s.pc = .tasks)
    (hcount : ¬ s.executionCount + 1 < defaultExecutionInterval) (reads : Nat) :
    State.patience { s with executionCount := 0, clockReads := reads, pc := .mailbox } <
      s.patience := by
  simp only [State.patience, hpc, if_neg hcount, if_pos fresh_count]
  split <;> omega

theorem patience_schedule (hpc : s.pc = .mailbox) (hbox : s.mailbox = []) :
    State.patience { s with pc := .tasks } < s.patience := by
  simp only [State.patience, hpc, hbox, ne_eq, not_true_eq_false, if_false]
  split <;> omega

theorem patience_poll (hpc : s.pc = .tasks) (hbox : s.mailbox ≠ []) :
    State.patience { s with pc := .mailbox } < s.patience := by
  simp only [State.patience, hpc, hbox, ne_eq, not_false_eq_true, if_true]
  split <;> omega

theorem patience_finish (hpc : s.pc = .tasks) :
    State.patience { s with pc := .returned } < s.patience := by
  simp only [State.patience, hpc]
  split <;> omega

end Patience

/-! ## every step lessens it -/

section Steps

variable {cfg : Config} {s s' : State (MapIndex Nat)} {i : Nat} {a : Actor}

/-- A message that was taken off also pays for a new actor. -/
theorem work_create (getOutV : GetOutV) (s : State (MapIndex Nat)) (msg : TagMessage)
    (op : Operator) :
    ((s.create msg.address op).wake s.actors.length
      { address := msg.address, op := op, mailbox := [msg] }).work getOutV <
      s.work getOutV + handleCost getOutV msg := by
  have hnew : State.Holds (s.create msg.address op) s.actors.length
      { address := msg.address, op := op } := ⟨by simp [State.create], rfl⟩
  have hwake := work_wake getOutV hnew { address := msg.address, op := op, mailbox := [msg] }
  have hcreate : (s.create msg.address op).work getOutV = s.work getOutV + 1 := by
    simp [State.work, State.create, Actor.work]
    omega
  have hempty : Actor.work getOutV { address := msg.address, op := op } = 1 := rfl
  have hfull : Actor.work getOutV { address := msg.address, op := op, mailbox := [msg] } =
      runCost getOutV msg + 1 := by
    simp [Actor.work]
  rw [handleCost]
  omega

theorem work_stopAll {limitCnt : UInt32} {pending : List Nat} (h : Inv limitCnt pending s)
    (getOutV : GetOutV) : (s.stopAll pending).work getOutV ≤ s.work getOutV := by
  induction pending generalizing s with
  | nil => exact le_rfl
  | cons i is ih =>
      obtain ⟨a, hi, ht⟩ := h.exists_holds List.mem_cons_self
      rw [State.stopAll, hi.1]
      exact (ih (h.stop hi)).trans (work_stop getOutV hi ht)

theorem work_cancelScope {limitCnt : UInt32} (h : Inv limitCnt [] s) (p : List UInt8)
    (getOutV : GetOutV) : (s.cancelScope p).work getOutV ≤ s.work getOutV :=
  work_stopAll (h.disable p) getOutV

/-- **The messages that a call of `do_work` sends are paid for** by the one that
it works on. -/
theorem work_sent (h : Inv cfg.limitCnt [] s) (hi : s.Holds i a) (ht : a.terminating = false)
    {msg : TagMessage} {rest : List TagMessage} {data : MessagePayload} {w : Work Operator}
    (hbox : a.mailbox = msg :: rest) (hdata : msg.payload = some data)
    (hwork : a.op.doWork cfg.getOutV data = .ok w) :
    (w.sent.map (handleCost cfg.getOutV)).sum < runCost cfg.getOutV msg := by
  obtain ⟨-, hsent⟩ := ((h.actor i a hi.1).op ht List.not_mem_nil).of_doWork hwork
  have haddr := ((h.actor i a hi.1).mail msg (hbox ▸ List.mem_cons_self)).2
  -- a message for LIMIT causes no other message
  have hcost : ∀ m ∈ w.sent, handleCost cfg.getOutV m = 4 := by
    intro m hm
    obtain ⟨x, y, -, hlimit, -⟩ := hsent m hm
    simp [handleCost, runCost, sendBound, hlimit, limitAddr]
  rw [List.map_congr_left hcost, List.map_const', List.sum_replicate_nat]
  cases hlist : w.sent with
  | nil =>
      rw [runCost, List.length_nil]
      omega
  | cons m ms =>
      obtain ⟨x, y, hout, -, -, hlen⟩ := hsent m (hlist ▸ List.mem_cons_self)
      have hbound : sendBound cfg.getOutV msg = (outResults cfg.getOutV x y data).length + 2 := by
        simp [sendBound, haddr, hout, outAddr, hdata]
        rfl
      rw [← hlist, runCost, hbound]
      omega

/-- The work after a call of `do_work`. -/
theorem work_worked (h : Inv cfg.limitCnt [] s) (hi : s.Holds i a) (ht : a.terminating = false)
    {msg : TagMessage} {rest : List TagMessage} {data : MessagePayload} {w : Work Operator}
    (hbox : a.mailbox = msg :: rest) (hdata : msg.payload = some data)
    (hwork : a.op.doWork cfg.getOutV data = .ok w) (count reads : Nat) :
    (s.worked i a rest data w count reads).work cfg.getOutV < s.work cfg.getOutV := by
  have hsum := sum_map_set (Actor.work cfg.getOutV) hi.1 (worker a rest data w count)
  have hsent := work_sent h hi ht hbox hdata hwork
  have ha : a.work cfg.getOutV =
      runCost cfg.getOutV msg + (worker a rest data w count).work cfg.getOutV := by
    simp [Actor.work, worker, hbox, ht, Nat.add_assoc]
  simp only [State.work, State.worked, List.map_append, List.sum_append]
  omega

/-- **Every outcome lessens the work, or leaves it and lessens the patience.** -/
theorem StepCase.lt (hcase : StepCase cfg s s') (h : Inv cfg.limitCnt [] s) :
    s'.work cfg.getOutV < s.work cfg.getOutV ∨
      s'.work cfg.getOutV = s.work cfg.getOutV ∧ s'.patience < s.patience := by
  have hcost : ∀ msg, 0 < handleCost cfg.getOutV msg := fun msg => Nat.succ_pos _
  cases hcase with
  | discard msg rest _ hbox =>
      left
      have hpop := work_pop cfg.getOutV hbox
      have := hcost msg
      omega
  | deliver msg rest i a _ hbox hmsg hi ht haddr =>
      left
      rw [← work_pop cfg.getOutV hbox]
      exact work_deliver cfg.getOutV (s := { s with mailbox := rest }) hi msg
  | create msg rest op _ hbox hmsg hcov hget _ hat =>
      left
      rw [← work_pop cfg.getOutV hbox]
      exact work_create cfg.getOutV { s with mailbox := rest } msg op
  | cancel msg rest _ hbox =>
      left
      have hpop := work_pop cfg.getOutV hbox
      have hstop := work_cancelScope (h.pop hbox) msg.address cfg.getOutV
      have := hcost msg
      omega
  | schedule hpc hbox =>
      exact .inr ⟨work_of_pc _ rfl rfl rfl (by rw [hpc]; rfl), patience_schedule hpc hbox⟩
  | finish hpc =>
      exact .inr ⟨work_of_pc _ rfl rfl rfl (by rw [hpc]; rfl), patience_finish hpc⟩
  | poll hpc hqueue hbox =>
      exact .inr ⟨work_of_pc _ rfl rfl rfl (by rw [hpc]; rfl), patience_poll hpc hbox⟩
  | expire hpc hqueue hcount reads =>
      exact .inr ⟨work_of_pc _ rfl rfl rfl (by rw [hpc]; rfl), patience_expire hpc hcount reads⟩
  | begin i a queue count reads hpc hqueue hi =>
      exact .inr ⟨work_beginRun _ hpc hqueue hi count reads,
        patience_beginRun hpc hi queue count reads⟩
  | work i a msg rest data w count reads hpc hi ht hbox hdata hwork hres =>
      exact .inl (work_worked h hi ht hbox hdata hwork count reads)
  | lastWork i a msg rest data w count reads hpc hi ht hbox hdata hwork hres =>
      left
      have hworked := work_worked h hi ht hbox hdata hwork count reads
      have hstop : State.work cfg.getOutV
          ({ s.worked i a rest data w count reads with
            actorTree := s.actorTree.disable a.address }.stop i (worker a rest data w count)) ≤
          State.work cfg.getOutV (s.worked i a rest data w count reads) :=
        work_stop cfg.getOutV ⟨List.getElem?_set_self hi.lt, hi.2⟩ ht
      omega
  | delete i a hpc hi ht => exact .inl (work_deleteChild _ hpc hi)
  | idle i a hpc hi ht hbox => exact .inl (work_idleChild _ hpc hi)
  | requeue i a hpc hi ht hbox hcount reads =>
      exact .inr ⟨work_requeueChild _ hpc hi reads, patience_requeueChild hpc hi hcount reads⟩

/-! ## termination -/

/-- A run that has returned has nothing left to do. -/
def Settled (s : State (MapIndex Nat)) : Prop :=
  Returned s → s.taskQueue = [] ∧ s.mailbox = []

theorem StepCase.settled (hcase : StepCase cfg s s') : Settled s' := by
  intro hret
  have hret : s'.pc = .returned := hret
  cases hcase with
  | finish hpc hqueue hbox => exact ⟨hqueue, hbox⟩
  | discard _ _ hpc => simp [hpc] at hret
  | deliver _ _ _ _ hpc => simp [hpc] at hret
  | create _ _ _ hpc => simp [State.create, hpc] at hret
  | cancel _ _ hpc => simp [State.cancelScope, hpc] at hret
  | schedule => cases hret
  | poll => cases hret
  | expire => cases hret
  | begin => cases hret
  | work _ _ _ _ _ _ _ _ hpc => simp [State.worked, hpc] at hret
  | lastWork _ _ _ _ _ _ _ _ hpc => simp [State.worked, State.stop, hpc] at hret
  | delete => cases hret
  | idle => cases hret
  | requeue => cases hret

/-- **A query run ends**: whatever the clock answers, `run_and_dispose` returns,
and all it leaves are empty queues and mailboxes. -/
theorem run_returns (cfg : Config) {msgs : List TagMessage} (h : ∀ m ∈ msgs, Accepted m) :
    (∃ s, Machine.Returns Returned (step mapIndex cfg) (State.start MapIndex.empty msgs) s) ∧
      ∀ s, Machine.Returns Returned (step mapIndex cfg) (State.start MapIndex.empty msgs) s →
        s.taskQueue = [] ∧ s.mailbox = [] ∧ ∀ i a, s.Holds i a → a.mailbox = [] := by
  have hstart : Inv cfg.limitCnt [] (State.start MapIndex.empty msgs) := inv_start h
  constructor
  · refine Machine.returns_of_measure (I := Inv cfg.limitCnt [])
      (fun s => toLex (s.work cfg.getOutV, s.patience)) (fun s hinv hs => ?_) _ hstart
    obtain ⟨s', hstep, hcase⟩ := step_cases hinv hs
    exact ⟨s', hstep, hcase.inv hinv, Prod.Lex.toLex_lt_toLex.mpr (hcase.lt hinv)⟩
  · rintro s ⟨hsteps, hret⟩
    have hinv : Inv cfg.limitCnt [] s ∧ Settled s := by
      refine Machine.Steps.invariant hsteps (I := fun s => Inv cfg.limitCnt [] s ∧ Settled s)
        ⟨hstart, ?_⟩ ?_
      · intro hret
        rw [start_eq] at hret
        cases hret
      · rintro s s' ⟨hs, -⟩ ⟨hnot, hstep⟩
        have hcase := stepCase_of_step hs hnot hstep
        exact ⟨hcase.inv hs, hcase.settled⟩
    obtain ⟨hqueue, hbox⟩ := hinv.2 hret
    refine ⟨hqueue, hbox, fun i a hi => ?_⟩
    have hret : s.pc = .returned := hret
    -- an actor with messages would be queued
    by_contra hne
    have ha := hinv.1.actor i a hi.1
    have hmem := ha.queued.mpr ⟨ha.woken hne, hi.2, by simp [hret]⟩
    rw [hqueue] at hmem
    cases hmem

end Steps

/-- Nodes for OUT and the cancellation of its scope: the hypothesis of
`run_returns` can be met. -/
theorem run_returns_chain :
    ∃ s, Machine.Returns Returned (step mapIndex chain)
      (State.start MapIndex.empty [nodesFor [⟨1, 1⟩, ⟨2, 2⟩], cancellation [7, 0, 0]]) s := by
  refine (run_returns chain fun m hm => ?_).1
  rcases List.mem_pair.mp hm with rfl | rfl
  · exact .inl (nodesFor_toOperator _)
  · exact .inr rfl

end LightQuery
