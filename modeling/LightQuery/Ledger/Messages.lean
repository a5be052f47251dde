import LightQuery.Dataflow.Service
import LightQuery.Ledger.Rest

/-!
# LightQuery.Ledger.Messages

What a dataflow allocates with `new` and deletes: messages, payloads, actors and
the arrays of their addresses.

The turnover of a step follows the step branch by branch.  It does not depend on
the index, and it is in order for every message, so no assumption on a run is
needed beyond that its steps do not fault.  Cells are told apart by what they
are, not by where they lie.  No more of a kind are deleted than are live, actors
and arrays never leak, but messages do: `stateless_actor` deletes the payload of
a USER message and not the message, `clean_mailbox` the message and not its
payload, and a message for a disabled address is dropped as it is.
-/

namespace LightQuery

open Heap State

variable {σ : Type}

/-! ## cells -/

/-- What is made with `new`. -/
inductive Cell where
  | message
  | payload
  | actor
  | bytes (len : Nat)
deriving DecidableEq, Repr

/-- A message or a payload. -/
def Cell.Sent (c : Cell) : Prop := c = .message ∨ c = .payload

/-- The payload that a message points to. -/
def TagMessage.payloadCells (msg : TagMessage) : List Cell :=
  (msg.payload.map fun _ => Cell.payload).toList

/-- A message and its payload. -/
def TagMessage.cells (msg : TagMessage) : List Cell := .message :: msg.payloadCells

/-- What an operator owns: `_out_payload`. -/
def Operator.cells : Operator → List Cell
  | .out _ => [.payload]
  | .limit _ => []

/-- An actor, `_address`, `_ds_addr` and what its operator owns. -/
def Actor.ownCells (a : Actor) : List Cell :=
  .actor :: .bytes a.address.length :: .bytes a.address.length :: a.op.cells

/-- An actor and the messages in its mailbox. -/
def Actor.cells (a : Actor) : List Cell :=
  if a.deleted then [] else a.ownCells ++ a.mailbox.flatMap TagMessage.cells

/-- The messages in the dataflow's mailbox, and the actors. -/
def State.cells (s : State σ) : List Cell :=
  s.mailbox.flatMap TagMessage.cells ++ s.actors.flatMap Actor.cells

/-- How many payloads the actors have worked on. -/
def State.servedCount (s : State σ) : Nat := (s.actors.map fun a => a.served.length).sum

/-! ## turnovers -/

/-- What a piece of code allocates and frees, and the cells that nothing points
to after it. -/
structure Turnover where
  actions : List (Action Cell) := []
  leaks : List Cell := []

namespace Turnover

/-- One after the other. -/
def andThen (t t' : Turnover) : Turnover := ⟨t.actions ++ t'.actions, t.leaks ++ t'.leaks⟩

/-- `delete msg`, which leaves the payload. -/
def deleteMessage (msg : TagMessage) : Turnover := ⟨[.free .message], msg.payloadCells⟩

/-- `clean_mailbox`. -/
def cleanMailbox : List TagMessage → Turnover
  | [] => {}
  | msg :: rest => (deleteMessage msg).andThen (cleanMailbox rest)

/-- The messages that an operator sends.  `flush_out_payload` sends the payload
it has and allocates the next one; `send_eos` allocates both. -/
def send (sent : List TagMessage) : Turnover := ⟨(sent.flatMap TagMessage.cells).map .alloc, []⟩

/-- `new out_op(…)` or `new limit_op(…)`. -/
def newActor (a : Actor) : Turnover := ⟨a.ownCells.map .alloc, []⟩

/-- `delete this`: the destructors run from the operator to `actor_base`. -/
def deleteActor (a : Actor) : Turnover :=
  ⟨a.ownCells.reverse.map .free, a.mailbox.flatMap TagMessage.cells⟩

end Turnover

open Turnover

section Dataflow

variable (index : ActorIndex σ) (cfg : Config)

/-- `handle_stop_from_parent` of an actor. -/
def stopTurnover (s : State σ) (child : Nat) : Except Fault Turnover := do
  let a ← s.deref child
  .ok (if a.terminating then {} else cleanMailbox a.mailbox)

/-- The callbacks of `handle_scope_cancellation`. -/
def stopAllTurnover (s : State σ) : List Nat → Except Fault Turnover
  | [] => .ok {}
  | child :: targets => do
      let t ← stopTurnover s child
      let s ← stopFunc s child
      let t' ← stopAllTurnover s targets
      .ok (t.andThen t')

/-- `handle_child_termination`. -/
def childTerminationTurnover (s : State σ) (addr : List UInt8) : Except Fault Turnover := do
  let (search, childActorAddr) ← index.lookup s.actorTree addr
  if search = -1 then .ok {}
  else if search ≠ 1 then .error .assertSearch
  else
    match childActorAddr with
    | none => .error .nullChild
    | some child => stopTurnover s child

/-- `handle_scope_cancellation`. -/
def scopeCancellationTurnover (s : State σ) (p : List UInt8) : Except Fault Turnover := do
  let targets ← index.iterPrefixApply s.actorTree p
  stopAllTurnover s targets

/-- The USER case of `process_mailbox`. -/
def userTurnover (s : State σ) (msg : TagMessage) : Except Fault Turnover := do
  let (search, _) ← index.lookup s.actorTree msg.address
  if search = 1 then .ok {}
  else if search = 0 then
    match ← dummyInsertSimple.get (fun i => msg.addrs (i + 1)) 0 with
    | none => .error .nullCode
    | some code =>
        match ← newOperator cfg.stringToUnsignedInt msg.address code with
        | none => .error .nullChild
        | some op => .ok (newActor { address := msg.address, op := op })
  else if search = -1 then .ok ⟨[], msg.cells⟩
  else .error .nullChild

/-- The loop of `process_mailbox` on the message that it takes off. -/
def messageTurnover (s : State σ) (msg : TagMessage) : Except Fault Turnover :=
  match msg.type with
  | .user => userTurnover index cfg s msg
  | .cancelScope => do
      let t ← if msg.addrLen > cfg.addrLen then scopeCancellationTurnover index s msg.address
        else .ok {}
      .ok (t.andThen (deleteMessage msg))
  | _ => .ok (deleteMessage msg)

/-- What a run of an actor does after its loop. -/
def finishTurnover (s : State σ) (child : Nat) : Except Fault Turnover := do
  let a ← s.deref child
  .ok (if a.terminating then deleteActor a else {})

/-- A call of `do_work` on a message, which is not deleted. -/
def workTurnover (op : Operator) (w : Work Operator) : Turnover :=
  (send w.sent).andThen
    (if op.keepsData then ⟨[], [.message, .payload]⟩ else ⟨[.free .payload], [.message]⟩)

/-- The loop of `stateless_actor::run_and_dispose` on the message that it takes
off. -/
def runMessageTurnover (s : State σ) (child : Nat) (msg : TagMessage) : Except Fault Turnover := do
  let a ← s.deref child
  match msg.type with
  | .user =>
      match msg.payload with
      | none => if a.op.keepsData then .ok ⟨[], msg.cells⟩ else .error .nullPayload
      | some data => do
          let w ← a.op.doWork cfg.getOutV data
          let t ← if w.result = .cancelMe then
              childTerminationTurnover index (applyWork s child a data w) a.address
            else .ok {}
          .ok ((workTurnover a.op w).andThen t)
  | .cancelScope => do
      let t ← childTerminationTurnover index s a.address
      let s ← handleChildTermination index s a.address
      let t' ← finishTurnover s child
      .ok ((t.andThen (deleteMessage msg)).andThen t')
  | _ => .ok (deleteMessage msg)

/-- The running actor looks at its mailbox. -/
def runChildTurnover (s : State σ) (child : Nat) : Except Fault Turnover := do
  let a ← s.deref child
  match a.mailbox with
  | [] => finishTurnover s child
  | msg :: rest =>
      let (go, executionCount, clockReads) := notExpired cfg.clock a.executionCount s.clockReads
      let s := { s with clockReads := clockReads }
      if go then
        runMessageTurnover index cfg (s.put child { a with executionCount, mailbox := rest })
          child msg
      else finishTurnover (s.put child { a with executionCount }) child

/-- One step of `dataflow::run_and_dispose`. -/
def stepTurnover (s : State σ) : Except Fault Turnover :=
  match s.pc with
  | .mailbox =>
      match s.mailbox with
      | [] => .ok {}
      | msg :: rest => messageTurnover index cfg { s with mailbox := rest } msg
  | .tasks => .ok {}
  | .running child => runChildTurnover index cfg s child
  | .returned => .ok {}

end Dataflow

/-! ## what a turnover has to be -/

/-- The cells before and the work done before, against a state, with a turnover
between them: the actions can be performed and leave the cells of the state and
the leaks; only messages and payloads leak, and a message does for every payload
that is worked on. -/
structure Balances (before : List Cell) (work : Nat) (s : State σ) (t : Turnover) : Prop where
  turns : Turns t.actions before (s.cells ++ t.leaks)
  sent : ∀ c ∈ t.leaks, c.Sent
  served : s.servedCount ≤ work + t.leaks.count .message

section Rules

variable {A A' : List Cell} {work : Nat} {s s' : State σ} {t t' : Turnover} {i : Nat} {a b : Actor}

theorem TagMessage.sent_of_mem_payloadCells {msg : TagMessage} {c : Cell}
    (h : c ∈ msg.payloadCells) : c = .payload := by
  unfold payloadCells at h
  cases hp : msg.payload with
  | none => simp [hp] at h
  | some data => simpa [hp] using h

theorem TagMessage.sent_of_mem_cells {msg : TagMessage} {c : Cell} (h : c ∈ msg.cells) : c.Sent :=
  (List.mem_cons.mp h).imp_right TagMessage.sent_of_mem_payloadCells

namespace Balances

theorem refl : Balances s.cells s.servedCount s {} where
  turns := .of_perm (by simp)
  sent c hc := absurd hc List.not_mem_nil
  served := by simp

/-- Only the cells and the work count. -/
theorem congr (h : Balances A work s t) (hA : A.Perm A') (hcells : s'.cells.Perm s.cells)
    (hserved : s'.servedCount = s.servedCount) : Balances A' work s' t where
  turns := h.turns.congr hA (hcells.symm.append_right _)
  sent := h.sent
  served := hserved ▸ h.served

/-- One after the other. -/
theorem andThen (h : Balances A work s t) (h' : Balances s.cells s.servedCount s' t') :
    Balances A work s' (t.andThen t') where
  turns := by
    refine h.turns.append ((h'.turns.frame t.leaks).congr (.refl _) ?_)
    rw [List.append_assoc]
    exact List.perm_append_comm.append_left _
  sent c hc := (List.mem_append.mp hc).elim (h.sent c) (h'.sent c)
  served := by
    have h1 := h.served
    have h2 := h'.served
    show _ ≤ work + (t.leaks ++ t'.leaks).count .message
    rw [List.count_append]
    omega

/-- The message that was handled is deleted, without its payload. -/
theorem delete (h : Balances A work s t) (msg : TagMessage) :
    Balances (msg.cells ++ A) work s (t.andThen (deleteMessage msg)) where
  turns := by
    refine ((h.turns.frame msg.cells).congr List.perm_append_comm (.refl _)).append ?_
    have hfree : Turns [.free Cell.message] (.message :: (msg.payloadCells ++ (s.cells ++ t.leaks)))
        (msg.payloadCells ++ (s.cells ++ t.leaks)) := .free .nil
    refine hfree.congr ?_ ?_
    · have hcomm : (msg.cells ++ (s.cells ++ t.leaks)).Perm _ := List.perm_append_comm
      exact hcomm
    · refine List.perm_append_comm.trans ?_
      rw [List.append_assoc]
      exact .refl _
  sent c hc := (List.mem_append.mp hc).elim (h.sent c) fun hc =>
    .inr (TagMessage.sent_of_mem_payloadCells hc)
  served := by
    have h1 := h.served
    show _ ≤ work + (t.leaks ++ msg.payloadCells).count .message
    rw [List.count_append]
    omega

/-- The message that was handled is neither deleted nor kept. -/
theorem drop (msg : TagMessage) :
    Balances (msg.cells ++ s.cells) s.servedCount s ⟨[], msg.cells⟩ where
  turns := .of_perm List.perm_append_comm
  sent _ hc := TagMessage.sent_of_mem_cells hc
  served := Nat.le_add_right _ _

end Balances

theorem exists_of_getElem? {α : Type} {l : List α} {a : α} (h : l[i]? = some a) :
    ∃ l₁ l₂, l = l₁ ++ a :: l₂ ∧ ∀ b, l.set i b = l₁ ++ b :: l₂ := by
  obtain ⟨hlt, rfl⟩ := List.getElem?_eq_some_iff.mp h
  refine ⟨l.take i, l.drop (i + 1), ?_, fun b => ?_⟩
  · rw [List.cons_getElem_drop_succ, List.take_append_drop]
  · rw [List.set_eq_take_append_cons_drop, if_pos hlt]

/-- The cells of one actor next to the others. -/
theorem exists_cells (hi : s.actors[i]? = some a) : ∃ R n, s.cells.Perm (a.cells ++ R) ∧
    s.servedCount = a.served.length + n ∧ ∀ b, (s.put i b).cells.Perm (b.cells ++ R) ∧
      (s.put i b).servedCount = b.served.length + n := by
  obtain ⟨l₁, l₂, hself, hset⟩ := exists_of_getElem? hi
  let rest := s.mailbox.flatMap TagMessage.cells ++
    (l₁.flatMap Actor.cells ++ l₂.flatMap Actor.cells)
  have hcells : ∀ b, (s.mailbox.flatMap TagMessage.cells ++
      (l₁ ++ b :: l₂).flatMap Actor.cells).Perm (b.cells ++ rest) := fun b => by
    rw [List.flatMap_append, List.flatMap_cons]
    exact ((List.perm_append_comm_assoc _ _ _).append_left _).trans
      (List.perm_append_comm_assoc _ _ _)
  have hwork : ∀ b : Actor, ((l₁ ++ b :: l₂).map fun a => a.served.length).sum =
      b.served.length + ((l₁.map fun a => a.served.length).sum +
        (l₂.map fun a => a.served.length).sum) := fun b => by
    rw [List.map_append, List.sum_append, List.map_cons, List.sum_cons]
    omega
  refine ⟨rest, (l₁.map fun a => a.served.length).sum + (l₂.map fun a => a.served.length).sum,
    ?_, ?_, fun b => ⟨?_, ?_⟩⟩
  · rw [State.cells, hself]
    exact hcells a
  · rw [State.servedCount, hself]
    exact hwork a
  · rw [State.cells, put, hset]
    exact hcells b
  · rw [State.servedCount, put, hset]
    exact hwork b

/-- **Actor rule**: what happens to an actor and the message in hand happens next
to all other cells. -/
theorem Balances.put {held : List Cell} (hi : s.actors[i]? = some a)
    (hturn : Turns t.actions (held ++ a.cells) (b.cells ++ t.leaks))
    (hsent : ∀ c ∈ t.leaks, c.Sent)
    (hserved : b.served.length ≤ a.served.length + t.leaks.count .message) :
    Balances (held ++ s.cells) s.servedCount (s.put i b) t := by
  obtain ⟨R, n, hcells, hwork, hput⟩ := exists_cells hi
  refine ⟨(hturn.frame R).congr ?_ ?_, hsent, ?_⟩
  · rw [List.append_assoc]
    exact (hcells.symm.append_left held)
  · rw [List.append_assoc]
    refine (List.perm_append_comm.append_left _).trans ?_
    rw [← List.append_assoc]
    exact (hput b).1.symm.append_right _
  · rw [(hput b).2, hwork]
    omega

/-- An actor is replaced by one with the same cells. -/
theorem cells_put (hi : s.actors[i]? = some a) (hcells : b.cells = a.cells)
    (hserved : b.served = a.served) :
    (s.put i b).cells.Perm s.cells ∧ (s.put i b).servedCount = s.servedCount := by
  obtain ⟨R, n, hself, hwork, hput⟩ := exists_cells hi
  refine ⟨(hput b).1.trans ?_, ?_⟩
  · rw [hcells]
    exact hself.symm
  · rw [(hput b).2, hwork, hserved]

/-- Activation moves no cell. -/
theorem activate_cells (h : s.activate i = .ok s') :
    s'.cells.Perm s.cells ∧ s'.servedCount = s.servedCount := by
  obtain ⟨a, ha, h⟩ := exists_of_bind_ok h
  split at h
  · cases h
    exact ⟨.refl _, rfl⟩
  · cases h
    exact cells_put (b := { a with isActive := true }) (getElem?_of_deref ha) rfl rfl

/-- An actor is replaced and activated. -/
theorem Balances.activate {held : List Cell} (h : Balances (held ++ s.cells) s.servedCount s' t)
    {s'' : State σ} (hact : s'.activate i = .ok s'') :
    Balances (held ++ s.cells) s.servedCount s'' t :=
  h.congr (.refl _) (activate_cells hact).1 (activate_cells hact).2

theorem cells_of_live (h : a.deleted = false) :
    a.cells = a.ownCells ++ a.mailbox.flatMap TagMessage.cells := by
  rw [Actor.cells, h]
  rfl

theorem cleanMailbox_turns (l : List TagMessage) :
    Turns (cleanMailbox l).actions (l.flatMap TagMessage.cells) (cleanMailbox l).leaks ∧
      ∀ c ∈ (cleanMailbox l).leaks, c.Sent := by
  induction l with
  | nil => exact ⟨.nil, fun c hc => absurd hc List.not_mem_nil⟩
  | cons msg l ih =>
      refine ⟨.free ?_, fun c hc => ?_⟩
      · have hrest := ih.1.frame msg.payloadCells
        exact hrest.congr List.perm_append_comm List.perm_append_comm
      · exact (List.mem_append.mp hc).elim
          (fun hc => .inr (TagMessage.sent_of_mem_payloadCells hc)) (ih.2 c)

end Rules

/-! ## the functions -/

section Functions

variable {index : ActorIndex σ} {cfg : Config} {s s' : State σ} {child : Nat} {msg : TagMessage}

theorem handleStopFromParent_turnover (h : s.handleStopFromParent child = .ok s') :
    ∃ t, stopTurnover s child = .ok t ∧ Balances s.cells s.servedCount s' t := by
  obtain ⟨a, ha, h⟩ := exists_of_bind_ok h
  have hstop : stopTurnover s child =
      .ok (if a.terminating then {} else cleanMailbox a.mailbox) := by
    rw [stopTurnover, ha]
    rfl
  refine ⟨_, hstop, ?_⟩
  split at h
  · next hterm =>
      cases h
      rw [if_pos hterm]
      exact .refl
  · next hterm =>
      rw [if_neg hterm]
      have hholds := holds_of_deref ha
      obtain ⟨hturn, hsent⟩ := cleanMailbox_turns a.mailbox
      have hput : Balances ([] ++ s.cells) s.servedCount
          (s.put child { a with terminating := true, mailbox := [] }) (cleanMailbox a.mailbox) := by
        refine Balances.put hholds.1 ?_ hsent (Nat.le_add_right _ _)
        have hself : ({ a with terminating := true, mailbox := [] } : Actor).cells =
            a.ownCells ++ [] := cells_of_live hholds.2
        rw [hself, List.append_nil, List.nil_append, cells_of_live hholds.2]
        exact (hturn.frame a.ownCells).congr List.perm_append_comm List.perm_append_comm
      split at h
      · cases h
        exact hput
      · exact hput.activate h

theorem foldlM_stopFunc_turnover {targets : List Nat} (h : targets.foldlM stopFunc s = .ok s') :
    ∃ t, stopAllTurnover s targets = .ok t ∧ Balances s.cells s.servedCount s' t := by
  induction targets generalizing s with
  | nil =>
      cases h
      exact ⟨_, rfl, .refl⟩
  | cons child targets ih =>
      rw [List.foldlM_cons] at h
      obtain ⟨s₁, h₁, h⟩ := exists_of_bind_ok h
      obtain ⟨t, ht, hbal⟩ := handleStopFromParent_turnover h₁
      obtain ⟨t', ht', hbal'⟩ := ih h
      refine ⟨t.andThen t', ?_, hbal.andThen hbal'⟩
      have hstop : stopTurnover s child = .ok t := ht
      rw [stopAllTurnover, hstop]
      show ((stopFunc s child).bind _) = _
      rw [h₁]
      show ((stopAllTurnover s₁ targets).bind _) = _
      rw [ht']
      rfl

theorem handleChildTermination_turnover {addr : List UInt8}
    (h : handleChildTermination index s addr = .ok s') :
    ∃ t, childTerminationTurnover index s addr = .ok t ∧ Balances s.cells s.servedCount s' t := by
  obtain ⟨⟨search, childActorAddr⟩, hl, h⟩ := exists_of_bind_ok h
  have hlookup : ∀ f : Int × Option Nat → Except Fault Turnover,
      (index.lookup s.actorTree addr >>= f) = f (search, childActorAddr) := fun f => by
    rw [hl]
    rfl
  rw [childTerminationTurnover, hlookup]
  dsimp only at h ⊢
  split at h
  · next hdis =>
      cases h
      exact ⟨_, if_pos hdis, .refl⟩
  · next hdis =>
      rw [if_neg hdis]
      split at h
      · cases h
      · next hone =>
          rw [if_neg hone]
          cases childActorAddr with
          | none => cases h
          | some child =>
              obtain ⟨tree, -, h⟩ := exists_of_bind_ok h
              obtain ⟨t, ht, hbal⟩ := handleStopFromParent_turnover h
              exact ⟨t, ht, hbal⟩

theorem handleScopeCancellation_turnover {p : List UInt8}
    (h : handleScopeCancellation index s p = .ok s') :
    ∃ t, scopeCancellationTurnover index s p = .ok t ∧ Balances s.cells s.servedCount s' t := by
  obtain ⟨targets, htargets, h⟩ := exists_of_bind_ok h
  obtain ⟨s₁, h₁, h⟩ := exists_of_bind_ok h
  obtain ⟨tree, -, h⟩ := exists_of_bind_ok h
  cases h
  obtain ⟨t, ht, hbal⟩ := foldlM_stopFunc_turnover h₁
  refine ⟨t, ?_, hbal.congr (.refl _) (.refl _) rfl⟩
  rw [scopeCancellationTurnover, htargets]
  exact ht

/-- The message moves from one mailbox to another. -/
theorem deliver_turnover (h : deliver s child msg = .ok s') :
    Balances (msg.cells ++ s.cells) s.servedCount s' {} := by
  have hput : ∀ (a : Actor) (box : List TagMessage), s.Holds child a →
      box.Perm (msg :: a.mailbox) →
      Balances (msg.cells ++ s.cells) s.servedCount (s.put child { a with mailbox := box }) {} := by
    intro a box ha hbox
    refine Balances.put ha.1 (.of_perm ?_) (fun c hc => absurd hc List.not_mem_nil) (by simp)
    have hself : ({ a with mailbox := box } : Actor).cells =
        a.ownCells ++ box.flatMap TagMessage.cells := cells_of_live ha.2
    rw [hself, List.append_nil, cells_of_live ha.2]
    refine (List.perm_append_comm_assoc _ _ _).trans (List.Perm.append_left _ ?_)
    exact (hbox.flatMap_right _).symm
  rw [deliver] at h
  split at h
  · obtain ⟨a, ha, h⟩ := exists_of_bind_ok h
    exact (hput a _ (holds_of_deref ha) List.perm_append_comm).activate h
  · obtain ⟨a, ha, h⟩ := exists_of_bind_ok h
    exact (hput a _ (holds_of_deref ha) (.refl _)).activate h

/-- A new actor takes the message. -/
theorem deliver_new_turnover {a : Actor} {tree : σ} (hnew : a.mailbox = [])
    (hserved : a.served = []) (hlive : a.deleted = false)
    (h : deliver { s with actors := s.actors ++ [a], actorTree := tree } child msg = .ok s') :
    Balances (msg.cells ++ s.cells) s.servedCount s' (newActor a) := by
  have hbal := deliver_turnover h
  have hcells : State.cells { s with actors := s.actors ++ [a], actorTree := tree } =
      s.cells ++ a.ownCells := by
    simp [State.cells, Actor.cells, hnew, hlive]
  have hwork : State.servedCount { s with actors := s.actors ++ [a], actorTree := tree } =
      s.servedCount := by
    simp [State.servedCount, hserved]
  rw [hcells, hwork] at hbal
  have hrest : (msg.cells ++ (s.cells ++ a.ownCells)).Perm
      (a.ownCells ++ (msg.cells ++ s.cells)) := by
    rw [← List.append_assoc]
    exact List.perm_append_comm
  have hturns := (Turns.allocs a.ownCells (msg.cells ++ s.cells)).append
    (hbal.turns.congr hrest (.refl _))
  have hactions : a.ownCells.map Action.alloc ++ (({} : Turnover).actions) =
      (newActor a).actions := List.append_nil _
  rw [hactions] at hturns
  exact ⟨hturns, hbal.sent, hbal.served⟩

theorem handleUser_turnover (h : handleUser index cfg s msg = .ok s') :
    ∃ t, userTurnover index cfg s msg = .ok t ∧
      Balances (msg.cells ++ s.cells) s.servedCount s' t := by
  obtain ⟨⟨search, childPtr⟩, hl, h⟩ := exists_of_bind_ok h
  have hlookup : ∀ f : Int × Option Nat → Except Fault Turnover,
      (index.lookup s.actorTree msg.address >>= f) = f (search, childPtr) := fun f => by
    rw [hl]
    rfl
  rw [userTurnover, hlookup]
  dsimp only at h ⊢
  split at h
  · next hone =>
      rw [if_pos hone]
      cases childPtr with
      | none => cases h
      | some child => exact ⟨_, rfl, deliver_turnover h⟩
  · next hone =>
      rw [if_neg hone]
      split at h
      · next hzero =>
          rw [if_pos hzero]
          obtain ⟨code, hcode, h⟩ := exists_of_bind_ok h
          rw [hcode]
          cases code with
          | none => cases h
          | some code =>
              obtain ⟨op, hop, h⟩ := exists_of_bind_ok h
              cases op with
              | none => cases h
              | some op =>
                  obtain ⟨tree, -, h⟩ := exists_of_bind_ok h
                  refine ⟨newActor { address := msg.address, op := op }, ?_,
                    deliver_new_turnover rfl rfl rfl h⟩
                  show ((newOperator cfg.stringToUnsignedInt msg.address code).bind _) = _
                  rw [hop]
                  rfl
      · next hzero =>
          rw [if_neg hzero]
          split at h
          · next hdis =>
              cases h
              exact ⟨_, if_pos hdis, .drop msg⟩
          · cases h

theorem handleMessage_turnover (h : handleMessage index cfg s msg = .ok s') :
    ∃ t, messageTurnover index cfg s msg = .ok t ∧
      Balances (msg.cells ++ s.cells) s.servedCount s' t := by
  have hdelete : Balances (msg.cells ++ s.cells) s.servedCount s (deleteMessage msg) :=
    Balances.refl.delete msg
  unfold handleMessage at h
  split at h
  · next htype =>
      obtain ⟨t, ht, hbal⟩ := handleUser_turnover h
      exact ⟨t, by simp [messageTurnover, htype, ht], hbal⟩
  · next htype =>
      split at h
      · next hlen =>
          obtain ⟨t, ht, hbal⟩ := handleScopeCancellation_turnover h
          refine ⟨t.andThen (deleteMessage msg), ?_, hbal.delete msg⟩
          simp [messageTurnover, htype, hlen, ht, bind, Except.bind]
      · next hlen =>
          cases h
          refine ⟨Turnover.andThen {} (deleteMessage msg), ?_, hdelete⟩
          simp [messageTurnover, htype, hlen, bind, Except.bind]
  · next huser hcancel =>
      cases h
      refine ⟨deleteMessage msg, ?_, hdelete.congr (.refl _) (.refl _) rfl⟩
      simp [messageTurnover]

/-- An actor is deleted. -/
theorem deleteActor_balances {a : Actor} (ha : s.Holds child a) :
    Balances s.cells s.servedCount (s.put child { a with deleted := true }) (deleteActor a) := by
  have hput : Balances ([] ++ s.cells) s.servedCount (s.put child { a with deleted := true })
      (deleteActor a) := by
    refine Balances.put ha.1 ?_ ?_ (Nat.le_add_right _ _)
    · have hfree := (Turns.frees a.ownCells.reverse).frame (a.mailbox.flatMap TagMessage.cells)
      refine hfree.congr ?_ (.refl _)
      rw [List.nil_append, cells_of_live ha.2]
      exact (List.reverse_perm _).append_right _
    · intro c hc
      obtain ⟨msg, -, hc⟩ := List.mem_flatMap.mp hc
      exact TagMessage.sent_of_mem_cells hc
  exact hput

theorem finishRun_turnover (h : finishRun s child = .ok s') :
    ∃ t, finishTurnover s child = .ok t ∧ Balances s.cells s.servedCount s' t := by
  obtain ⟨a, ha, h⟩ := exists_of_bind_ok h
  have hholds := holds_of_deref ha
  have hfinish : finishTurnover s child = .ok (if a.terminating then deleteActor a else {}) := by
    rw [finishTurnover, ha]
    rfl
  refine ⟨_, hfinish, ?_⟩
  dsimp only at h
  split at h
  · next hterm =>
      cases h
      rw [if_pos hterm]
      exact (deleteActor_balances hholds).congr (.refl _) (.refl _) rfl
  · next hterm =>
      rw [if_neg hterm]
      have hidle := cells_put (b := { a with isActive := false }) hholds.1 rfl rfl
      split at h
      · cases h
        exact Balances.refl.congr (.refl _) hidle.1 hidle.2
      · have hact := activate_cells h
        exact Balances.refl.congr (.refl _) (hact.1.trans hidle.1) (hact.2.trans hidle.2)

/-- A call of `do_work` leaves the operator with what it owns. -/
theorem cells_doWork {op : Operator} {getOutV : GetOutV} {data : MessagePayload} {w : Work Operator}
    (h : op.doWork getOutV data = .ok w) : w.op.cells = op.cells := by
  cases op with
  | out op =>
      obtain ⟨w', -, h⟩ := exists_of_bind_ok h
      cases h
      rfl
  | limit op =>
      cases h
      rfl

theorem applyWork_turnover {a : Actor} {data : MessagePayload} {w : Work Operator}
    (ha : s.Holds child a) (hdata : msg.payload = some data)
    (hwork : a.op.doWork cfg.getOutV data = .ok w) :
    Balances (msg.cells ++ s.cells) s.servedCount (applyWork s child a data w)
      (workTurnover a.op w) := by
  have hmsg : msg.cells = [.message, .payload] := by
    simp [TagMessage.cells, TagMessage.payloadCells, hdata]
  have hdone : Balances (msg.cells ++ s.cells) s.servedCount
      (s.put child { a with op := w.op, served := a.served ++ [data] })
      (if a.op.keepsData then ⟨[], [.message, .payload]⟩ else ⟨[.free .payload], [.message]⟩) := by
    have hself : ({ a with op := w.op, served := a.served ++ [data] } : Actor).cells = a.cells := by
      have hown : ({ a with op := w.op, served := a.served ++ [data] } : Actor).ownCells =
          a.ownCells := by
        rw [Actor.ownCells, cells_doWork hwork]
        rfl
      rw [Actor.cells, hown]
      rfl
    refine Balances.put ha.1 ?_ ?_ ?_
    · rw [hself, hmsg]
      split
      · exact .of_perm List.perm_append_comm
      · have hfree : Turns [.free Cell.payload] (.payload :: (.message :: a.cells))
            (.message :: a.cells) := .free .nil
        have hrest : ([Cell.message] ++ a.cells).Perm (a.cells ++ [.message]) :=
          List.perm_append_comm
        exact hfree.congr (List.Perm.swap _ _ _) hrest
    · intro c hc
      split at hc
      · exact List.mem_pair.mp hc
      · exact .inl (List.mem_singleton.mp hc)
    · split <;> simp
  have hsend : (w.sent.flatMap TagMessage.cells ++
      (s.put child { a with op := w.op, served := a.served ++ [data] }).cells).Perm
      (applyWork s child a data w).cells := by
    rw [applyWork_eq]
    rw [State.cells, State.cells, List.flatMap_append, List.append_assoc]
    exact List.perm_append_comm_assoc _ _ _
  refine ⟨?_, hdone.sent, ?_⟩
  · have hturns := (Turns.allocs (w.sent.flatMap TagMessage.cells) (msg.cells ++ s.cells)).append
      ((hdone.turns.frame (w.sent.flatMap TagMessage.cells)).congr List.perm_append_comm
        List.perm_append_comm)
    refine hturns.congr (.refl _) ?_
    rw [← List.append_assoc]
    exact hsend.append_right _
  · have hserved : (applyWork s child a data w).servedCount =
        (s.put child { a with op := w.op, served := a.served ++ [data] }).servedCount := by
      rw [applyWork_eq]
      rfl
    rw [hserved]
    exact hdone.served

theorem runMessage_turnover (h : runMessage index cfg s child msg = .ok s') :
    ∃ t, runMessageTurnover index cfg s child msg = .ok t ∧
      Balances (msg.cells ++ s.cells) s.servedCount s' t := by
  obtain ⟨a, ha, h⟩ := exists_of_bind_ok h
  split at h
  · next htype =>
      split at h
      · next hdata =>
          split at h
          · next hkeeps =>
              cases h
              refine ⟨⟨[], msg.cells⟩, ?_, .drop msg⟩
              simp [runMessageTurnover, ha, htype, hdata, hkeeps, bind, Except.bind]
          · cases h
      · next data hdata =>
          obtain ⟨w, hwork, h⟩ := exists_of_bind_ok h
          have hbal := applyWork_turnover (holds_of_deref ha) hdata hwork
          dsimp only at h
          split at h
          · next hcancel =>
              obtain ⟨t, ht, hstop⟩ := handleChildTermination_turnover h
              refine ⟨(workTurnover a.op w).andThen t, ?_, hbal.andThen hstop⟩
              simp [runMessageTurnover, ha, htype, hdata, hwork, hcancel, ht, bind, Except.bind]
          · next hcancel =>
              cases h
              refine ⟨(workTurnover a.op w).andThen {}, ?_, hbal.andThen .refl⟩
              simp [runMessageTurnover, ha, htype, hdata, hwork, hcancel, bind, Except.bind]
  · next htype =>
      obtain ⟨s₁, h₁, h⟩ := exists_of_bind_ok h
      obtain ⟨t, ht, hbal⟩ := handleChildTermination_turnover h₁
      obtain ⟨t', ht', hbal'⟩ := finishRun_turnover h
      refine ⟨(t.andThen (deleteMessage msg)).andThen t', ?_, (hbal.delete msg).andThen hbal'⟩
      simp [runMessageTurnover, ha, htype, ht, h₁, ht', bind, Except.bind]
  · next huser hcancel =>
      cases h
      refine ⟨deleteMessage msg, ?_, (Balances.refl.delete msg).congr (.refl _) (.refl _) rfl⟩
      simp [runMessageTurnover, ha, bind, Except.bind]

/-- The running actor takes a message off its mailbox. -/
theorem dequeue_cells {a : Actor} {rest : List TagMessage} (ha : s.Holds child a)
    (hbox : a.mailbox = msg :: rest) (executionCount : Nat) :
    (msg.cells ++ (s.put child { a with executionCount, mailbox := rest }).cells).Perm s.cells ∧
      (s.put child { a with executionCount, mailbox := rest }).servedCount = s.servedCount := by
  obtain ⟨R, n, hself, hwork, hput⟩ := exists_cells ha.1
  obtain ⟨hcells, hserved⟩ := hput { a with executionCount, mailbox := rest }
  refine ⟨(hcells.append_left _).trans (List.Perm.trans ?_ hself.symm), hserved.trans hwork.symm⟩
  have hrest : ({ a with executionCount, mailbox := rest } : Actor).cells =
      a.ownCells ++ rest.flatMap TagMessage.cells := cells_of_live ha.2
  rw [hrest, cells_of_live ha.2, hbox, List.flatMap_cons, ← List.append_assoc]
  exact (List.perm_append_comm_assoc _ _ _).append_right R

theorem runChild_turnover (h : runChild index cfg s child = .ok s') :
    ∃ t, runChildTurnover index cfg s child = .ok t ∧ Balances s.cells s.servedCount s' t := by
  obtain ⟨a, ha, h⟩ := exists_of_bind_ok h
  have hholds := holds_of_deref ha
  split at h
  · next hbox =>
      obtain ⟨t, ht, hbal⟩ := finishRun_turnover h
      exact ⟨t, by simp [runChildTurnover, ha, hbox, ht, bind, Except.bind], hbal⟩
  · next msg rest hbox =>
      dsimp only at h
      split at h
      · next hgo =>
          obtain ⟨t, ht, hbal⟩ := runMessage_turnover h
          obtain ⟨hcells, hserved⟩ := dequeue_cells hholds hbox
            (notExpired cfg.clock a.executionCount s.clockReads).2.1
          refine ⟨t, ?_, hbal.turns.congr hcells (.refl _), hbal.sent, hserved ▸ hbal.served⟩
          simp [runChildTurnover, ha, hbox, hgo, ← ht, bind, Except.bind]
      · next hgo =>
          obtain ⟨t, ht, hbal⟩ := finishRun_turnover h
          obtain ⟨hcells, hserved⟩ := cells_put (b := { a with
            executionCount := (notExpired cfg.clock a.executionCount s.clockReads).2.1 })
            hholds.1 rfl rfl
          refine ⟨t, ?_, hbal.turns.congr hcells (.refl _), hbal.sent, hserved ▸ hbal.served⟩
          simp [runChildTurnover, ha, hbox, hgo, ← ht, bind, Except.bind]

theorem nextTask_cells (h : nextTask cfg s = .ok s') :
    s'.cells.Perm s.cells ∧ s'.servedCount = s.servedCount := by
  unfold nextTask at h
  split at h
  · cases h
    exact ⟨.refl _, rfl⟩
  · dsimp only at h
    split at h
    · obtain ⟨a, ha, h⟩ := exists_of_bind_ok h
      cases h
      exact cells_put (b := { a with executionCount := 0 }) (getElem?_of_deref ha) rfl rfl
    · cases h
      exact ⟨.refl _, rfl⟩

/-- **Step lemma**: a step that does not fault has a turnover, and it balances. -/
theorem step_turnover (h : step index cfg s = .ok s') :
    ∃ t, stepTurnover index cfg s = .ok t ∧ Balances s.cells s.servedCount s' t := by
  unfold step at h
  split at h
  · next hpc =>
      split at h
      · next hbox =>
          cases h
          refine ⟨{}, by simp [stepTurnover, hpc, hbox], ?_⟩
          exact Balances.refl.congr (.refl _) (List.Perm.refl s.cells) rfl
      · next msg rest hbox =>
          obtain ⟨t, ht, hbal⟩ := handleMessage_turnover h
          refine ⟨t, by simp [stepTurnover, hpc, hbox, ← ht],
            hbal.turns.congr ?_ (.refl _), hbal.sent, hbal.served⟩
          rw [State.cells, State.cells, hbox, List.flatMap_cons, List.append_assoc]
  · next hpc =>
      obtain ⟨hcells, hserved⟩ := nextTask_cells h
      exact ⟨{}, by simp [stepTurnover, hpc], Balances.refl.congr (.refl _) hcells hserved⟩
  · next child hpc =>
      obtain ⟨t, ht, hbal⟩ := runChild_turnover h
      exact ⟨t, by simp [stepTurnover, hpc, ht], hbal⟩
  · next hpc =>
      cases h
      exact ⟨{}, by simp [stepTurnover, hpc], .refl⟩

end Functions

/-! ## runs -/

/-- A dataflow that was given any messages at any time and took any number of
steps, with the calls of the allocator so far and the cells that leaked; stray
reads return anything. -/
inductive Ledgered (build : Build) (cfg : Config) :
    State (ArtTree Nat) → List (Action Cell) → List Cell → Prop
  | init : Ledgered build cfg { actorTree := ArtTree.init } [] []
  | enqueue {s : State (ArtTree Nat)} {as : List (Action Cell)} {leaked : List Cell}
      (h : Ledgered build cfg s as leaked) (msg : TagMessage) :
      Ledgered build cfg (s.enqueMessage msg) (as ++ (send [msg]).actions) leaked
  | step {s s' : State (ArtTree Nat)} {as : List (Action Cell)} {leaked : List Cell}
      {t : Turnover} (h : Ledgered build cfg s as leaked) (mem : Nat → UInt8) (hs : ¬ Returned s)
      (hstep : step (radixIndex mem build) cfg s = .ok s')
      (hturn : stepTurnover (radixIndex mem build) cfg s = .ok t) :
      Ledgered build cfg s' (as ++ t.actions) (t.leaks ++ leaked)
  | call {s : State (ArtTree Nat)} {as : List (Action Cell)} {leaked : List Cell}
      (h : Ledgered build cfg s as leaked) (hs : Returned s) :
      Ledgered build cfg { s with pc := .mailbox } as leaked

section Runs

variable {build : Build} {cfg : Config} {s s' : State (ArtTree Nat)} {as : List (Action Cell)}
  {leaked : List Cell} {msgs : List TagMessage}

/-- **Run lemma**: the ledger balances along every run. -/
theorem Ledgered.balances (h : Ledgered build cfg s as leaked) : Balances [] 0 s ⟨as, leaked⟩ := by
  induction h with
  | init => exact ⟨.nil, fun c hc => absurd hc List.not_mem_nil, Nat.le_refl 0⟩
  | @enqueue s as leaked h msg ih =>
      refine ⟨ih.turns.append ?_, ih.sent, ih.served⟩
      refine (Turns.allocs ([msg].flatMap TagMessage.cells) (s.cells ++ leaked)).congr (.refl _) ?_
      rw [← List.append_assoc]
      refine List.Perm.append_right _ ?_
      show List.Perm _ ((s.mailbox ++ [msg]).flatMap TagMessage.cells ++ _)
      rw [List.flatMap_append, List.append_assoc]
      exact List.perm_append_comm_assoc _ _ _
  | @step s s' as leaked t h mem hs hstep hturn ih =>
      obtain ⟨t', ht', hbal⟩ := step_turnover hstep
      rw [hturn] at ht'
      obtain rfl := Except.ok.inj ht'
      have hrun := ih.andThen hbal
      refine ⟨hrun.turns.congr (.refl _) (List.perm_append_comm.append_left _), fun c hc => ?_, ?_⟩
      · exact hrun.sent c (List.perm_append_comm.mem_iff.mp hc)
      · rw [List.perm_append_comm.count_eq]
        exact hrun.served
  | @call s as leaked h hs ih => exact ih.congr (.refl _) (List.Perm.refl s.cells) rfl

/-- A dataflow that is fed has a ledger. -/
theorem Ledgered.of_fed (h : Fed build cfg msgs s) :
    ∃ as leaked, Ledgered build cfg s as leaked := by
  induction h with
  | init => exact ⟨_, _, .init⟩
  | enqueue h msg hmsg ih =>
      obtain ⟨as, leaked, ih⟩ := ih
      exact ⟨_, _, ih.enqueue msg⟩
  | step h mem hs hun hstep ih =>
      obtain ⟨as, leaked, ih⟩ := ih
      obtain ⟨t, ht, -⟩ := step_turnover hstep
      exact ⟨_, _, ih.step mem hs hstep ht⟩
  | call h hs ih =>
      obtain ⟨as, leaked, ih⟩ := ih
      exact ⟨_, _, ih.call hs⟩

theorem flatMap_cells_of_idle {l : List Actor}
    (h : ∀ a ∈ l, a.deleted = false → a.mailbox = []) :
    l.flatMap Actor.cells = (l.filter fun a => !a.deleted).flatMap Actor.ownCells := by
  induction l with
  | nil => rfl
  | cons a l ih =>
      have hrest := ih fun b hb => h b (List.mem_cons_of_mem a hb)
      rw [List.flatMap_cons, hrest, List.filter_cons, Actor.cells]
      cases hdel : a.deleted with
      | true => rfl
      | false => simp [h a List.mem_cons_self hdel]

/-- No actor is left behind, whatever the messages. -/
theorem Ledgered.awake (h : Ledgered build cfg s as leaked) : Awake s := by
  induction h with
  | init => exact awake_init _
  | enqueue h msg ih => exact ih.congr rfl rfl rfl
  | step h mem hs hstep hturn ih => exact ih.step hs hstep
  | @call s as leaked h hs ih =>
      have hpc : s.pc = .returned := hs
      exact ih.goto (by simp [hpc]) rfl rfl fun hret => by cases hret

/-- At rest the cells are those of the idle actors. -/
theorem cells_atRest (h : Awake s) (hs : AtRest s) :
    s.cells = (s.actors.filter fun a => !a.deleted).flatMap Actor.ownCells := by
  rw [State.cells, hs.2]
  refine flatMap_cells_of_idle fun a ha hdel => ?_
  obtain ⟨i, hi⟩ := List.mem_iff_getElem?.mp ha
  exact h.mailbox_eq_nil hs.1 ⟨hi, hdel⟩

/-- One step of a ledger; it stays where the dataflow has returned. -/
def ledgerOnce (x : State (ArtTree Nat) × List (Action Cell) × List Cell) :
    State (ArtTree Nat) × List (Action Cell) × List Cell :=
  if Returned x.1 then x
  else
    match step (radixIndex (fun _ => 0) .sse2) chain x.1,
      stepTurnover (radixIndex (fun _ => 0) .sse2) chain x.1 with
    | .ok s, .ok t => (s, x.2.1 ++ t.actions, t.leaks ++ x.2.2)
    | _, _ => x

theorem Ledgered.iterate {x : State (ArtTree Nat) × List (Action Cell) × List Cell}
    (h : Ledgered .sse2 chain x.1 x.2.1 x.2.2) (n : Nat) :
    Ledgered .sse2 chain (ledgerOnce^[n] x).1 (ledgerOnce^[n] x).2.1 (ledgerOnce^[n] x).2.2 := by
  induction n generalizing x with
  | zero => exact h
  | succ n ih =>
      refine ih ?_
      rw [ledgerOnce]
      split
      · exact h
      · next hs =>
          split
          · next s t hstep hturn => exact h.step _ hs hstep hturn
          · exact h

theorem ledgered_start (msgs : List TagMessage) :
    Ledgered .sse2 chain (State.start ArtTree.init msgs) (send msgs).actions [] := by
  induction msgs using List.reverseRecOn with
  | nil => exact .init
  | append_singleton msgs msg ih =>
      have h := ih.enqueue msg
      rw [State.start, List.foldl_append]
      have hactions : (send (msgs ++ [msg])).actions =
          (send msgs).actions ++ (send [msg]).actions := by
        simp [send]
      rw [hactions]
      exact h

/-- **Memory over whole runs of a dataflow.**  Whatever messages it is given, of
any type and with a payload or none, and wherever the run stands, nothing is deleted of which no more is live; what is live
is what the mailboxes hold, the actors and what leaked; only messages and payloads
leak, and one message at least for every payload that was worked on.  At rest
nothing but the idle actors and the leaks is live. -/
theorem memory_of_run (h : Ledgered build cfg s as leaked) :
    Turns as [] (s.cells ++ leaked) ∧ (∀ c ∈ leaked, c = .message ∨ c = .payload) ∧
      s.servedCount ≤ leaked.count .message ∧
      (∀ mem s', step (radixIndex mem build) cfg s = .ok s' →
        ∃ t, stepTurnover (radixIndex mem build) cfg s = .ok t) ∧
      (AtRest s →
        Turns as [] ((s.actors.filter fun a => !a.deleted).flatMap Actor.ownCells ++ leaked)) := by
  have hbal := h.balances
  refine ⟨hbal.turns, hbal.sent, ?_, fun mem s' hstep => ?_, fun hs => ?_⟩
  · have hserved := hbal.served
    rwa [Nat.zero_add] at hserved
  · obtain ⟨t, ht, -⟩ := step_turnover hstep
    exact ⟨t, ht⟩
  · rw [← cells_atRest h.awake hs]
    exact hbal.turns

/-- The ledger of a query, and of a node whose scope is cancelled. -/
def queryLedger : State (ArtTree Nat) × List (Action Cell) × List Cell :=
  ledgerOnce^[80] (State.start ArtTree.init queryAndScope, (send queryAndScope).actions, [])

theorem ledgered_queryLedger :
    Ledgered .sse2 chain queryLedger.1 queryLedger.2.1 queryLedger.2.2 := by
  rw [queryLedger]
  exact @Ledgered.iterate (State.start ArtTree.init queryAndScope,
    (send queryAndScope).actions, []) (ledgered_start queryAndScope) 80

/-- The hypothesis of `memory_of_run` can be met: at its end the query leaves four
messages, and the cancelled scope a payload. -/
theorem memory_of_run_query_and_scope :
    Turns queryLedger.2.1 [] [.message, .message, .message, .message, .payload] := by
  have h := (memory_of_run ledgered_queryLedger).1
  have hcells : queryLedger.1.cells ++ queryLedger.2.2 =
      [.message, .message, .message, .message, .payload] := by decide +kernel
  exact hcells ▸ h

end Runs

end LightQuery
