import LightQuery.Dataflow.State
import LightQuery.Dataflow.Work

/-!
# LightQuery.Dataflow.Effects

What the operations on actors do to an actor that is not deleted.

`wake` is the one way in which an actor changes and gets into the task queue: a
message, a stop and an expired slice are all cases of it.
-/

namespace LightQuery

variable {σ : Type} {s : State σ} {child : Nat} {a : Actor}

namespace State

/-- The pointer is to this actor, which is not deleted. -/
def Holds (s : State σ) (child : Nat) (a : Actor) : Prop :=
  s.actors[child]? = some a ∧ a.deleted = false

/-- The actor is written back and activated. -/
def wake (s : State σ) (child : Nat) (a : Actor) : State σ :=
  { s with
    actors := s.actors.set child { a with isActive := true }
    taskQueue := if a.isActive then s.taskQueue else s.taskQueue ++ [child] }

@[simp] theorem wake_actorTree : (s.wake child a).actorTree = s.actorTree := rfl
@[simp] theorem wake_mailbox : (s.wake child a).mailbox = s.mailbox := rfl
@[simp] theorem wake_pc : (s.wake child a).pc = s.pc := rfl
@[simp] theorem wake_executionCount : (s.wake child a).executionCount = s.executionCount := rfl
@[simp] theorem wake_enqueued : (s.wake child a).enqueued = s.enqueued := rfl
@[simp] theorem wake_cout : (s.wake child a).cout = s.cout := rfl
@[simp] theorem wake_numTerminatingChildren :
    (s.wake child a).numTerminatingChildren = s.numTerminatingChildren := rfl
@[simp] theorem wake_actors :
    (s.wake child a).actors = s.actors.set child { a with isActive := true } := rfl

theorem Holds.lt (h : s.Holds child a) : child < s.actors.length :=
  (List.getElem?_eq_some_iff.mp h.1).1

theorem Holds.deref (h : s.Holds child a) : s.deref child = .ok a := by
  simp [State.deref, h.1, h.2]

/-- A write is read back. -/
theorem Holds.put (h : s.Holds child a) {b : Actor} (hb : b.deleted = false) :
    (s.put child b).Holds child b :=
  ⟨List.getElem?_set_self h.lt, hb⟩

theorem getElem?_of_deref (h : s.deref child = .ok a) : s.actors[child]? = some a := by
  rw [deref] at h
  cases hc : s.actors[child]? with
  | none => simp [hc] at h
  | some b =>
      simp only [hc] at h
      split at h
      · cases h
      · rw [Except.ok.inj h]

/-- A write that is read back is what was written. -/
theorem eq_of_deref_put {b : Actor} (h : (s.put child a).deref child = .ok b) : b = a := by
  have hget := getElem?_of_deref h
  rw [put, List.getElem?_set_self'] at hget
  obtain ⟨c, -, hc⟩ := Option.map_eq_some_iff.mp hget
  exact hc.symm

theorem activate_put (h : s.Holds child a) {b : Actor} (hb : b.deleted = false) :
    (s.put child b).activate child = .ok (s.wake child b) := by
  rw [activate, (h.put hb).deref]
  cases hact : b.isActive with
  | true =>
      have : { b with isActive := true } = b := by rw [← hact]
      simp [wake, put, hact, this, bind, Except.bind]
  | false => simp [wake, put, hact, bind, Except.bind]

theorem childEnqueMessage_eq (h : s.Holds child a) (msg : TagMessage) :
    s.childEnqueMessage child msg =
      .ok (s.wake child { a with mailbox := a.mailbox ++ [msg] }) := by
  rw [childEnqueMessage, h.deref]
  exact activate_put h h.2

theorem handleStopFromParent_eq (h : s.Holds child a) (ht : a.terminating = false) :
    s.handleStopFromParent child =
      .ok (s.wake child { a with terminating := true, mailbox := [] }) := by
  rw [handleStopFromParent, h.deref]
  have hwake := activate_put h (b := { a with terminating := true, mailbox := [] }) h.2
  cases hact : a.isActive with
  | true =>
      rw [activate, (h.put (show Actor.deleted { a with terminating := true, mailbox := [] } = false
        from h.2)).deref] at hwake
      simpa [ht, hact, bind, Except.bind] using hwake
  | false => simpa [ht, hact, bind, Except.bind] using hwake

theorem foldl_enqueMessage (s : State σ) (msgs : List TagMessage) :
    msgs.foldl enqueMessage s =
      { s with mailbox := s.mailbox ++ msgs, enqueued := s.enqueued ++ msgs } := by
  induction msgs generalizing s with
  | nil => simp
  | cons msg msgs ih => simp [ih, enqueMessage]

end State

open State

/-! ## the end of a run -/

/-- A terminating actor is deleted. -/
theorem finishRun_delete (h : s.Holds child a) (ht : a.terminating = true) :
    finishRun s child = .ok { s with
      pc := .tasks
      numTerminatingChildren := s.numTerminatingChildren - 1
      actors := s.actors.set child { a with deleted := true } } := by
  simp [finishRun, h.deref, ht, handleChildTerminated, State.put, bind, Except.bind]

/-- An actor with an empty mailbox goes idle. -/
theorem finishRun_idle (h : s.Holds child a) (ht : a.terminating = false) (hm : a.mailbox = []) :
    finishRun s child = .ok { s with
      pc := .tasks
      actors := s.actors.set child { a with isActive := false } } := by
  simp [finishRun, h.deref, ht, hm, State.put, bind, Except.bind]

/-- An actor with messages left is a task again. -/
theorem finishRun_requeue (h : s.Holds child a) (ht : a.terminating = false)
    (hm : a.mailbox ≠ []) :
    finishRun s child = .ok ({ s with pc := .tasks }.wake child { a with isActive := false }) := by
  have hs : State.Holds { s with pc := .tasks } child a := h
  have := activate_put hs (b := { a with isActive := false }) h.2
  simpa [finishRun, h.deref, ht, hm, bind, Except.bind] using this

theorem applyWork_eq (s : State σ) (child : Nat) (a : Actor) (data : MessagePayload)
    (w : Work Operator) :
    applyWork s child a data w = { s with
      actors := s.actors.set child { a with op := w.op, served := a.served ++ [data] }
      cout := s.cout ++ w.lines.map fun line => (some child, line)
      mailbox := s.mailbox ++ w.sent
      enqueued := s.enqueued ++ w.sent } := by
  rw [applyWork, foldl_enqueMessage]
  rfl

/-! ## a step at each place -/

section Step

variable {index : ActorIndex σ} {cfg : Config}

theorem step_mailbox_nil (hpc : s.pc = .mailbox) (hbox : s.mailbox = []) :
    step index cfg s = .ok { s with pc := .tasks } := by
  simp [step, hpc, hbox]

theorem step_mailbox_cons (hpc : s.pc = .mailbox) {msg : TagMessage} {rest : List TagMessage}
    (hbox : s.mailbox = msg :: rest) :
    step index cfg s = handleMessage index cfg { s with mailbox := rest } msg := by
  simp [step, hpc, hbox]

theorem step_tasks (hpc : s.pc = .tasks) : step index cfg s = nextTask cfg s := by
  simp [step, hpc]

theorem step_running (hpc : s.pc = .running child) :
    step index cfg s = runChild index cfg s child := by
  simp [step, hpc]

end Step

/-- The dataflow before its run. -/
theorem start_eq (tree : σ) (msgs : List TagMessage) :
    State.start tree msgs = { actorTree := tree, mailbox := msgs, enqueued := msgs } := by
  simp [State.start, foldl_enqueMessage]

end LightQuery
