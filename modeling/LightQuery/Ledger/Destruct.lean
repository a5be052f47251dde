import LightQuery.Dataflow.Shutdown
import LightQuery.Ledger.Messages

/-!
# LightQuery.Ledger.Destruct

The destructor of a dataflow.

`_task_queue` owns the actors that are queued, and its destructor deletes them;
nothing owns the others.  A dataflow that is destroyed leaves its idle actors
behind, and one that its parent stopped before leaves none.
-/

namespace LightQuery

open Heap State Turnover

variable {σ : Type}

/-- The actors of a task queue are deleted, from its front. -/
def destroyTasks : List Nat → State σ → Except Fault (State σ × Turnover)
  | [], s => .ok (s, {})
  | child :: queue, s => do
      let a ← s.deref child
      let (s, t) ← destroyTasks queue (s.put child { a with deleted := true })
      .ok (s, (deleteActor a).andThen t)

/-- `~dataflow`, as far as its actors go. -/
def destruct (s : State σ) : Except Fault (State σ × Turnover) :=
  destroyTasks s.taskQueue { s with taskQueue := [] }

/-- An actor is deleted, and no other. -/
theorem holds_delete_iff {s : State σ} {child i : Nat} {a b : Actor} (ha : s.Holds child a) :
    (s.put child { a with deleted := true }).Holds i b ↔ s.Holds i b ∧ i ≠ child := by
  by_cases hi : i = child
  · subst hi
    have hself : (s.put i { a with deleted := true }).actors[i]? =
        some { a with deleted := true } := List.getElem?_set_self ha.lt
    refine ⟨fun hb => ?_, fun hb => absurd rfl hb.2⟩
    obtain ⟨hget, hdel⟩ := hb
    rw [hself] at hget
    cases hget
    cases hdel
  · have hother : (s.put child { a with deleted := true }).actors[i]? = s.actors[i]? :=
      List.getElem?_set_ne (Ne.symm hi)
    rw [State.Holds, State.Holds, hother]
    exact ⟨fun hb => ⟨hb, hi⟩, fun hb => hb.1⟩

/-- **The queue's destructor**: where no actor is queued twice and none is
deleted, it deletes the queued actors and no other. -/
theorem destroyTasks_spec {queue : List Nat} {s : State σ} (hnodup : queue.Nodup)
    (hheld : ∀ i ∈ queue, ∃ a, s.Holds i a) :
    ∃ s' t, destroyTasks queue s = .ok (s', t) ∧ Balances s.cells s.servedCount s' t ∧
      s'.mailbox = s.mailbox ∧ (∀ i a, s'.Holds i a ↔ s.Holds i a ∧ i ∉ queue) ∧
      ((∀ i a, s.Holds i a → a.mailbox = []) → t.leaks = []) := by
  induction queue generalizing s with
  | nil => exact ⟨s, {}, rfl, .refl, rfl, by simp, fun _ => rfl⟩
  | cons child queue ih =>
      obtain ⟨a, ha⟩ := hheld child List.mem_cons_self
      obtain ⟨hnot, hnodup⟩ := List.nodup_cons.mp hnodup
      obtain ⟨s', t, hrun, hbal, hbox, hholds, hleaks⟩ := ih hnodup fun i hi => by
        obtain ⟨b, hb⟩ := hheld i (List.mem_cons_of_mem child hi)
        exact ⟨b, (holds_delete_iff ha).mpr ⟨hb, fun heq => hnot (heq ▸ hi)⟩⟩
      refine ⟨s', (deleteActor a).andThen t, ?_, (deleteActor_balances ha).andThen hbal, hbox,
        fun i b => ?_, fun hempty => ?_⟩
      · simp [destroyTasks, ha.deref, hrun, bind, Except.bind]
      · rw [hholds, holds_delete_iff ha, List.mem_cons, not_or, and_assoc]
      · have hrest := hleaks fun i b hb => hempty i b ((holds_delete_iff ha).mp hb).1
        simp [Turnover.andThen, deleteActor, hempty child a ha, hrest]

/-- What the destructor of a dataflow in state `s` has done. -/
structure Destroyed (s s' : State σ) (t : Turnover) : Prop where
  /-- the actors that are left and the messages are what is still live -/
  turns : Turns t.actions s.cells (s.mailbox.flatMap TagMessage.cells ++
    (s'.actors.filter fun a => !a.deleted).flatMap Actor.ownCells ++ t.leaks)
  sent : ∀ c ∈ t.leaks, c.Sent
  /-- the idle actors are left -/
  idle : ∀ i a, s'.Holds i a ↔ s.Holds i a ∧ a.isActive = false
  /-- messages leak with the actors that hold them -/
  unread : (∀ i a, s.Holds i a → a.mailbox = []) → t.leaks = []

section Tree

variable {cfg : Config} {build : Build} {p : List UInt8} {msgs : List TagMessage}
  {s : State (ArtTree Nat)} {m : State (MapIndex Nat)} {as : List (Action Cell)}
  {leaked : List Cell}

/-- **Between two steps** the queue holds the active actors. -/
theorem Mapped.destruct (h : Mapped cfg s m) (hpc : ∀ i, s.pc ≠ .running i) :
    ∃ s' t, LightQuery.destruct s = .ok (s', t) ∧ Destroyed s s' t := by
  have hqueue : s.taskQueue = m.taskQueue := by
    rw [h.rest]
    rfl
  have hpc' : ∀ i, m.pc ≠ .running i := fun i => by
    have := hpc i
    rw [h.rest] at this
    exact this
  have hactive : ∀ i a, m.actors[i]? = some a →
      (i ∈ m.taskQueue ↔ a.isActive = true ∧ a.deleted = false) := fun i a hi => by
    rw [(h.inv.actor i a hi).queued]
    simp [hpc' i]
  obtain ⟨s', t, hrun, hbal, hbox, hholds, hleaks⟩ :=
    destroyTasks_spec (s := { s with taskQueue := [] }) (hqueue ▸ h.inv.queue_nodup) (fun i hi => by
      rw [hqueue] at hi
      have hlt := h.inv.queue_lt i hi
      have hget : m.actors[i]? = some m.actors[i] := List.getElem?_eq_getElem hlt
      exact ⟨_, h.holds_iff.mpr ⟨hget, ((hactive i _ hget).mp hi).2⟩⟩)
  have hidle : ∀ i a, s'.Holds i a ↔ s.Holds i a ∧ a.isActive = false := fun i a => by
    rw [hholds, hqueue]
    show s.Holds i a ∧ _ ↔ _
    refine and_congr_right fun ha => ?_
    have ha' := h.holds_iff.mp ha
    rw [hactive i a ha'.1, ha'.2]
    simp
  refine ⟨s', t, hrun, ?_, hbal.sent, hidle, hleaks⟩
  have hcells : s'.cells = s.mailbox.flatMap TagMessage.cells ++
      (s'.actors.filter fun a => !a.deleted).flatMap Actor.ownCells := by
    rw [State.cells, hbox]
    refine congrArg _ (flatMap_cells_of_idle fun a ha hdel => ?_)
    obtain ⟨i, hi⟩ := List.mem_iff_getElem?.mp ha
    obtain ⟨hold, hact⟩ := (hidle i a).mp ⟨hi, hdel⟩
    by_contra hmail
    have := (h.inv.actor i a (h.holds_iff.mp hold).1).woken hmail
    rw [hact] at this
    cases this
  rw [← hcells]
  exact hbal.turns

/-- **Destroying a dataflow**: between two steps of a dataflow that is fed, outside
of an actor's run, its destructor deletes every active actor once and no other.
What is live then is lost: the idle actors, the messages, and what had leaked. -/
theorem destruct_of_fed (h : Fed build cfg msgs s) (hl : Ledgered build cfg s as leaked)
    (hpc : ∀ i, s.pc ≠ .running i) :
    ∃ s' t, LightQuery.destruct s = .ok (s', t) ∧
      (∀ i a, s'.Holds i a ↔ s.Holds i a ∧ a.isActive = false) ∧
      (∀ c ∈ t.leaks, c = .message ∨ c = .payload) ∧
      Turns (as ++ t.actions) [] (s.mailbox.flatMap TagMessage.cells ++
        (s'.actors.filter fun a => !a.deleted).flatMap Actor.ownCells ++ t.leaks ++ leaked) := by
  obtain ⟨m, hm⟩ := h.tracked
  obtain ⟨s', t, hrun, hd⟩ := hm.toMapped.destruct hpc
  exact ⟨s', t, hrun, hd.idle, hd.sent, hl.balances.turns.append (hd.turns.frame leaked)⟩

/-- OUT has sent a payload of one node, and waits for its EOS. -/
def outIdle : State (ArtTree Nat) :=
  runFor chain 80 (State.start ArtTree.init [nodesFor [⟨1, 1⟩]])

theorem fed_outIdle : Fed .sse2 chain [nodesFor [⟨1, 1⟩]] outIdle := by
  have htakes : ∀ msg ∈ [nodesFor [⟨1, 1⟩]], Takes msg := fun msg hmsg =>
    takes_query msg (List.mem_cons.mpr (.inl (List.mem_singleton.mp hmsg)))
  exact (fed_start htakes).runFor 80

/-- A query without an EOS: `destruct_of_fed` on OUT, which is lost. -/
theorem destruct_of_fed_out_idle : ∃ s' t a, LightQuery.destruct outIdle = .ok (s', t) ∧
    s'.Holds 0 a ∧ a.isActive = false := by
  obtain ⟨as, leaked, hl⟩ := Ledgered.of_fed fed_outIdle
  have hpc : outIdle.pc = .returned := by decide +kernel
  have hout : outIdle.actors.map (fun a => (a.isActive, a.deleted)) = [(false, false)] := by
    decide +kernel
  obtain ⟨a, hactors, ha⟩ := List.map_eq_singleton_iff.mp hout
  obtain ⟨hact, hdel⟩ := Prod.mk.inj ha
  obtain ⟨s', t, hrun, hidle, -⟩ := destruct_of_fed fed_outIdle hl fun i hi => by
    rw [hpc] at hi
    cases hi
  exact ⟨s', t, a, hrun, (hidle 0 a).mpr ⟨⟨by rw [hactors]; rfl, hdel⟩, hact⟩, hact⟩

/-- **Stopping a dataflow before its end**: whatever of its messages it is sent
after its parent stopped it and however far it runs, the destructor leaves no
actor when none runs, and nothing but the messages that came since is lost with
it. -/
theorem destruct_of_shutdown {address : List UInt8} {g g' g'' : ActorGroup (ArtTree Nat)}
    {mem : Nat → UInt8} (h : Fed build cfg msgs g.state) (hg : g.terminating = false)
    (hown : ∀ msg ∈ msgs, address <+: msg.address) (hne : address ≠ [])
    (hle : address.length ≤ 2) (hroot : g.state.actorTree.root ≠ .null)
    (hstop : g.handleStopFromParent (radixIndex mem build) address = .ok g')
    (hmoves : Relation.ReflTransGen (GroupMove build cfg address) g' g'')
    (hpc : ∀ i, g''.state.pc ≠ .running i) :
    ∃ s' t, LightQuery.destruct g''.state = .ok (s', t) ∧ (∀ a ∈ s'.actors, a.deleted = true) ∧
      Turns t.actions g''.state.cells (g''.state.mailbox.flatMap TagMessage.cells) := by
  obtain ⟨m, hm, hin⟩ := h.inside hle hown
  obtain ⟨s₁, m₁, hrun₁, -, -, hclosed⟩ := hm.toMapped.close hin hne hle mem hroot
  obtain ⟨g₁, hstop₁, ht, hstate, -⟩ := ActorGroup.handleStopFromParent_of_ok hg hrun₁
  rw [hstop] at hstop₁
  cases hstop₁
  rw [← hstate] at hclosed
  obtain ⟨⟨m₂, hm₂⟩, -⟩ := closed_of_moves hclosed ht hmoves
  obtain ⟨s', t, hrun, hd⟩ := hm₂.toMapped.destruct hpc
  have hactor : ∀ i a, g''.state.Holds i a → a.isActive = true ∧ a.mailbox = [] := fun i a hi => by
    have hold := hm₂.holds_iff.mp hi
    exact (hm₂.inv.actor i a hold.1).stopped (hm₂.stopped i a hold)
  have hdel : ∀ a ∈ s'.actors, a.deleted = true := fun a ha => by
    obtain ⟨i, hi⟩ := List.mem_iff_getElem?.mp ha
    by_contra hlive
    obtain ⟨hold, hact⟩ := (hd.idle i a).mp ⟨hi, by simpa using hlive⟩
    rw [(hactor i a hold).1] at hact
    cases hact
  refine ⟨s', t, hrun, hdel, ?_⟩
  have hnone : (s'.actors.filter fun a => !a.deleted) = [] :=
    List.filter_eq_nil_iff.mpr fun a ha => by simp [hdel a ha]
  have hturns := hd.turns
  rwa [hnone, hd.unread fun i a hi => (hactor i a hi).2, List.flatMap_nil, List.append_nil,
    List.append_nil] at hturns

/-- A query that is stopped before it runs: `destruct_of_shutdown` on its OUT. -/
theorem destruct_of_shutdown_query_running : ∃ g' s' t,
    ActorGroup.handleStopFromParent (radixIndex (fun _ => 0) .sse2) [7, 0]
        { state := queryRunning } = .ok g' ∧
      LightQuery.destruct g'.state = .ok (s', t) ∧ ∀ a ∈ s'.actors, a.deleted = true := by
  have hroot : queryRunning.actorTree.root ≠ .null := ne_null_of_isNull (by decide +kernel)
  have heval : (ActorGroup.handleStopFromParent (radixIndex (fun _ => 0) .sse2) [7, 0]
      { state := queryRunning }).toOption.any (fun g => decide (g.state.pc = .mailbox)) = true := by
    decide +kernel
  obtain ⟨g', hstop, hpc⟩ := Machine.exists_ok_of_any heval
  obtain ⟨s', t, hrun, hdel, -⟩ := destruct_of_shutdown fed_queryRunning rfl (by decide)
    (by decide) (by decide) hroot hstop .refl fun i hi => by
      rw [of_decide_eq_true hpc] at hi
      cases hi
  exact ⟨g', s', t, hstop, hrun, hdel⟩

end Tree

end LightQuery
