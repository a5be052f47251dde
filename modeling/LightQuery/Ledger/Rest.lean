import LightQuery.Dataflow.Sound
import LightQuery.Ledger.Trees

/-!
# LightQuery.Ledger.Rest

Why no actor has a message left when `run_and_dispose` returns.

An actor with messages is active, and an active actor is in the task queue or
runs (`Awake`).  A step keeps this for every message and over any index: a
cancellation that is misled stops other actors, but it wakes those that it stops.
-/

namespace LightQuery

open State

variable {σ : Type} {s s' : State σ} {i : Nat} {a b : Actor}

/-- The actor is in the task queue, or it runs. -/
def State.Scheduled (s : State σ) (i : Nat) : Prop := i ∈ s.taskQueue ∨ s.pc = .running i

/-- An actor with messages is active, an active actor is scheduled, and the queue
is empty at the return. -/
structure Awake (s : State σ) : Prop where
  woken : ∀ i a, s.Holds i a → a.mailbox ≠ [] → a.isActive = true
  scheduled : ∀ i a, s.Holds i a → a.isActive = true → s.Scheduled i
  drained : Returned s → s.taskQueue = []

/-- **At the return the mailboxes are empty.** -/
theorem Awake.mailbox_eq_nil (h : Awake s) (hs : Returned s) (hi : s.Holds i a) :
    a.mailbox = [] := by
  by_contra hbox
  have hpc : s.pc = .returned := hs
  have hmem := (h.scheduled i a hi (h.woken i a hi hbox)).resolve_right (by simp [hpc])
  rw [h.drained hs] at hmem
  cases hmem

theorem awake_init (tree : σ) : Awake { actorTree := tree } where
  woken i a hi := by cases hi.1
  scheduled i a hi := by cases hi.1
  drained hs := by cases hs

/-- Only the actors, the queue and the place count. -/
theorem Awake.congr (h : Awake s) (hactors : s'.actors = s.actors)
    (hqueue : s'.taskQueue = s.taskQueue) (hpc : s'.pc = s.pc) : Awake s' where
  woken i a hi := h.woken i a ⟨hactors ▸ hi.1, hi.2⟩
  scheduled i a hi hact := by
    rw [Scheduled, hqueue, hpc]
    exact h.scheduled i a ⟨hactors ▸ hi.1, hi.2⟩ hact
  drained hs := by
    rw [hqueue]
    exact h.drained (hpc.symm.trans hs)

/-- While no actor runs, the place may change. -/
theorem Awake.goto (h : Awake s) (hpc : ∀ i, s.pc ≠ .running i) (hactors : s'.actors = s.actors)
    (hqueue : s'.taskQueue = s.taskQueue) (hdrained : Returned s' → s.taskQueue = []) :
    Awake s' where
  woken i a hi := h.woken i a ⟨hactors ▸ hi.1, hi.2⟩
  scheduled i a hi hact := by
    have hmem := (h.scheduled i a ⟨hactors ▸ hi.1, hi.2⟩ hact).resolve_right (hpc i)
    exact .inl (hqueue ▸ hmem)
  drained hs := hqueue ▸ hdrained hs

/-- One actor changes, and the others stay scheduled. -/
theorem Awake.of_set (h : Awake s) (hactors : s'.actors = s.actors.set i b)
    (hother : ∀ j, j ≠ i → s.Scheduled j → s'.Scheduled j)
    (hwoken : b.deleted = false → b.mailbox ≠ [] → b.isActive = true)
    (hself : b.deleted = false → b.isActive = true → s'.Scheduled i)
    (hdrained : Returned s' → s'.taskQueue = []) : Awake s' := by
  have hcases : ∀ j c, s'.Holds j c → (j = i ∧ c = b) ∨ (j ≠ i ∧ s.Holds j c) := by
    rintro j c ⟨hj, hdel⟩
    rw [hactors] at hj
    by_cases hji : j = i
    · subst hji
      rw [List.getElem?_set_self'] at hj
      obtain ⟨_, -, hc⟩ := Option.map_eq_some_iff.mp hj
      exact .inl ⟨rfl, hc.symm⟩
    · rw [List.getElem?_set_ne (Ne.symm hji)] at hj
      exact .inr ⟨hji, hj, hdel⟩
  refine ⟨fun j c hj hbox => ?_, fun j c hj hact => ?_, hdrained⟩
  · rcases hcases j c hj with ⟨rfl, rfl⟩ | ⟨-, hold⟩
    · exact hwoken hj.2 hbox
    · exact h.woken j c hold hbox
  · rcases hcases j c hj with ⟨rfl, rfl⟩ | ⟨hji, hold⟩
    · exact hself hj.2 hact
    · exact hother j hji (h.scheduled j c hold hact)

/-- An actor changes and is as active as before. -/
theorem Awake.put (h : Awake s) (hi : s.Holds i a) (hact : b.isActive = a.isActive)
    (hbox : b.mailbox ≠ [] → a.mailbox ≠ []) : Awake (s.put i b) :=
  h.of_set rfl (fun _ _ hj => hj) (fun _ hb => hact.trans (h.woken i a hi (hbox hb)))
    (fun _ hb => h.scheduled i a hi (hact.symm.trans hb)) h.drained

/-- An actor changes and is woken. -/
theorem Awake.wake (h : Awake s) (hs : ¬ Returned s) (hi : s.Holds i a)
    (hact : b.isActive = a.isActive) : Awake (s.wake i b) := by
  refine h.of_set rfl (fun j _ hj => hj.imp_left fun hj => ?_) (fun _ _ => rfl) (fun _ _ => ?_)
    fun hret => absurd hret hs
  · rw [State.wake]
    dsimp only
    split
    · exact hj
    · exact List.mem_append_left _ hj
  · rw [Scheduled, State.wake]
    dsimp only
    split
    · next hb => exact h.scheduled i a hi (hact.symm.trans hb)
    · exact .inl (List.mem_append_right _ (List.mem_singleton_self i))

/-! ## the functions -/

theorem Awake.deliver (h : Awake s) (hs : ¬ Returned s) {msg : TagMessage}
    (hrun : deliver s i msg = .ok s') : Awake s' := by
  unfold LightQuery.deliver at hrun
  split at hrun
  all_goals
    obtain ⟨a, ha, hrun⟩ := exists_of_bind_ok hrun
    have hi := holds_of_deref ha
    rw [activate_put hi (by exact hi.2)] at hrun
    cases hrun
    exact h.wake hs hi rfl

/-- A stop leaves the place as it is. -/
theorem Awake.stop (h : Awake s) (hs : ¬ Returned s) (hrun : s.handleStopFromParent i = .ok s') :
    Awake s' ∧ s'.pc = s.pc := by
  cases ha : s.deref i with
  | error e => simp [handleStopFromParent, ha, bind, Except.bind] at hrun
  | ok a =>
      have hi := holds_of_deref ha
      cases ht : a.terminating with
      | true =>
          simp only [handleStopFromParent, ha, ht, bind, Except.bind, if_true] at hrun
          cases hrun
          exact ⟨h, rfl⟩
      | false =>
          rw [handleStopFromParent_eq hi ht] at hrun
          cases hrun
          exact ⟨h.wake hs hi rfl, rfl⟩

theorem Awake.stopAll (h : Awake s) (hs : ¬ Returned s) {targets : List Nat}
    (hrun : targets.foldlM stopFunc s = .ok s') : Awake s' ∧ s'.pc = s.pc := by
  induction targets generalizing s with
  | nil =>
      cases hrun
      exact ⟨h, rfl⟩
  | cons child targets ih =>
      rw [List.foldlM_cons] at hrun
      obtain ⟨s₁, h₁, hrun⟩ := exists_of_bind_ok hrun
      have hcount : Awake { s with numTerminatingChildren := s.numTerminatingChildren + 1 } :=
        h.congr rfl rfl rfl
      obtain ⟨hawake, hpc⟩ := hcount.stop hs h₁
      obtain ⟨hawake', hpc'⟩ := ih hawake (fun hret => hs (hpc.symm.trans hret)) hrun
      exact ⟨hawake', hpc'.trans hpc⟩

section Dataflow

variable {index : ActorIndex σ} {cfg : Config} {msg : TagMessage}

theorem Awake.childTermination (h : Awake s) (hs : ¬ Returned s) {addr : List UInt8}
    (hrun : handleChildTermination index s addr = .ok s') : Awake s' ∧ s'.pc = s.pc := by
  obtain ⟨⟨search, childActorAddr⟩, -, hrun⟩ := exists_of_bind_ok hrun
  dsimp only at hrun
  split at hrun
  · cases hrun
    exact ⟨h, rfl⟩
  · split at hrun
    · cases hrun
    · cases childActorAddr with
      | none => cases hrun
      | some child =>
          obtain ⟨tree, -, hrun⟩ := exists_of_bind_ok hrun
          have hcount : Awake { s with
              numTerminatingChildren := s.numTerminatingChildren + 1, actorTree := tree } :=
            h.congr rfl rfl rfl
          exact hcount.stop hs hrun

/-- A new actor has no messages and is not active. -/
theorem Awake.create (h : Awake s) (a : Actor) (hact : a.isActive = false) (hbox : a.mailbox = [])
    (tree : σ) : Awake { s with actors := s.actors ++ [a], actorTree := tree } := by
  have hcases : ∀ j c, State.Holds { s with actors := s.actors ++ [a], actorTree := tree } j c →
      s.Holds j c ∨ c = a := by
    rintro j c ⟨hj, hdel⟩
    rw [List.getElem?_append] at hj
    split at hj
    · exact .inl ⟨hj, hdel⟩
    · exact .inr (List.mem_singleton.mp (List.mem_of_getElem? hj))
  refine ⟨fun j c hj hne => ?_, fun j c hj hc => ?_, h.drained⟩
  · rcases hcases j c hj with hold | rfl
    · exact h.woken j c hold hne
    · exact absurd hbox hne
  · rcases hcases j c hj with hold | rfl
    · exact h.scheduled j c hold hc
    · rw [hact] at hc
      cases hc

theorem Awake.user (h : Awake s) (hs : ¬ Returned s)
    (hrun : handleUser index cfg s msg = .ok s') : Awake s' := by
  obtain ⟨⟨search, childPtr⟩, -, hrun⟩ := exists_of_bind_ok hrun
  dsimp only at hrun
  split at hrun
  · cases childPtr with
    | none => cases hrun
    | some child => exact h.deliver hs hrun
  · split at hrun
    · obtain ⟨code, -, hrun⟩ := exists_of_bind_ok hrun
      cases code with
      | none => cases hrun
      | some code =>
          obtain ⟨op, -, hrun⟩ := exists_of_bind_ok hrun
          cases op with
          | none => cases hrun
          | some op =>
              obtain ⟨tree, -, hrun⟩ := exists_of_bind_ok hrun
              exact (h.create { address := msg.address, op := op } rfl rfl tree).deliver hs hrun
    · split at hrun
      · cases hrun
        exact h
      · cases hrun

theorem Awake.message (h : Awake s) (hs : ¬ Returned s)
    (hrun : handleMessage index cfg s msg = .ok s') : Awake s' := by
  unfold handleMessage at hrun
  split at hrun
  · exact h.user hs hrun
  · split at hrun
    · obtain ⟨targets, -, hrun⟩ := exists_of_bind_ok hrun
      obtain ⟨s₁, h₁, hrun⟩ := exists_of_bind_ok hrun
      obtain ⟨tree, -, hrun⟩ := exists_of_bind_ok hrun
      cases hrun
      exact (h.stopAll hs h₁).1.congr rfl rfl rfl
    · cases hrun
      exact h
  · cases hrun
    exact h.congr rfl rfl rfl

/-- The actor that ran is deleted, idle or queued again. -/
theorem Awake.finishRun (h : Awake s) (hpc : s.pc = .running i)
    (hrun : finishRun s i = .ok s') : Awake s' := by
  obtain ⟨a, ha, -⟩ := exists_of_bind_ok hrun
  have hi := holds_of_deref ha
  -- the others are in the queue
  have hother : ∀ j, j ≠ i → s.Scheduled j → j ∈ s.taskQueue := fun j hji hj =>
    hj.resolve_right fun hrun => hji (Pc.running.inj (hrun.symm.trans hpc))
  cases ht : a.terminating with
  | true =>
      rw [finishRun_delete hi ht] at hrun
      cases hrun
      exact h.of_set rfl (fun j hji hj => .inl (hother j hji hj)) (fun hdel => by cases hdel)
        (fun hdel => by cases hdel) fun hret => by cases hret
  | false =>
      by_cases hbox : a.mailbox = []
      · rw [finishRun_idle hi ht hbox] at hrun
        cases hrun
        exact h.of_set rfl (fun j hji hj => .inl (hother j hji hj))
          (fun _ hne => absurd hbox hne) (fun _ hact => by cases hact) fun hret => by cases hret
      · rw [finishRun_requeue hi ht hbox] at hrun
        cases hrun
        exact h.of_set rfl (fun j hji hj => .inl (List.mem_append_left _ (hother j hji hj)))
          (fun _ _ => rfl) (fun _ _ => .inl (List.mem_append_right _ (List.mem_singleton_self i)))
          fun hret => by cases hret

theorem Awake.runMessage (h : Awake s) (hpc : s.pc = .running i)
    (hrun : runMessage index cfg s i msg = .ok s') : Awake s' := by
  have hs : ¬ Returned s := fun hret => by
    rw [Returned, hpc] at hret
    cases hret
  obtain ⟨a, ha, hrun⟩ := exists_of_bind_ok hrun
  have hi := holds_of_deref ha
  split at hrun
  · split at hrun
    · split at hrun
      · cases hrun
        exact h
      · cases hrun
    · next data _ =>
        obtain ⟨w, -, hrun⟩ := exists_of_bind_ok hrun
        have hwork : Awake (applyWork s i a data w) := by
          rw [applyWork_eq]
          exact (h.put (b := { a with op := w.op, served := a.served ++ [data] }) hi rfl id).congr
            rfl rfl rfl
        have hpc' : (applyWork s i a data w).pc = s.pc := by rw [applyWork_eq]
        dsimp only at hrun
        split at hrun
        · exact (hwork.childTermination (fun hret => hs (hpc'.symm.trans hret)) hrun).1
        · cases hrun
          exact hwork
  · obtain ⟨s₁, h₁, hrun⟩ := exists_of_bind_ok hrun
    obtain ⟨hawake, hpc'⟩ := h.childTermination hs h₁
    exact hawake.finishRun (hpc'.trans hpc) hrun
  · cases hrun
    exact h.congr rfl rfl rfl

theorem Awake.runChild (h : Awake s) (hpc : s.pc = .running i)
    (hrun : runChild index cfg s i = .ok s') : Awake s' := by
  obtain ⟨a, ha, hrun⟩ := exists_of_bind_ok hrun
  have hi := holds_of_deref ha
  split at hrun
  · exact h.finishRun hpc hrun
  · next msg rest hbox =>
      have hput : ∀ count reads box, (box ≠ [] → a.mailbox ≠ []) →
          Awake (State.put { s with clockReads := reads } i
            { a with executionCount := count, mailbox := box }) := fun count reads box hne =>
        (h.put (b := { a with executionCount := count, mailbox := box }) hi rfl hne).congr
          rfl rfl rfl
      dsimp only at hrun
      split at hrun
      · exact (hput _ _ rest fun _ => by simp [hbox]).runMessage hpc hrun
      · exact (hput _ _ a.mailbox id).finishRun hpc hrun

/-- The first task runs, and the others stay in the queue. -/
theorem Awake.nextTask (h : Awake s) (hpc : s.pc = .tasks) (hrun : nextTask cfg s = .ok s') :
    Awake s' := by
  unfold LightQuery.nextTask at hrun
  split at hrun
  · next hnil =>
      cases hrun
      exact h.goto (by simp [hpc]) rfl rfl fun _ => hnil
  · next child queue hcons =>
      dsimp only at hrun
      split at hrun
      · obtain ⟨a, ha, hrun⟩ := exists_of_bind_ok hrun
        have hi : s.Holds child a := holds_of_deref ha
        cases hrun
        refine h.of_set rfl (fun j hji hj => .inl ?_) (fun _ => h.woken child a hi)
          (fun _ _ => .inr rfl) fun hret => by cases hret
        have hmem := hj.resolve_right (by simp [hpc])
        rw [hcons] at hmem
        exact (List.mem_cons.mp hmem).resolve_left hji
      · cases hrun
        exact h.goto (by simp [hpc]) rfl rfl fun hret => by cases hret

/-- **Step lemma**: a step that does not fault leaves no actor behind. -/
theorem Awake.step (h : Awake s) (hs : ¬ Returned s) (hrun : step index cfg s = .ok s') :
    Awake s' := by
  cases hpc : s.pc with
  | mailbox =>
      cases hbox : s.mailbox with
      | nil =>
          rw [step_mailbox_nil hpc hbox] at hrun
          cases hrun
          exact h.goto (by simp [hpc]) rfl rfl fun hret => by cases hret
      | cons msg rest =>
          rw [step_mailbox_cons hpc hbox] at hrun
          have hpop : Awake { s with mailbox := rest } := h.congr rfl rfl rfl
          exact hpop.message hs hrun
  | tasks =>
      rw [step_tasks hpc] at hrun
      exact h.nextTask hpc hrun
  | running i =>
      rw [step_running hpc] at hrun
      exact h.runChild hpc hrun
  | returned => exact absurd hpc hs

end Dataflow

end LightQuery
