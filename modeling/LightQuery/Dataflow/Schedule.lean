import LightQuery.Dataflow.Cases

/-!
# LightQuery.Dataflow.Schedule

The scheduling of a dataflow over the map index: what holds between any two of
its steps.
-/

namespace LightQuery

open State Relation

/-- **The scheduling invariant** between two steps of `run_and_dispose`. -/
structure Accounted (s : State (MapIndex Nat)) : Prop where
  /-- an actor is queued at most once, and exactly when its flag says so -/
  queued : s.taskQueue.Nodup ∧ ∀ i, i ∈ s.taskQueue ↔ ∃ a, s.Holds i a ∧ a.isActive = true
  /-- an actor with messages is active -/
  woken : ∀ i a, s.Holds i a → a.mailbox ≠ [] → a.isActive = true
  /-- a terminating actor is active, has no messages and is disabled in the tree -/
  stopped : ∀ i a, s.Holds i a → a.terminating = true →
    a.isActive = true ∧ a.mailbox = [] ∧ s.actorTree.lookup a.address = (-1, none)
  /-- a live entry points to an actor that does not terminate -/
  live : ∀ addr i, (addr, i) ∈ s.actorTree.live → ∃ a, s.Holds i a ∧ a.terminating = false
  /-- the terminating actors that exist are counted -/
  count : s.numTerminatingChildren =
    (s.actors.filter fun a => a.terminating && !a.deleted).length

/-- The invariant is what is seen of `Inv` while no actor runs. -/
theorem Inv.accounted {limitCnt : UInt32} {s : State (MapIndex Nat)} (h : Inv limitCnt [] s)
    (hpc : ∀ i, s.pc ≠ .running i) : Accounted s where
  queued := by
    refine ⟨h.queue_nodup, fun i => ⟨fun hi => ?_, ?_⟩⟩
    · have ha := List.getElem?_eq_getElem (h.queue_lt i hi)
      obtain ⟨hact, hdel, -⟩ := (h.actor i _ ha).queued.mp hi
      exact ⟨_, ⟨ha, hdel⟩, hact⟩
    · rintro ⟨a, ha, hact⟩
      exact (h.actor i a ha.1).queued.mpr ⟨hact, ha.2, hpc i⟩
  woken := fun i a ha => (h.actor i a ha.1).woken
  stopped := by
    intro i a ha ht
    obtain ⟨hact, hbox⟩ := (h.actor i a ha.1).stopped ht
    have hcov := (h.actor i a ha.1).covered (.inl ht)
    exact ⟨hact, hbox, by rw [MapIndex.lookup, if_pos hcov]⟩
  live := by
    intro addr i hlive
    obtain ⟨a, ha, ht, -⟩ := h.holds_of_live hlive
    exact ⟨a, ha, ht⟩
  count := by
    rw [h.count, List.countP_eq_length_filter]
    rfl

variable {cfg : Config}

/-- Whatever happens to a dataflow keeps its invariant. -/
theorem Inv.move {s s' : State (MapIndex Nat)}
    (hmove : Move mapIndex cfg Accepted (fun _ => True) s s') (h : Inv cfg.limitCnt [] s) :
    Inv cfg.limitCnt [] s' := by
  cases hmove with
  | enqueue msg hmsg =>
      refine h.congr rfl rfl rfl (fun _ => Iff.rfl) (fun m hm => ?_) rfl
      rcases List.mem_append.mp hm with hm | hm
      · exact h.mail m hm
      · exact List.mem_singleton.mp hm ▸ hmsg
  | step _ hs _ hstep => exact (stepCase_of_step h hs hstep).inv h
  | call hs =>
      have hpc : s.pc = .returned := hs
      exact h.congr rfl rfl rfl (by simp [hpc]) h.mail rfl

/-- **Scheduling and termination accounting**: from a new dataflow on, whatever
accepted messages are enqueued and however the steps fall, no step faults, and
between two steps the scheduling invariant holds. -/
theorem accounted_of_moves {s : State (MapIndex Nat)}
    (h : ReflTransGen (Move mapIndex cfg Accepted fun _ => True) { actorTree := MapIndex.empty } s) :
    (¬ Returned s → ∃ s', step mapIndex cfg s = .ok s') ∧
      ((∀ i, s.pc ≠ .running i) → Accounted s) := by
  have hinv : Inv cfg.limitCnt [] s := by
    induction h with
    | refl => exact inv_start fun m hm => absurd hm List.not_mem_nil
    | tail _ hmove ih => exact ih.move hmove
  refine ⟨fun hs => ?_, hinv.accounted⟩
  obtain ⟨s', hstep, -⟩ := step_cases hinv hs
  exact ⟨s', hstep⟩

/-! ## runs of a fresh dataflow -/

/-- The messages of a new dataflow's mailbox are enqueued one by one. -/
theorem moves_start {σ : Type} {index : ActorIndex σ} {accepts : TagMessage → Prop}
    {permits : State σ → Prop} (tree : σ) {msgs : List TagMessage} (h : ∀ m ∈ msgs, accepts m) :
    ReflTransGen (Move index cfg accepts permits) { actorTree := tree } (State.start tree msgs) := by
  induction msgs using List.reverseRecOn with
  | nil => exact .refl
  | append_singleton msgs msg ih =>
      rw [State.start, List.foldl_append]
      exact (ih fun m hm => h m (List.mem_append_left _ hm)).tail
        (.enqueue msg (h msg (List.mem_append_right _ (List.mem_singleton_self msg))))

/-- The steps of one call are moves. -/
theorem moves_of_steps {σ : Type} {index : ActorIndex σ} {accepts : TagMessage → Prop}
    {s s' : State σ} (h : Machine.Steps Returned (step index cfg) s s') :
    ReflTransGen (Move index cfg accepts fun _ => True) s s' := by
  refine ReflTransGen.mono ?_ s s' h
  intro a b hnext
  exact .step b hnext.1 trivial hnext.2

/-- A graph in which every vertex has one edge, to the next vertex, and a limit
of five. -/
def chain : Config where
  addrLen := 2
  getOutV v _ t _ _ := [⟨v + 1, t⟩]
  stringToUnsignedInt _ := 5
  clock _ := true

/-- A message with nodes for OUT of dataflow 7. -/
def nodesFor (ns : List LightNode) : TagMessage :=
  ⟨.user, TagMessage.writeAddrs (outAddr 7 0), some ⟨.userData, ns⟩⟩

/-- The cancellation of a scope. -/
def cancellation (p : List UInt8) : TagMessage := ⟨.cancelScope, TagMessage.writeAddrs p, none⟩

theorem nodesFor_toOperator (ns : List LightNode) : (nodesFor ns).ToOperator :=
  ⟨rfl, ⟨_, rfl⟩, 7, 0, .inl (TagMessage.address_writeAddrs (by decide))⟩

/-- An actor that is created and cancelled: `accounted_of_moves` on a run in
which a terminating actor waits for its deletion. -/
theorem accounted_of_moves_cancelled :
    ∃ s, ReflTransGen (Move mapIndex chain Accepted fun _ => True)
        { actorTree := MapIndex.empty } s ∧
      s.numTerminatingChildren = 1 ∧ Accounted s := by
  have hmsgs : ∀ m ∈ [nodesFor [⟨1, 1⟩], cancellation [7, 0, 0]], Accepted m := by
    intro m hm
    rcases List.mem_pair.mp hm with rfl | rfl
    · exact .inl (nodesFor_toOperator _)
    · exact .inr rfl
  obtain ⟨s, hsteps, hs⟩ : ∃ s, Machine.Steps Returned (step mapIndex chain)
      (State.start MapIndex.empty [nodesFor [⟨1, 1⟩], cancellation [7, 0, 0]]) s ∧
      (s.numTerminatingChildren == 1 && s.pc == .mailbox) = true :=
    Machine.exists_steps_of_iterate (n := 2) (by decide +kernel)
  have hmoves := (moves_start MapIndex.empty hmsgs).trans (moves_of_steps hsteps)
  simp only [Bool.and_eq_true, beq_iff_eq] at hs
  exact ⟨s, hmoves, hs.1, (accounted_of_moves hmoves).2 fun i hi => by simp [hs.2] at hi⟩

end LightQuery
