import LightQuery.Dataflow.Effects

/-!
# LightQuery.Dataflow.Frame

Operations that leave the actor index alone.

`withTree` exchanges the index of a dataflow.  An operation that commutes with
it does not read the index and does not change it; everything but the calls on
the index itself is such an operation.
-/

namespace LightQuery

variable {σ τ : Type}

/-- The same dataflow with another index. -/
def State.withTree (s : State σ) (tree : τ) : State τ := { s with actorTree := tree }

@[simp] theorem State.withTree_actorTree (s : State σ) (tree : τ) :
    (s.withTree tree).actorTree = tree := rfl

@[simp] theorem State.withTree_self (s : State σ) : s.withTree s.actorTree = s := rfl

/-- The operation does the same whatever the index is. -/
def TreeFree (f : ∀ σ : Type, State σ → Except Fault (State σ)) : Prop :=
  ∀ (σ τ : Type) (s : State σ) (tree : τ), f τ (s.withTree tree) = (f σ s).map (·.withTree tree)

namespace TreeFree

variable {f g : ∀ σ : Type, State σ → Except Fault (State σ)}

/-- The index stays as it is. -/
theorem actorTree_eq (hf : TreeFree f) {s s' : State σ} (h : f σ s = .ok s') :
    s'.actorTree = s.actorTree := by
  have hself : f σ s = (f σ s).map (·.withTree s.actorTree) := hf σ σ s s.actorTree
  rw [h] at hself
  have hs' : s' = s'.withTree s.actorTree := Except.ok.inj hself
  rw [hs', State.withTree_actorTree]

/-- One operation after the other. -/
theorem bind (hf : TreeFree f) (hg : TreeFree g) : TreeFree fun σ s => f σ s >>= g σ := by
  intro σ τ s tree
  show (f τ (s.withTree tree)).bind (g τ) = ((f σ s).bind (g σ)).map _
  rw [hf σ τ s tree]
  cases f σ s with
  | error e => rfl
  | ok s' => exact hg σ τ s' tree

/-- An operation on what a pointer points to. -/
theorem deref {f : Actor → ∀ σ : Type, State σ → Except Fault (State σ)} (child : Nat)
    (hf : ∀ a, TreeFree (f a)) : TreeFree fun σ s => s.deref child >>= fun a => f a σ s := by
  intro σ τ s tree
  show (s.deref child).bind (fun a => f a τ (s.withTree tree)) =
    ((s.deref child).bind fun a => f a σ s).map _
  cases s.deref child with
  | error e => rfl
  | ok a => exact hf a σ τ s tree

theorem ite (p : Prop) [Decidable p] (hf : TreeFree f) (hg : TreeFree g) :
    TreeFree fun σ s => if p then f σ s else g σ s := by
  intro σ τ s tree
  show (if p then f τ _ else g τ _) = (if p then f σ s else g σ s).map _
  split
  · exact hf σ τ s tree
  · exact hg σ τ s tree

/-- A change of the other fields, and an operation after it. -/
theorem after {g : ∀ σ : Type, State σ → State σ} (hf : TreeFree f)
    (hg : ∀ (σ τ : Type) (s : State σ) (tree : τ), g τ (s.withTree tree) = (g σ s).withTree tree) :
    TreeFree fun σ s => f σ (g σ s) := by
  intro σ τ s tree
  show f τ (g τ _) = _
  rw [hg]
  exact hf σ τ (g σ s) tree

theorem ok : TreeFree fun _ s => .ok s := fun _ _ _ _ => rfl

end TreeFree

/-! ## the operations -/

open TreeFree

theorem treeFree_activate (child : Nat) : TreeFree fun _ s => s.activate child :=
  deref child fun a => ite _ ok (ok.after (g := fun _ s =>
    { s.put child { a with isActive := true } with taskQueue := s.taskQueue ++ [child] })
    fun _ _ _ _ => rfl)

theorem treeFree_childEnqueMessage (child : Nat) (msg : TagMessage) :
    TreeFree fun _ s => s.childEnqueMessage child msg :=
  deref child fun a => (treeFree_activate child).after
    (g := fun _ s => s.put child { a with mailbox := a.mailbox ++ [msg] }) fun _ _ _ _ => rfl

theorem treeFree_childEnqueUrgentMessage (child : Nat) (msg : TagMessage) :
    TreeFree fun _ s => s.childEnqueUrgentMessage child msg :=
  deref child fun a => (treeFree_activate child).after
    (g := fun _ s => s.put child { a with mailbox := msg :: a.mailbox }) fun _ _ _ _ => rfl

theorem treeFree_handleStopFromParent (child : Nat) :
    TreeFree fun _ s => s.handleStopFromParent child :=
  deref child fun a => ite _ ok ((ite (a.isActive = true) ok (treeFree_activate child)).after
    (g := fun _ s => s.put child { a with terminating := true, mailbox := [] }) fun _ _ _ _ => rfl)

theorem treeFree_stopFunc (child : Nat) : TreeFree fun _ s => stopFunc s child :=
  (treeFree_handleStopFromParent child).after
    (g := fun _ s => { s with numTerminatingChildren := s.numTerminatingChildren + 1 })
    fun _ _ _ _ => rfl

theorem treeFree_deliver (child : Nat) (msg : TagMessage) :
    TreeFree fun _ s => deliver s child msg :=
  ite _ (treeFree_childEnqueMessage child msg) (treeFree_childEnqueUrgentMessage child msg)

theorem treeFree_foldlM_stopFunc (targets : List Nat) :
    TreeFree fun _ s => targets.foldlM stopFunc s := by
  induction targets with
  | nil => exact ok
  | cons child targets ih => exact (treeFree_stopFunc child).bind ih

theorem treeFree_finishRun (child : Nat) : TreeFree fun _ s => finishRun s child :=
  deref child fun a => (ite (a.terminating = true)
    (ok.after (g := fun _ s => (handleChildTerminated s).put child { a with deleted := true })
      fun _ _ _ _ => rfl)
    ((ite (a.mailbox = []) ok (treeFree_activate child)).after
      (g := fun _ s => s.put child { a with isActive := false }) fun _ _ _ _ => rfl)).after
    (g := fun _ s => { s with pc := .tasks }) fun _ _ _ _ => rfl

theorem treeFree_nextTask (cfg : Config) : TreeFree fun _ s => nextTask cfg s := by
  intro σ τ s tree
  obtain ⟨_, actors, taskQueue, mailbox, n, executionCount, cout, pc, clockReads, enqueued⟩ := s
  cases taskQueue with
  | nil => rfl
  | cons child queue =>
      -- the clock's answer is the same for both
      let r := notExpired cfg.clock executionCount clockReads
      exact ((ite (r.1 = true)
        (deref child fun a => ok.after (g := fun _ s =>
          { s.put child { a with executionCount := 0 } with
            taskQueue := queue, pc := .running child }) fun _ _ _ _ => rfl)
        (ok.after (g := fun _ s => { s with pc := .mailbox }) fun _ _ _ _ => rfl)).after
        (g := fun _ s => { s with executionCount := r.2.1, clockReads := r.2.2 })
        fun _ _ _ _ => rfl) σ τ ⟨_, actors, child :: queue, mailbox, n, executionCount, cout, pc,
          clockReads, enqueued⟩ tree

theorem applyWork_withTree (s : State σ) (tree : τ) (child : Nat) (a : Actor)
    (data : MessagePayload) (w : Work Operator) :
    applyWork (s.withTree tree) child a data w = (applyWork s child a data w).withTree tree := by
  rw [applyWork_eq, applyWork_eq]
  rfl

@[simp] theorem applyWork_actorTree (s : State σ) (child : Nat) (a : Actor)
    (data : MessagePayload) (w : Work Operator) :
    (applyWork s child a data w).actorTree = s.actorTree := by
  rw [applyWork_eq]

end LightQuery
