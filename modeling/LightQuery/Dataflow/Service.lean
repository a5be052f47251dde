import LightQuery.Dataflow.Fed

/-!
# LightQuery.Dataflow.Service

What a dataflow over the radix tree guarantees to those who feed it.

Scheduling and accounting hold between any two steps, every run is bounded by
the messages that are left, every actor is given its payloads in order, and a
query gets a prefix of its result at any time and all of it at the end, whatever
else the dataflow is fed.
-/

namespace LightQuery

open State PrefixFamily

variable {cfg : Config} {build : Build} {msgs : List TagMessage} {s s' : State (ArtTree Nat)}

/-! ## scheduling and accounting -/

/-- **The scheduling invariant over the tree** between two steps of
`run_and_dispose`. -/
structure TreeAccounted (s : State (ArtTree Nat)) : Prop where
  /-- no two actors have one address, deleted ones included -/
  unique : (s.actors.map Actor.address).Nodup
  /-- an actor is queued at most once, and exactly when its flag says so -/
  queued : s.taskQueue.Nodup ∧ ∀ i, i ∈ s.taskQueue ↔ ∃ a, s.Holds i a ∧ a.isActive = true
  /-- an actor with messages is active -/
  woken : ∀ i a, s.Holds i a → a.mailbox ≠ [] → a.isActive = true
  /-- a terminating actor is active, has no messages and is disabled in the tree -/
  stopped : ∀ i a, s.Holds i a → a.terminating = true → a.isActive = true ∧ a.mailbox = [] ∧
    ∀ mem build, (radixIndex mem build).lookup s.actorTree a.address = .ok (-1, none)
  /-- the tree finds the actors that do not terminate, and nothing else -/
  found : ∀ mem build addr i, (radixIndex mem build).lookup s.actorTree addr = .ok (1, some i) ↔
    ∃ a, s.Holds i a ∧ a.terminating = false ∧ a.address = addr
  /-- the terminating actors that exist are counted -/
  count : s.numTerminatingChildren =
    (s.actors.filter fun a => a.terminating && !a.deleted).length

namespace Tracked

variable {m : State (MapIndex Nat)}

/-- An address is found exactly when an actor lives there. -/
theorem lookup_eq_one_iff (h : Tracked cfg msgs s m) {addr : List UInt8} {i : Nat} :
    m.actorTree.lookup addr = (1, some i) ↔
      ∃ a, m.Holds i a ∧ a.terminating = false ∧ a.address = addr := by
  constructor
  · intro hl
    have hlive := h.tree.functional.get_eq_some_iff.mp (MapIndex.get_of_lookup hl)
    obtain ⟨a, ha, ht, haddr⟩ := h.inv.holds_of_live hlive
    exact ⟨a, ha, ht, haddr.symm⟩
  · rintro ⟨a, ha, ht, rfl⟩
    have hlive := ((h.inv.actor i a ha.1).live a.address).mpr ⟨rfl, ht, List.not_mem_nil⟩
    rw [MapIndex.lookup, if_neg (h.inv.uncovered _ _ hlive),
      h.tree.functional.get_eq_some_iff.mpr hlive]

theorem accounted (h : Tracked cfg msgs s m) (hpc : ∀ i, s.pc ≠ .running i) :
    TreeAccounted s := by
  have hacc : Accounted m := h.inv.accounted fun i hi => hpc i (by rw [h.rest]; exact hi)
  have hactors : s.actors = m.actors := by
    rw [h.rest]
    rfl
  have hqueue : s.taskQueue = m.taskQueue := by
    rw [h.rest]
    rfl
  constructor
  · rw [hactors]
    exact h.inv.addr_nodup
  · simp only [hqueue, h.holds_iff]
    exact hacc.queued
  · simp only [h.holds_iff]
    exact hacc.woken
  · intro i a ha ht
    obtain ⟨hact, hbox, hlook⟩ := hacc.stopped i a (h.holds_iff.mp ha) ht
    exact ⟨hact, hbox, fun mem build => by rw [h.lookup_eq, hlook]⟩
  · intro mem build addr i
    rw [h.lookup_eq, Except.ok.injEq, h.lookup_eq_one_iff]
    simp only [h.holds_iff]
  · rw [hactors, ← hacc.count, h.rest]
    rfl

end Tracked

/-- A step does not fault unless a cancellation is misled. -/
theorem Fed.exists_step (h : Fed build cfg msgs s) (hs : ¬ Returned s) (hun : Unmisled cfg s)
    (mem : Nat → UInt8) : ∃ s', LightQuery.step (radixIndex mem build) cfg s = .ok s' := by
  obtain ⟨m, hm⟩ := h.tracked
  obtain ⟨s', -, hstep, -⟩ := hm.step mem build hs hun
  exact ⟨s', hstep⟩

/-- **Scheduling and accounting over the tree**: whatever messages of those that
it takes arrive at any time and however the clock cuts the runs, no step faults
whose cancellation is not misled, and between two steps outside of an actor's run
the scheduling invariant holds. -/
theorem accounted_of_fed (h : Fed build cfg msgs s) :
    (¬ Returned s → Unmisled cfg s →
      ∀ mem, ∃ s', step (radixIndex mem build) cfg s = .ok s') ∧
    ((∀ i, s.pc ≠ .running i) → TreeAccounted s) := by
  obtain ⟨m, hm⟩ := h.tracked
  exact ⟨fun hs hun mem => h.exists_step hs hun mem, hm.accounted⟩

/-- A message with a node for OUT of dataflow 8. -/
def otherFor : TagMessage :=
  ⟨.user, TagMessage.writeAddrs (outAddr 8 0), some ⟨.userData, [⟨5, 5⟩]⟩⟩

/-- A query of dataflow 7, and a node of dataflow 8 whose scope is cancelled. -/
def queryAndScope : List TagMessage :=
  [nodesFor [⟨1, 1⟩], otherFor, lastFor, cancellation [8, 0, 0]]

theorem fed_start {msgs : List TagMessage} (h : ∀ msg ∈ msgs, Takes msg) :
    Fed build cfg msgs (State.start ArtTree.init msgs) := by
  induction msgs using List.reverseRecOn with
  | nil => exact .init
  | append_singleton msgs msg ih =>
      rw [State.start, List.foldl_append]
      exact (ih fun m hm => h m (List.mem_append_left _ hm)).enqueue msg
        (h msg (List.mem_append_right _ (List.mem_singleton_self msg)))

theorem takes_queryAndScope : ∀ msg ∈ queryAndScope, Takes msg := by
  have hother : otherFor.ToOperator :=
    ⟨rfl, ⟨_, rfl⟩, 8, 0, .inl (TagMessage.address_writeAddrs (by decide))⟩
  intro msg hmsg
  simp only [queryAndScope, List.mem_cons, List.not_mem_nil, or_false] at hmsg
  rcases hmsg with rfl | rfl | rfl | rfl
  · exact ⟨.inl (nodesFor_toOperator _), by decide⟩
  · exact ⟨.inl hother, by decide⟩
  · exact ⟨.inl lastFor_toOperator, by decide⟩
  · exact ⟨.inr rfl, by decide⟩

/-- The scope of dataflow 8 has just been cancelled. -/
def scopeCancelled : State (ArtTree Nat) :=
  stepOnce chain (runFor chain 3 (State.start ArtTree.init queryAndScope))

theorem fed_scopeCancelled : Fed .sse2 chain queryAndScope scopeCancelled := by
  have h : Fed .sse2 chain queryAndScope
      (runFor chain 3 (State.start ArtTree.init queryAndScope)) :=
    (fed_start takes_queryAndScope).runFor 3
  refine h.stepOnce (by decide +kernel) (h.unmisled fun msg rest hbox _ => .inr ?_)
  -- an actor of the scope is in the tree
  have haddr : msg.address = [8, 0, 0] := by
    have hhead : (runFor chain 3 (State.start ArtTree.init queryAndScope)).mailbox.head?.map
        TagMessage.address = some [8, 0, 0] := by decide +kernel
    rw [hbox] at hhead
    exact Option.some.inj hhead
  rw [haddr]
  exact ⟨([8, 0, 0, 0, 0], some 1), by decide +kernel, .inl (by decide)⟩

/-- An actor that is cancelled: `accounted_of_fed` on a run in which it waits for
its deletion. -/
theorem accounted_of_fed_scope_cancelled :
    scopeCancelled.numTerminatingChildren = 1 ∧ TreeAccounted scopeCancelled := by
  have hpc : scopeCancelled.pc = .mailbox := by decide +kernel
  exact ⟨by decide +kernel,
    (accounted_of_fed fed_scopeCancelled).2 fun i hi => by rw [hpc] at hi; cases hi⟩

/-! ## bounded runs -/

/-- A bound on the steps that a run takes if no more messages arrive. -/
def State.budget {σ : Type} (getOutV : GetOutV) (s : State σ) : Nat :=
  6 * s.work getOutV + s.patience

theorem patience_le {σ : Type} (s : State σ) : s.patience ≤ 5 := by
  unfold State.patience
  split
  · omega
  · split
    · omega
    · split <;> omega
  · split <;> omega
  · split
    · split <;> omega
    · omega

/-- Every outcome is paid for. -/
theorem TreeCase.budget_lt {m m' : State (MapIndex Nat)} (hcase : TreeCase cfg m m')
    (h : Inv cfg.limitCnt [] m) : m'.budget cfg.getOutV < m.budget cfg.getOutV := by
  have hpatience := patience_le m'
  unfold State.budget
  rcases hcase.lt h with hwork | ⟨hwork, hlt⟩ <;> omega

theorem Mapped.budget_eq {m : State (MapIndex Nat)} (h : Mapped cfg s m) :
    s.budget cfg.getOutV = m.budget cfg.getOutV := by
  rw [h.rest]
  rfl

/-- A step of `run_and_dispose` whose cancellation is not misled. -/
def Steps (build : Build) (cfg : Config) (s s' : State (ArtTree Nat)) : Prop :=
  ¬ Returned s ∧ Unmisled cfg s ∧ ∃ mem, step (radixIndex mem build) cfg s = .ok s'

theorem Fed.next (h : Fed build cfg msgs s) (hs : Steps build cfg s s') :
    Fed build cfg msgs s' := by
  obtain ⟨hret, hun, mem, hstep⟩ := hs
  exact h.step mem hret hun hstep

/-- **Step lemma**: a step is paid for. -/
theorem Fed.budget_lt (h : Fed build cfg msgs s) (hs : Steps build cfg s s') :
    s'.budget cfg.getOutV < s.budget cfg.getOutV := by
  obtain ⟨hret, hun, mem, hstep⟩ := hs
  obtain ⟨m, hm⟩ := h.tracked
  obtain ⟨t, m', hrun, hcase, hm'⟩ := hm.step mem build hret hun
  rw [hstep] at hrun
  cases hrun
  rw [hm.budget_eq, hm'.budget_eq]
  exact hcase.budget_lt hm.inv

/-- Nothing is left to do: `run_and_dispose` has returned, and no message has
arrived since. -/
def AtRest (s : State (ArtTree Nat)) : Prop := Returned s ∧ s.mailbox = []

instance : DecidablePred AtRest := fun _ => inferInstanceAs (Decidable (_ ∧ _))

/-- What is left of a dataflow at rest. -/
structure Drained (s : State (ArtTree Nat)) : Prop where
  taskQueue : s.taskQueue = []
  /-- every actor that terminates has been deleted -/
  count : s.numTerminatingChildren = 0
  idle : ∀ i a, s.Holds i a → a.terminating = false ∧ a.isActive = false ∧ a.mailbox = []

theorem Tracked.drained {m : State (MapIndex Nat)} (h : Tracked cfg msgs s m) (hs : Returned s)
    (hempty : s.taskQueue = []) : Drained s := by
  have hpc : m.pc = .returned := h.returned_iff.mp hs
  have hqueue : m.taskQueue = [] := by
    rw [h.rest] at hempty
    exact hempty
  -- an active actor would be queued
  have hidle : ∀ i a, m.Holds i a → a.isActive = false := by
    intro i a hi
    by_contra hact
    have hmem := (h.inv.actor i a hi.1).queued.mpr ⟨by simpa using hact, hi.2, by simp [hpc]⟩
    rw [hqueue] at hmem
    cases hmem
  have hlive : ∀ i a, m.Holds i a → a.terminating = false := by
    intro i a hi
    by_contra ht
    have hact := ((h.inv.actor i a hi.1).stopped (by simpa using ht)).1
    rw [hidle i a hi] at hact
    cases hact
  refine ⟨by rw [h.rest]; exact hqueue, ?_, fun i a hi => ?_⟩
  · have hcount : m.actors.countP Actor.stopping = 0 := by
      rw [List.countP_eq_zero]
      intro a ha hstop
      obtain ⟨i, hi⟩ := List.mem_iff_getElem?.mp ha
      simp only [Actor.stopping, Bool.and_eq_true, Bool.not_eq_true'] at hstop
      rw [hlive i a ⟨hi, hstop.2⟩] at hstop
      cases hstop.1
    rw [h.rest]
    show m.numTerminatingChildren = 0
    rw [h.inv.count, hcount]
    rfl
  · have hi := h.holds_iff.mp hi
    refine ⟨hlive i a hi, hidle i a hi, ?_⟩
    by_contra hbox
    have hact := (h.inv.actor i a hi.1).woken hbox
    rw [hidle i a hi] at hact
    cases hact

theorem Fed.drained (h : Fed build cfg msgs s) (hs : Returned s) : Drained s := by
  obtain ⟨m, hm⟩ := h.tracked
  exact hm.drained hs (h.taskQueue_eq_nil hs)

/-- What a step is paid for is paid for along a run. -/
theorem Fed.run_le (h : Fed build cfg msgs s) {n : Nat} {run : Nat → State (ArtTree Nat)}
    (hstart : run 0 = s) (hrun : ∀ k < n, Steps build cfg (run k) (run (k + 1))) :
    Fed build cfg msgs (run n) ∧ (run n).budget cfg.getOutV + n ≤ s.budget cfg.getOutV := by
  induction n with
  | zero => exact ⟨hstart ▸ h, by rw [hstart]; exact le_rfl⟩
  | succ n ih =>
      obtain ⟨hfed, hbound⟩ := ih fun k hk => hrun k (by omega)
      have hstep := hrun n (by omega)
      have hlt := hfed.budget_lt hstep
      exact ⟨hfed.next hstep, by omega⟩

/-- **A run ends, and ends drained**: from any state of a dataflow that is fed,
as long as no message arrives, `run_and_dispose` takes at most `budget` steps,
whatever the clock answers.  Where it goes no further, it has returned, no task
is left, every stopped actor has been deleted, and those that remain are idle,
unless a cancellation would be misled. -/
theorem bounded_of_fed (h : Fed build cfg msgs s) (n : Nat) (run : Nat → State (ArtTree Nat))
    (hstart : run 0 = s) (hrun : ∀ k < n, Steps build cfg (run k) (run (k + 1))) :
    n ≤ s.budget cfg.getOutV ∧
      ((∀ s', ¬ Steps build cfg (run n) s') → Unmisled cfg (run n) →
        Returned (run n) ∧ Drained (run n)) := by
  obtain ⟨hfed, hbound⟩ := h.run_le hstart hrun
  refine ⟨by omega, fun hlast hun => ?_⟩
  have hret : Returned (run n) := by
    by_contra hret
    obtain ⟨s', hstep⟩ := hfed.exists_step hret hun fun _ => 0
    exact hlast s' ⟨hret, hun, _, hstep⟩
  exact ⟨hret, hfed.drained hret⟩

/-- The query is finished, and the actor of dataflow 8 is deleted. -/
def queryFinished : State (ArtTree Nat) := runFor chain 80 scopeCancelled

theorem fed_queryFinished : Fed .sse2 chain queryAndScope queryFinished :=
  fed_scopeCancelled.runFor 80

theorem steps_stepOnce (h : Fed .sse2 cfg msgs s) (hs : ¬ Stops s) :
    Steps .sse2 cfg s (stepOnce cfg s) := by
  obtain ⟨hret, hhead⟩ := not_or.mp hs
  have hun : Unmisled cfg s := by
    intro msg rest _ hbox hmsg
    rw [hbox, List.head?_cons, Option.map_some, hmsg] at hhead
    exact absurd rfl hhead
  obtain ⟨s', hstep⟩ := h.exists_step hret hun fun _ => 0
  refine ⟨hret, hun, fun _ => 0, ?_⟩
  rw [stepOnce, hstep]

/-- The last 16 steps of a query next to a cancelled scope: `bounded_of_fed` on
what they leave. -/
theorem bounded_of_fed_query_finished :
    16 ≤ scopeCancelled.budget chain.getOutV ∧ Drained ((stepOnce chain)^[16] scopeCancelled) := by
  have hgo : ∀ k < 16, ¬ Stops ((stepOnce chain)^[k] scopeCancelled) := by decide +kernel
  have hret : Returned ((stepOnce chain)^[16] scopeCancelled) := by decide +kernel
  have hfed : ∀ k ≤ 16, Fed .sse2 chain queryAndScope ((stepOnce chain)^[k] scopeCancelled) := by
    intro k
    induction k with
    | zero => exact fun _ => fed_scopeCancelled
    | succ k ih =>
        intro hk
        rw [Function.iterate_succ_apply']
        exact (ih (by omega)).next (steps_stepOnce (ih (by omega)) (hgo k (by omega)))
  obtain ⟨hle, hend⟩ := bounded_of_fed fed_scopeCancelled 16 (fun k => (stepOnce chain)^[k] scopeCancelled)
    rfl fun k hk => by
      rw [Function.iterate_succ_apply']
      exact steps_stepOnce (hfed k hk.le) (hgo k hk)
  refine ⟨hle, (hend (fun s' hs => hs.1 hret) fun msg rest hpc _ => ?_).2⟩
  rw [show ((stepOnce chain)^[16] scopeCancelled).pc = .returned from hret] at hpc
  cases hpc

/-! ## order -/

/-- Payloads on which an operator asks to be stopped at the last one at most. -/
theorem Serves.untilCancel_eq {getOutV : GetOutV} {op₀ op : Operator}
    {served : List MessagePayload} {stopped : Bool} (h : Serves getOutV op₀ served op stopped) :
    untilCancel getOutV op₀ served = served := by
  have happend := h.untilCancel_append []
  rw [List.append_nil] at happend
  rw [happend]
  cases stopped <;> simp [untilCancel]

theorem Serves.cancels_eq {getOutV : GetOutV} {op₀ op : Operator} {served : List MessagePayload}
    {stopped : Bool} (h : Serves getOutV op₀ served op stopped) :
    cancels getOutV op₀ served = stopped := by
  have happend := h.cancels_append []
  rw [List.append_nil] at happend
  rw [happend]
  simp [cancels]

/-- The payload on which an operator asks to be stopped is one that it is given. -/
theorem cancels_untilCancel {getOutV : GetOutV} {op : Operator} {datas : List MessagePayload}
    (h : cancels getOutV op datas = true) :
    cancels getOutV op (untilCancel getOutV op datas) = true := by
  induction datas generalizing op with
  | nil => cases h
  | cons data datas ih =>
      rw [cancels] at h
      rw [untilCancel]
      cases hwork : op.doWork getOutV data with
      | error e => simp [hwork] at h
      | ok w =>
          simp only [hwork] at h ⊢
          by_cases hres : w.result = .cancelMe
          · simp [hres, cancels, hwork]
          · rw [if_neg hres, cancels, hwork]
            simpa [hres] using ih (by simpa [hres] using h)

/-- The operator of an actor is the one created at its address. -/
theorem Worked.of_createdOp {cout : List (Option Nat × Line)} {i : Nat} {a : Actor}
    (h : Worked cfg cout i a) {op : Operator}
    (hop : createdOp cfg.stringToUnsignedInt a.address = .ok (some op)) :
    ∃ stopped, Serves cfg.getOutV op a.served a.op stopped ∧
      linesOf cout i = printedBy cfg.getOutV op a.served := by
  obtain ⟨op', stopped, hop', hserves, -, hlines⟩ := h.serves
  rw [hop] at hop'
  obtain rfl := Option.some.inj (Except.ok.inj hop')
  exact ⟨stopped, hserves, hlines⟩

/-- What is known at any time of the payloads for an address. -/
structure Ordered (cfg : Config) (msgs : List TagMessage) (s : State (ArtTree Nat)) : Prop where
  /-- an actor is given the payloads of its messages in order, none left out or repeated -/
  served : ∀ addr, processed s addr <+: payloadsFor addr s.enqueued
  /-- it is given none after the one on which it asked to be stopped, and has printed what a
  fresh operator prints on those that it was given -/
  worked : ∀ i a op, s.actors[i]? = some a →
    createdOp cfg.stringToUnsignedInt a.address = .ok (some op) →
    untilCancel cfg.getOutV op a.served = a.served ∧
      linesOf s.cout i = printedBy cfg.getOutV op a.served
  /-- nothing is lost of what is for an address that is not disabled -/
  kept : ∀ mem build addr, (radixIndex mem build).lookup s.actorTree addr ≠ .ok (-1, none) →
    payloadsFor addr s.enqueued =
      processed s addr ++ waitingAt s addr ++ payloadsFor addr s.mailbox
  /-- the payloads for OUT are those that came from outside -/
  outSource : ∀ x y, payloadsFor (outAddr x y) s.enqueued = payloadsFor (outAddr x y) msgs
  /-- the payloads for LIMIT are those that came from outside and those that OUT of the same
  dataflow has sent, each in their order -/
  limitSource : ∀ x y, Merge (payloadsFor (limitAddr x y) msgs)
    (payloadsFor (limitAddr x y) (sentBy cfg.getOutV (.out (outAt x y))
      (processed s (outAddr x y)))) (payloadsFor (limitAddr x y) s.enqueued)

/-- **Order under cancellation**: whatever messages of those that it takes arrive
and whatever scopes are cancelled at any time, every operator works on its
payloads in order and once, and nothing is lost but what a disabled address has
lost. -/
theorem ordered_of_fed (h : Fed build cfg msgs s) : Ordered cfg msgs s := by
  obtain ⟨m, hm⟩ := h.tracked
  have hlook := hm.lookup_eq
  have hrest := hm.rest
  generalize s.actorTree = t at hlook hrest
  subst hrest
  constructor
  · exact hm.sequenced.served
  · intro i a op hi hop
    obtain ⟨stopped, hserves, hlines⟩ := (hm.sequenced.worked i a hi).of_createdOp hop
    exact ⟨hserves.untilCancel_eq, hlines⟩
  · intro mem build addr hne
    refine hm.sequenced.flow addr fun hcov => hne ?_
    rw [withTree_actorTree, hlook, MapIndex.lookup, if_pos hcov]
  · exact hm.sequenced.outSource
  · exact hm.sequenced.limitSource

/-- A cancelled scope: `ordered_of_fed` on a state in which its actor has lost
the node that waited for it. -/
theorem ordered_of_fed_scope_cancelled :
    payloadsFor (outAddr 8 0) scopeCancelled.enqueued = [⟨.userData, [⟨5, 5⟩]⟩] ∧
      waitingAt scopeCancelled (outAddr 8 0) = [] ∧
      Ordered chain queryAndScope scopeCancelled :=
  ⟨by decide +kernel, by decide +kernel, ordered_of_fed fed_scopeCancelled⟩

/-! ## partial results -/

/-- On more payloads an operator sends more. -/
theorem prefix_sentBy (getOutV : GetOutV) {datas datas' : List MessagePayload}
    (h : datas <+: datas') (op : Operator) :
    sentBy getOutV op datas <+: sentBy getOutV op datas' := by
  induction datas generalizing op datas' with
  | nil => exact List.nil_prefix
  | cons data datas ih =>
      obtain ⟨rest, rfl⟩ := h
      rw [List.cons_append, sentBy, sentBy]
      cases op.doWork getOutV data with
      | error e => exact List.prefix_rfl
      | ok w => exact (List.prefix_append_right_inj _).mpr (ih (List.prefix_append _ _) w.op)

theorem prefix_payloadsFor {addr : List UInt8} {l l' : List TagMessage} (h : l <+: l') :
    payloadsFor addr l <+: payloadsFor addr l' := h.filterMap _

/-- What an operator has printed is a prefix of what it prints on all that it
can be given. -/
theorem Serves.prefix_printedBy {getOutV : GetOutV} {op₀ op : Operator}
    {served datas : List MessagePayload} {stopped : Bool} (h : Serves getOutV op₀ served op stopped)
    (hpre : served <+: datas) :
    printedBy getOutV op₀ served <+: printedBy getOutV op₀ (untilCancel getOutV op₀ datas) := by
  obtain ⟨rest, rfl⟩ := hpre
  rw [h.untilCancel_append, h.printedBy_append]
  exact List.prefix_append _ _

/-- The lines that the actor at an address has printed. -/
def printedAt {σ : Type} (s : State σ) (addr : List UInt8) : List Line :=
  s.cout.filterMap fun e =>
    if (e.1.bind fun i => s.actors[i]?.map Actor.address) = some addr then some e.2 else none

/-- What there is at an address does not depend on the index. -/
theorem Mapped.agrees {m : State (MapIndex Nat)} (h : Mapped cfg s m) (addr : List UInt8) :
    actorAt s addr = actorAt m addr ∧ processed s addr = processed m addr ∧
      printedAt s addr = printedAt m addr := by
  rw [h.rest]
  exact ⟨rfl, rfl, rfl⟩

namespace Sequenced

variable {m : State (MapIndex Nat)} {addr : List UInt8} {op : Operator}

/-- The actor at an address prints what a fresh operator prints on the payloads
that it was given. -/
theorem printedAt_eq (h : Sequenced cfg msgs m) (hinv : Inv cfg.limitCnt [] m)
    (hop : createdOp cfg.stringToUnsignedInt addr = .ok (some op)) :
    printedAt m addr = printedBy cfg.getOutV op (processed m addr) := by
  cases hat : actorAt m addr with
  | none =>
      have hnil : printedAt m addr = [] := by
        rw [printedAt, List.filterMap_eq_nil_iff]
        intro e _
        refine if_neg fun he => ?_
        obtain ⟨i, -, ha⟩ := Option.bind_eq_some_iff.mp he
        obtain ⟨a, hi, haddr⟩ := Option.map_eq_some_iff.mp ha
        have := List.find?_eq_none.mp hat a (List.mem_of_getElem? hi)
        simp [haddr] at this
      rw [hnil, processed_of_none hat]
      rfl
  | some a =>
      obtain ⟨haddr, i, hi⟩ := exists_of_actorAt hat
      obtain ⟨stopped, -, hlines⟩ := (h.worked i a hi).of_createdOp (haddr ▸ hop)
      rw [processed_of_actorAt hat, ← hlines]
      refine List.filterMap_congr fun e _ => ?_
      have hiff : (e.1.bind fun j => m.actors[j]?.map Actor.address) = some addr ↔ e.1 = some i := by
        rw [Option.bind_eq_some_iff]
        constructor
        · rintro ⟨j, hej, hj⟩
          obtain ⟨b, hb, hbaddr⟩ := Option.map_eq_some_iff.mp hj
          rw [hej, hinv.eq_of_address hb hi (hbaddr.trans haddr.symm)]
        · intro hei
          exact ⟨i, hei, by rw [hi, Option.map_some, haddr]⟩
      simp only [hiff]

/-- The payloads that the actor at an address was given. -/
theorem serves_processed (h : Sequenced cfg msgs m)
    (hop : createdOp cfg.stringToUnsignedInt addr = .ok (some op)) :
    ∃ op' stopped, Serves cfg.getOutV op (processed m addr) op' stopped := by
  cases hat : actorAt m addr with
  | none =>
      rw [processed_of_none hat]
      exact ⟨op, false, .nil⟩
  | some a =>
      obtain ⟨haddr, i, hi⟩ := exists_of_actorAt hat
      obtain ⟨stopped, hserves, -⟩ := (h.worked i a hi).of_createdOp (haddr ▸ hop)
      rw [processed_of_actorAt hat]
      exact ⟨a.op, stopped, hserves⟩

/-- **What is printed at any time** is a prefix of what the operator prints on
any payloads that those enqueued for it are a prefix of. -/
theorem prefix_printedAt (h : Sequenced cfg msgs m) (hinv : Inv cfg.limitCnt [] m)
    (hop : createdOp cfg.stringToUnsignedInt addr = .ok (some op)) {datas : List MessagePayload}
    (hpre : payloadsFor addr m.enqueued <+: datas) :
    printedAt m addr <+: printedBy cfg.getOutV op (untilCancel cfg.getOutV op datas) := by
  obtain ⟨op', stopped, hserves⟩ := h.serves_processed hop
  rw [h.printedAt_eq hinv hop]
  exact hserves.prefix_printedBy ((h.served addr).trans hpre)

/-- LIMIT is sent a prefix of what OUT sends on all of its payloads. -/
theorem payloadsFor_limitAddr (h : Sequenced cfg msgs m) {x y : UInt8}
    {datas : List MessagePayload} (hout : payloadsFor (outAddr x y) msgs <+: datas)
    (hlimit : payloadsFor (limitAddr x y) msgs = []) :
    payloadsFor (limitAddr x y) m.enqueued <+:
      payloadsFor (limitAddr x y) (sentBy cfg.getOutV (.out (outAt x y)) datas) := by
  have hmerge := h.limitSource x y
  rw [hlimit] at hmerge
  rw [hmerge.eq_of_nil]
  refine prefix_payloadsFor (prefix_sentBy _ ?_ _)
  exact (h.outSource x y ▸ h.served (outAddr x y)).trans hout

end Sequenced

/-- The result of a query: what its input nodes lead to, up to the limit. -/
def queryResult (cfg : Config) (nss : List (List LightNode)) : List Line :=
  ((nss.flatten.flatMap fun n =>
    cfg.getOutV n.vertex codeOut.params n.time timeWeight maxTime).take
      cfg.limitCnt.toNat).map .node

/-- **A query's output is a prefix of its result at any time**: with a limit of at
least one and no messages for LIMIT from outside, whatever else arrives, whatever
scopes are cancelled, its own among them, and wherever the run is, OUT has
printed nothing and LIMIT a prefix of the result. -/
theorem partial_of_fed (h : Fed build cfg msgs s) (hpos : 0 < cfg.limitCnt.toNat) {x y : UInt8}
    {nss : List (List LightNode)} {last : List LightNode}
    (hout : payloadsFor (outAddr x y) msgs <+: nodesThenEos nss last)
    (hlimit : payloadsFor (limitAddr x y) msgs = []) :
    printedAt s (outAddr x y) = [] ∧ printedAt s (limitAddr x y) <+: queryResult cfg nss := by
  obtain ⟨m, hm⟩ := h.tracked
  rw [(hm.agrees _).2.2, (hm.agrees _).2.2]
  constructor
  · have hpre := hm.sequenced.prefix_printedAt hm.inv (createdOp_outAddr _ x y)
      (hm.sequenced.outSource x y ▸ hout)
    rw [untilCancel_outAt, printedBy_outAt] at hpre
    exact List.prefix_nil.mp hpre
  · obtain ⟨mss, hsent, hresults⟩ := @payloadsFor_sentBy_outAt cfg.getOutV x y nss last
    have hpre := hm.sequenced.prefix_printedAt hm.inv (createdOp_limitAddr _ x y)
      (hm.sequenced.payloadsFor_limitAddr hout hlimit)
    rw [hsent] at hpre
    have hprints : printedBy cfg.getOutV (.limit (limitAt cfg.limitCnt))
        (untilCancel cfg.getOutV (.limit (limitAt cfg.limitCnt)) (nodesThenEos mss [])) =
        queryResult cfg nss := by
      rw [printedBy_limitAt hpos, hresults]
      rfl
    exact hprints ▸ hpre

/-- A hundred results for a node, of which LIMIT prints up to 120. -/
def wide : Config :=
  { chain with
    getOutV := fun v _ t _ _ => List.replicate 100 ⟨v + 1, t⟩
    stringToUnsignedInt := fun _ => 120 }

/-- The first node is worked off. -/
def hundredPrinted : State (ArtTree Nat) :=
  runFor wide 40 (State.start ArtTree.init [nodesFor [⟨1, 1⟩]])

theorem fed_hundredPrinted : Fed .sse2 wide [nodesFor [⟨1, 1⟩]] hundredPrinted := by
  have htakes : ∀ msg ∈ [nodesFor [⟨1, 1⟩]], Takes msg := fun msg hmsg =>
    List.mem_singleton.mp hmsg ▸ ⟨.inl (nodesFor_toOperator _), by decide⟩
  exact (fed_start htakes).runFor 40

/-- The scope of LIMIT has just been cancelled. -/
def limitCancelled : State (ArtTree Nat) :=
  stepOnce wide ({ hundredPrinted with pc := .mailbox }.enqueMessage (cancellation [7, 0, 1]))

theorem fed_limitCancelled :
    Fed .sse2 wide [nodesFor [⟨1, 1⟩], cancellation [7, 0, 1]] limitCancelled := by
  have h := (fed_hundredPrinted.call (by decide +kernel)).enqueue (cancellation [7, 0, 1])
    ⟨.inr rfl, by decide⟩
  refine h.stepOnce (fun hret => by cases hret) (h.unmisled fun msg rest hbox _ => .inr ?_)
  -- LIMIT is in the tree
  have haddr : msg.address = [7, 0, 1] := by
    have hhead : ({ hundredPrinted with pc := .mailbox }.enqueMessage
        (cancellation [7, 0, 1])).mailbox.head?.map TagMessage.address = some [7, 0, 1] := by
      decide +kernel
    rw [hbox] at hhead
    exact Option.some.inj hhead
  rw [haddr]
  exact ⟨([7, 0, 1, 0, 0], some 1), by decide +kernel, .inl (by decide)⟩

/-- The rest of the query has arrived since. -/
def queryCut : State (ArtTree Nat) :=
  runFor wide 80 ((limitCancelled.enqueMessage (nodesFor [⟨2, 2⟩])).enqueMessage lastFor)

theorem fed_queryCut : Fed .sse2 wide
    [nodesFor [⟨1, 1⟩], cancellation [7, 0, 1], nodesFor [⟨2, 2⟩], lastFor] queryCut :=
  ((fed_limitCancelled.enqueue _ ⟨.inl (nodesFor_toOperator _), by decide⟩).enqueue _
    ⟨.inl lastFor_toOperator, by decide⟩).runFor 80

/-- A query whose LIMIT is cancelled: `partial_of_fed` on a state in which 100 lines
of 120 have been printed. -/
theorem partial_of_fed_query_cut :
    (printedAt queryCut (limitAddr 7 0)).length = 100 ∧
      (queryResult wide [[⟨1, 1⟩], [⟨2, 2⟩]]).length = 120 ∧
      printedAt queryCut (outAddr 7 0) = [] ∧
      printedAt queryCut (limitAddr 7 0) <+: queryResult wide [[⟨1, 1⟩], [⟨2, 2⟩]] := by
  have hout : payloadsFor (outAddr 7 0)
      [nodesFor [⟨1, 1⟩], cancellation [7, 0, 1], nodesFor [⟨2, 2⟩], lastFor] <+:
        nodesThenEos [[⟨1, 1⟩], [⟨2, 2⟩]] [] := by decide
  exact ⟨by decide +kernel, by decide +kernel,
    partial_of_fed fed_queryCut (by decide) hout (by decide)⟩

/-! ## results at rest -/

namespace Tracked

variable {m : State (MapIndex Nat)} {addr : List UInt8} {op : Operator}

/-- **Isolation lemma**: at rest, an address that no cancelled scope covers was
given all of its payloads, until its operator asked to be stopped. -/
theorem processed_eq (h : Tracked cfg msgs s m) (hs : AtRest s) (hd : Drained s)
    (hlen : addr.length = 4)
    (hop : createdOp cfg.stringToUnsignedInt addr = .ok (some op))
    (hscope : ∀ p ∈ cancelled cfg msgs, ¬ p <+: addr) :
    processed m addr = untilCancel cfg.getOutV op (payloadsFor addr m.enqueued) := by
  have hbox : m.mailbox = [] := by
    have := hs.2
    rw [h.rest] at this
    exact this
  by_cases hcov : m.actorTree.Covers addr
  · -- its operator asked to be stopped
    obtain ⟨p, hp, hpre⟩ := hcov
    rcases h.sequenced.cause p hp with hp | ⟨a, ha, rfl, op', hop', hcancels⟩
    · exact absurd hpre (hscope p hp)
    · obtain ⟨i, hi⟩ := List.mem_iff_getElem?.mp ha
      have hform := length_of_form (h.sequenced.worked i a hi).form
      obtain rfl : a.address = addr := hpre.eq_of_length (hform.trans hlen.symm)
      obtain rfl : op' = op := by
        rw [hop] at hop'
        exact (Option.some.inj (Except.ok.inj hop')).symm
      obtain ⟨stopped, hserves, -⟩ := (h.sequenced.worked i a hi).of_createdOp hop
      rw [hserves.cancels_eq] at hcancels
      have hat := processed_of_actorAt (actorAt_address h.inv.addr_nodup hi)
      obtain ⟨rest, hrest⟩ := h.sequenced.served a.address
      rw [← hrest, hat, hserves.untilCancel_append, hcancels, if_pos rfl, List.append_nil]
  · -- nothing waits for it
    have hwait : waitingAt m addr = [] := by
      cases hat : actorAt m addr with
      | none => exact waitingAt_of_none hat
      | some a =>
          obtain ⟨rfl, i, hi⟩ := exists_of_actorAt hat
          have ht : a.terminating = false := by
            by_contra ht
            exact hcov ((h.inv.actor i a hi).covered (.inl (by simpa using ht)))
          have hholds : m.Holds i a := ⟨hi, (h.inv.actor i a hi).deleted_eq ht⟩
          have hidle := (hd.idle i a (h.holds_iff.mpr hholds)).2.2
          rw [waitingAt_of_actorAt hat, hidle]
          rfl
    obtain ⟨op', stopped, hserves⟩ := h.sequenced.serves_processed hop
    rw [h.sequenced.flow addr hcov, hwait, hbox, payloadsFor_nil, List.append_nil, List.append_nil,
      hserves.untilCancel_eq]

/-- At rest, what the two operators of a dataflow were given follows from the
messages for its OUT. -/
theorem processed_pair (h : Tracked cfg msgs s m) (hs : AtRest s) (hd : Drained s) {x y : UInt8}
    (hlimit : payloadsFor (limitAddr x y) msgs = [])
    (hscope : ∀ p ∈ cancelled cfg msgs, ¬ p <+: outAddr x y ∧ ¬ p <+: limitAddr x y) :
    processed m (outAddr x y) =
        untilCancel cfg.getOutV (.out (outAt x y)) (payloadsFor (outAddr x y) msgs) ∧
      processed m (limitAddr x y) = untilCancel cfg.getOutV (.limit (limitAt cfg.limitCnt))
        (payloadsFor (limitAddr x y) (sentBy cfg.getOutV (.out (outAt x y))
          (untilCancel cfg.getOutV (.out (outAt x y)) (payloadsFor (outAddr x y) msgs)))) := by
  have hout := h.processed_eq hs hd rfl (createdOp_outAddr _ x y) fun p hp => (hscope p hp).1
  rw [h.sequenced.outSource] at hout
  have hmerge := h.sequenced.limitSource x y
  rw [hlimit] at hmerge
  refine ⟨hout, ?_⟩
  rw [h.processed_eq hs hd rfl (createdOp_limitAddr _ x y) fun p hp => (hscope p hp).2,
    hmerge.eq_of_nil, hout]
  rfl

end Tracked

/-- No cancelled scope is above an operator of the dataflow, and LIMIT gets no
messages from outside. -/
structure Undisturbed (cfg : Config) (msgs : List TagMessage) (x y : UInt8) : Prop where
  limit : payloadsFor (limitAddr x y) msgs = []
  scope : ∀ p ∈ cancelled cfg msgs, ¬ p <+: outAddr x y ∧ ¬ p <+: limitAddr x y

/-- **Isolation of queries**: two dataflows, in whatever builds and with whatever
clocks, that get the same payloads for OUT of one query print the same for it in
the end, whatever else either of them was fed and whatever other scopes were
cancelled. -/
theorem isolated_of_fed {build' : Build} {clock : Nat → Bool} {addrLen : Nat}
    {msgs' : List TagMessage} {x y : UInt8} (h : Fed build cfg msgs s)
    (h' : Fed build' { cfg with clock := clock, addrLen := addrLen } msgs' s')
    (hs : AtRest s) (hs' : AtRest s') (hu : Undisturbed cfg msgs x y)
    (hu' : Undisturbed { cfg with clock := clock, addrLen := addrLen } msgs' x y)
    (hsame : payloadsFor (outAddr x y) msgs' = payloadsFor (outAddr x y) msgs) :
    ∀ addr, addr = outAddr x y ∨ addr = limitAddr x y →
      processed s' addr = processed s addr ∧ printedAt s' addr = printedAt s addr := by
  obtain ⟨m, hm⟩ := h.tracked
  obtain ⟨m', hm'⟩ := h'.tracked
  obtain ⟨hout, hlim⟩ := hm.processed_pair hs (h.drained hs.1) hu.limit hu.scope
  obtain ⟨hout', hlim'⟩ := hm'.processed_pair hs' (h'.drained hs'.1) hu'.limit hu'.scope
  rw [hsame] at hout' hlim'
  -- equal payloads are printed equally
  have hkey : ∀ addr op, createdOp cfg.stringToUnsignedInt addr = .ok (some op) →
      processed m' addr = processed m addr →
      processed s' addr = processed s addr ∧ printedAt s' addr = printedAt s addr := by
    intro addr op hop heq
    obtain ⟨-, hgiven, hprinted⟩ := hm.agrees addr
    obtain ⟨-, hgiven', hprinted'⟩ := hm'.agrees addr
    refine ⟨by rw [hgiven, hgiven', heq], ?_⟩
    rw [hprinted, hprinted', hm.sequenced.printedAt_eq hm.inv hop,
      hm'.sequenced.printedAt_eq hm'.inv hop, heq]
  rintro addr (rfl | rfl)
  · exact hkey _ _ (createdOp_outAddr _ x y) (hout'.trans hout.symm)
  · exact hkey _ _ (createdOp_limitAddr _ x y) (hlim'.trans hlim.symm)

/-- The query of dataflow 7 alone. -/
def queryAlone : State (ArtTree Nat) :=
  runFor chain 80 (State.start ArtTree.init [nodesFor [⟨1, 1⟩], lastFor])

theorem takes_query : ∀ msg ∈ [nodesFor [⟨1, 1⟩], lastFor], Takes msg := by
  intro msg hmsg
  rcases List.mem_pair.mp hmsg with rfl | rfl
  · exact ⟨.inl (nodesFor_toOperator _), by decide⟩
  · exact ⟨.inl lastFor_toOperator, by decide⟩

theorem fed_queryAlone : Fed .sse2 chain [nodesFor [⟨1, 1⟩], lastFor] queryAlone :=
  (fed_start takes_query).runFor 80

theorem undisturbed_queryAndScope : Undisturbed chain queryAndScope 7 0 :=
  ⟨by decide, by decide⟩

/-- A query alone and with another dataflow: `isolated_of_fed` on what LIMIT
prints. -/
theorem isolated_of_fed_query_alone :
    printedAt queryFinished (limitAddr 7 0) = printedAt queryAlone (limitAddr 7 0) :=
  (@isolated_of_fed chain _ _ _ _ _ chain.clock chain.addrLen _ 7 0 fed_queryAlone
    fed_queryFinished (by decide +kernel) (by decide +kernel) ⟨by decide, by decide⟩
    undisturbed_queryAndScope (by decide) _ (.inr rfl)).2

/-- At rest, an operator that asked to be stopped is deleted, and its address
disabled. -/
theorem Tracked.deleted_of_cancels {m : State (MapIndex Nat)} (h : Tracked cfg msgs s m)
    (hd : Drained s) {addr : List UInt8} {op : Operator}
    (hop : createdOp cfg.stringToUnsignedInt addr = .ok (some op))
    (hcancels : cancels cfg.getOutV op (processed m addr) = true) :
    (∃ a, actorAt s addr = some a ∧ a.deleted = true) ∧
      ∀ mem build, (radixIndex mem build).lookup s.actorTree addr = .ok (-1, none) := by
  obtain ⟨hactor, -⟩ := h.agrees addr
  cases hat : actorAt m addr with
  | none =>
      rw [processed_of_none hat] at hcancels
      cases hcancels
  | some a =>
      obtain ⟨rfl, i, hi⟩ := exists_of_actorAt hat
      obtain ⟨-, op', stopped, hop', hserves, hstop, -⟩ := h.sequenced.worked i a hi
      rw [hop] at hop'
      obtain rfl := Option.some.inj (Except.ok.inj hop')
      rw [processed_of_actorAt hat, hserves.cancels_eq] at hcancels
      have ht := hstop hcancels
      refine ⟨⟨a, hactor.trans hat, ?_⟩, fun mem build => ?_⟩
      · by_contra hdel
        have hholds : m.Holds i a := ⟨hi, by simpa using hdel⟩
        have hlive := (hd.idle i a (h.holds_iff.mpr hholds)).1
        rw [ht] at hlive
        cases hlive
      · rw [h.lookup_eq, MapIndex.lookup, if_pos ((h.inv.actor i a hi).covered (.inl ht))]

/-- **Concurrent queries**: at rest, an undisturbed query with a limit of at least
one whose payloads have all arrived has printed its whole result, both of its
operators have been deleted and their addresses disabled, whatever other queries
ran in the same dataflow. -/
theorem query_of_fed (h : Fed build cfg msgs s) (hs : AtRest s) (hpos : 0 < cfg.limitCnt.toNat)
    {x y : UInt8} {nss : List (List LightNode)} {last : List LightNode}
    (hu : Undisturbed cfg msgs x y)
    (hout : payloadsFor (outAddr x y) msgs = nodesThenEos nss last) :
    printedAt s (limitAddr x y) = queryResult cfg nss ∧
      ∀ addr, addr = outAddr x y ∨ addr = limitAddr x y →
        (∃ a, actorAt s addr = some a ∧ a.deleted = true) ∧
        ∀ mem build, (radixIndex mem build).lookup s.actorTree addr = .ok (-1, none) := by
  obtain ⟨m, hm⟩ := h.tracked
  obtain ⟨mss, hsent, hresults⟩ := @payloadsFor_sentBy_outAt cfg.getOutV x y nss last
  obtain ⟨hgiven, hlim⟩ := hm.processed_pair hs (h.drained hs.1) hu.limit hu.scope
  rw [hout, untilCancel_outAt] at hgiven hlim
  rw [hsent] at hlim
  obtain ⟨-, -, hprinted⟩ := hm.agrees (limitAddr x y)
  refine ⟨?_, ?_⟩
  · rw [hprinted, hm.sequenced.printedAt_eq hm.inv (createdOp_limitAddr _ x y), hlim]
    show printedBy cfg.getOutV (.limit (limitAt cfg.limitCnt)) _ = _
    rw [printedBy_limitAt hpos, hresults]
    rfl
  · rintro addr (rfl | rfl)
    · refine hm.deleted_of_cancels (h.drained hs.1) (createdOp_outAddr _ x y) ?_
      rw [hgiven]
      exact cancels_outAt x y nss last
    · refine hm.deleted_of_cancels (h.drained hs.1) (createdOp_limitAddr _ x y) ?_
      rw [hlim]
      exact cancels_untilCancel (cancels_limitAt hpos mss [])

/-- A query with a limit of five on one node: `query_of_fed` on what it prints. -/
theorem query_of_fed_query_finished :
    printedAt queryFinished (limitAddr 7 0) = [.node ⟨2, 1⟩] :=
  (query_of_fed fed_queryFinished (by decide +kernel) (by decide) undisturbed_queryAndScope
    (show payloadsFor (outAddr 7 0) queryAndScope = nodesThenEos [[⟨1, 1⟩]] [] by decide)).1

end LightQuery
