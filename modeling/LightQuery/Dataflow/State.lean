import LightQuery.Dataflow.Operators
import LightQuery.Index.Refine
import LightQuery.Lib.Machine

/-!
# LightQuery.Dataflow.State

A dataflow and its actors, and the steps of `run_and_dispose`.

Actors are created with `new` and never move: the pointer to an actor is its
place in `actors`, and a deleted actor keeps its place, so that a use of it is
a fault and not a use of another actor.  One step is one message handled by
`process_mailbox`, one message handled by the running actor, or one of the
control steps between them.  The index of the actors is a parameter with two
instances, the radix tree and the map that it refines.

Some fields are not in the source.  `clockReads` picks the clock's next answer;
`served`, `enqueued` and the actor that stands before a line of `cout` only
record what happens.
-/

namespace LightQuery

/-! ## the actor index -/

/-- `radix_tree_index<actor_base*>` as the dataflow uses it. -/
structure ActorIndex (σ : Type) where
  lookup : σ → List UInt8 → Except Fault (Int × Option Nat)
  insert : σ → List UInt8 → Nat → Except Fault σ
  disable : σ → List UInt8 → Except Fault σ
  iterPrefixApply : σ → List UInt8 → Except Fault (List Nat)

/-- The radix tree; `mem` is read past the end of a key. -/
def radixIndex (mem : Nat → UInt8) (build : Build) : ActorIndex (ArtTree Nat) where
  lookup := RadixTreeIndex.lookup (Past.lenient mem)
  insert t addr child := RadixTreeIndex.insert (Past.lenient mem) build t addr (some child)
  disable t p := do
    let (t, _) ← RadixTreeIndex.disable (Past.lenient mem) build t p
    .ok t
  iterPrefixApply := RadixTreeIndex.iterPrefixApply (Past.lenient mem)

/-- The map with disabled prefixes. -/
def mapIndex : ActorIndex (MapIndex Nat) where
  lookup m addr := .ok (m.lookup addr)
  insert m addr child := .ok (m.insert addr child)
  disable m p := .ok (m.disable p)
  iterPrefixApply m p := .ok (m.scope p)

/-! ## state -/

/-- An actor. -/
structure Actor where
  address : List UInt8
  op : Operator
  terminating : Bool := false
  isActive : Bool := false
  executionCount : Nat := 0
  mailbox : List TagMessage := []
  deleted : Bool := false
  /-- the payloads that `do_work` was called with -/
  served : List MessagePayload := []

/-- Where `run_and_dispose` is: in `process_mailbox`, at the loop over the
tasks, in the run of an actor, or at its end. -/
inductive Pc where
  | mailbox
  | tasks
  | running (child : Nat)
  | returned
deriving DecidableEq, Repr

/-- A dataflow with its actors. -/
structure State (σ : Type) where
  actorTree : σ
  actors : List Actor := []
  taskQueue : List Nat := []
  mailbox : List TagMessage := []
  numTerminatingChildren : Int := 0
  executionCount : Nat := 0
  cout : List (Option Nat × Line) := []
  pc : Pc := .mailbox
  /-- how often the clock was read -/
  clockReads : Nat := 0
  /-- the messages that were put in the dataflow's mailbox -/
  enqueued : List TagMessage := []

/-- What a dataflow runs with. -/
structure Config where
  /-- `_addr_len` of the dataflow -/
  addrLen : Nat
  getOutV : GetOutV
  stringToUnsignedInt : String → UInt32
  /-- whether the slice has time left at the n-th read of the clock -/
  clock : Nat → Bool

variable {σ : Type}

namespace State

/-- The actor behind a pointer. -/
def deref (s : State σ) (child : Nat) : Except Fault Actor :=
  match s.actors[child]? with
  | some a => if a.deleted then .error .dangling else .ok a
  | none => .error .dangling

/-- Write an actor back. -/
def put (s : State σ) (child : Nat) (a : Actor) : State σ :=
  { s with actors := s.actors.set child a }

/-- `enque_message` of the dataflow. -/
def enqueMessage (s : State σ) (msg : TagMessage) : State σ :=
  { s with mailbox := s.mailbox ++ [msg], enqueued := s.enqueued ++ [msg] }

/-- A dataflow before its run: an empty index and the messages enqueued. -/
def start (tree : σ) (msgs : List TagMessage) : State σ :=
  msgs.foldl enqueMessage { actorTree := tree }

/-! ## actor_base, stateless_actor -/

/-- `activate`. -/
def activate (s : State σ) (child : Nat) : Except Fault (State σ) := do
  let a ← s.deref child
  if a.isActive then .ok s
  else .ok { s.put child { a with isActive := true } with taskQueue := s.taskQueue ++ [child] }

/-- `enque_message` of an actor. -/
def childEnqueMessage (s : State σ) (child : Nat) (msg : TagMessage) :
    Except Fault (State σ) := do
  let a ← s.deref child
  (s.put child { a with mailbox := a.mailbox ++ [msg] }).activate child

/-- `enque_urgent_message` of an actor. -/
def childEnqueUrgentMessage (s : State σ) (child : Nat) (msg : TagMessage) :
    Except Fault (State σ) := do
  let a ← s.deref child
  (s.put child { a with mailbox := msg :: a.mailbox }).activate child

/-- `handle_stop_from_parent` of an actor. -/
def handleStopFromParent (s : State σ) (child : Nat) : Except Fault (State σ) := do
  let a ← s.deref child
  if a.terminating then .ok s
  else
    let s := s.put child { a with terminating := true, mailbox := [] }
    if a.isActive then .ok s else s.activate child

end State

/-- `_default_execution_interval`. -/
def defaultExecutionInterval : Nat := 10

/-- `not_expired` with a count of calls and of clock reads: the answer and both
counts after it. -/
def notExpired (clock : Nat → Bool) (executionCount clockReads : Nat) : Bool × Nat × Nat :=
  if executionCount + 1 < defaultExecutionInterval then (true, executionCount + 1, clockReads)
  else (clock clockReads, 0, clockReads + 1)

/-! ## dataflow -/

section Dataflow

variable (index : ActorIndex σ) (cfg : Config)

/-- The callback of `handle_scope_cancellation`: a child is counted and
stopped. -/
def stopFunc (s : State σ) (child : Nat) : Except Fault (State σ) :=
  { s with numTerminatingChildren := s.numTerminatingChildren + 1 }.handleStopFromParent child

/-- `handle_child_termination`. -/
def handleChildTermination (s : State σ) (addr : List UInt8) :
    Except Fault (State σ) := do
  let (search, childActorAddr) ← index.lookup s.actorTree addr
  if search = -1 then .ok s
  else if search ≠ 1 then .error .assertSearch
  else
    match childActorAddr with
    | none => .error .nullChild
    | some child => do
        let tree ← index.disable s.actorTree addr
        { s with numTerminatingChildren := s.numTerminatingChildren + 1,
                 actorTree := tree }.handleStopFromParent child

/-- `handle_child_terminated`. -/
def handleChildTerminated (s : State σ) : State σ :=
  { s with numTerminatingChildren := s.numTerminatingChildren - 1 }

/-- `handle_scope_cancellation`. -/
def handleScopeCancellation (s : State σ) (p : List UInt8) :
    Except Fault (State σ) := do
  let targets ← index.iterPrefixApply s.actorTree p
  let s ← targets.foldlM stopFunc s
  let tree ← index.disable s.actorTree p
  .ok { s with actorTree := tree }

/-- The child's mailbox takes a message. -/
def deliver (s : State σ) (child : Nat) (msg : TagMessage) : Except Fault (State σ) :=
  if msg.type.toNat ≤ MessageType.flowControl.toNat then s.childEnqueMessage child msg
  else s.childEnqueUrgentMessage child msg

/-- The USER case of `process_mailbox`. -/
def handleUser (s : State σ) (msg : TagMessage) : Except Fault (State σ) := do
  let (search, childPtr) ← index.lookup s.actorTree msg.address
  if search = 1 then
    match childPtr with
    | some child => deliver s child msg
    | none => .error .nullChild
  else if search = 0 then
    match ← dummyInsertSimple.get (fun i => msg.addrs (i + 1)) 0 with
    | none => .error .nullCode
    | some code =>
        match ← newOperator cfg.stringToUnsignedInt msg.address code with
        | none => .error .nullChild
        | some op => do
            let child := s.actors.length
            let tree ← index.insert s.actorTree msg.address child
            deliver { s with actors := s.actors ++ [{ address := msg.address, op := op }],
                             actorTree := tree } child msg
  else if search = -1 then .ok s
  else .error .nullChild

/-- The loop of `process_mailbox` on the message that it takes off. -/
def handleMessage (s : State σ) (msg : TagMessage) : Except Fault (State σ) :=
  match msg.type with
  | .user => handleUser index cfg s msg
  | .cancelScope =>
      if msg.addrLen > cfg.addrLen then handleScopeCancellation index s msg.address else .ok s
  | _ => .ok { s with cout := s.cout ++ [(none, .undefinedType)] }

/-- What a run of an actor does after its loop. -/
def finishRun (s : State σ) (child : Nat) : Except Fault (State σ) := do
  let a ← s.deref child
  let s := { s with pc := .tasks }
  if a.terminating then .ok ((handleChildTerminated s).put child { a with deleted := true })
  else
    let s := s.put child { a with isActive := false }
    if a.mailbox = [] then .ok s else s.activate child

/-- The effects of a call of `do_work`. -/
def applyWork (s : State σ) (child : Nat) (a : Actor) (data : MessagePayload)
    (w : Work Operator) : State σ :=
  let s := s.put child { a with op := w.op, served := a.served ++ [data] }
  let s := { s with cout := s.cout ++ w.lines.map fun line => (some child, line) }
  w.sent.foldl State.enqueMessage s

/-- The loop of `stateless_actor::run_and_dispose` on the message that it takes
off. -/
def runMessage (s : State σ) (child : Nat) (msg : TagMessage) :
    Except Fault (State σ) := do
  let a ← s.deref child
  match msg.type with
  | .user =>
      match msg.payload with
      | none => if a.op.keepsData then .ok s else .error .nullPayload
      | some data => do
          let w ← a.op.doWork cfg.getOutV data
          let s := applyWork s child a data w
          if w.result = .cancelMe then handleChildTermination index s a.address else .ok s
  | .cancelScope => do
      let s ← handleChildTermination index s a.address
      finishRun s child
  | _ => .ok { s with cout := s.cout ++ [(some child, .undefinedSystem)] }

/-- The running actor looks at its mailbox. -/
def runChild (s : State σ) (child : Nat) : Except Fault (State σ) := do
  let a ← s.deref child
  match a.mailbox with
  | [] => finishRun s child
  | msg :: rest =>
      let (go, executionCount, clockReads) := notExpired cfg.clock a.executionCount s.clockReads
      let s := { s with clockReads := clockReads }
      if go then
        runMessage index cfg (s.put child { a with executionCount, mailbox := rest }) child msg
      else finishRun (s.put child { a with executionCount }) child

/-- The loop of `dataflow::run_and_dispose` over the tasks. -/
def nextTask (s : State σ) : Except Fault (State σ) :=
  match s.taskQueue with
  | [] => .ok { s with pc := if s.mailbox = [] then .returned else .mailbox }
  | child :: queue =>
      let (go, executionCount, clockReads) := notExpired cfg.clock s.executionCount s.clockReads
      let s := { s with executionCount, clockReads }
      if go then do
        let a ← s.deref child
        .ok { s.put child { a with executionCount := 0 } with
          taskQueue := queue, pc := .running child }
      else .ok { s with pc := .mailbox }

/-- One step of `dataflow::run_and_dispose`. -/
def step (s : State σ) : Except Fault (State σ) :=
  match s.pc with
  | .mailbox =>
      match s.mailbox with
      | [] => .ok { s with pc := .tasks }
      | msg :: rest => handleMessage index cfg { s with mailbox := rest } msg
  | .tasks => nextTask cfg s
  | .running child => runChild index cfg s child
  | .returned => .ok s

end Dataflow

/-- `run_and_dispose` has returned. -/
def Returned (s : State σ) : Prop := s.pc = .returned

instance : DecidablePred (@Returned σ) := fun s => inferInstanceAs (Decidable (s.pc = _))

/-- What happens to a dataflow: a message is put in its mailbox,
`run_and_dispose` takes a step, or it is called again after it returned. -/
inductive Move (index : ActorIndex σ) (cfg : Config) (accepts : TagMessage → Prop)
    (permits : State σ → Prop) (s : State σ) : State σ → Prop
  | enqueue (msg : TagMessage) (h : accepts msg) :
      Move index cfg accepts permits s (s.enqueMessage msg)
  | step (s' : State σ) (hs : ¬ Returned s) (hp : permits s) (h : step index cfg s = .ok s') :
      Move index cfg accepts permits s s'
  | call (hs : Returned s) : Move index cfg accepts permits s { s with pc := .mailbox }

end LightQuery
