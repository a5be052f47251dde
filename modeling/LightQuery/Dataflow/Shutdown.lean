import LightQuery.Dataflow.Service

/-!
# LightQuery.Dataflow.Shutdown

`dataflow::handle_stop_from_parent`.

A dataflow is itself an actor: it has an address and the flags of `actor_base`,
and its parent may stop it between any two steps.  Stopping it cancels the scope
of its own address and drops the messages that it has not looked at.  From then
on it prints nothing and creates no actor, whatever it is still sent, and its
next run deletes all of its actors (`shutdown_of_fed`) — unless its index was
empty, in which case nothing is disabled.
-/

namespace LightQuery

open State PrefixFamily

/-! ## a dataflow as an actor -/

/-- A dataflow with what it has as an actor of its parent. -/
structure ActorGroup (σ : Type) where
  state : State σ
  terminating : Bool := false
  isActive : Bool := false
  /-- how often the parent was given the dataflow as a task -/
  added : Nat := 0

namespace ActorGroup

variable {σ : Type}

/-- `activate` of a dataflow. -/
def activate (g : ActorGroup σ) : ActorGroup σ :=
  if g.isActive then g else { g with isActive := true, added := g.added + 1 }

/-- `handle_stop_from_parent` of a dataflow. -/
def handleStopFromParent (index : ActorIndex σ) (address : List UInt8) (g : ActorGroup σ) :
    Except Fault (ActorGroup σ) :=
  if g.terminating then .ok g
  else do
    let s ← handleScopeCancellation index g.state address
    let g := { g with terminating := true, state := { s with mailbox := [] } }
    .ok (if g.state.numTerminatingChildren = 0 ∧ g.isActive = false then g.activate else g)

end ActorGroup

/-- What happens to a dataflow at `address`: a message for it arrives,
`run_and_dispose` takes a step or is called, or its parent stops it. -/
inductive GroupMove (build : Build) (cfg : Config) (address : List UInt8)
    (g : ActorGroup (ArtTree Nat)) : ActorGroup (ArtTree Nat) → Prop
  | enqueue (msg : TagMessage) (hmsg : Takes msg) (hown : address <+: msg.address) :
      GroupMove build cfg address g { g with state := g.state.enqueMessage msg }
  | step (s' : State (ArtTree Nat)) (hs : Steps build cfg g.state s') :
      GroupMove build cfg address g { g with state := s' }
  | call (hs : Returned g.state) :
      GroupMove build cfg address g { g with state := { g.state with pc := .mailbox } }
  | stop (mem : Nat → UInt8) (g' : ActorGroup (ArtTree Nat))
      (h : g.handleStopFromParent (radixIndex mem build) address = .ok g') :
      GroupMove build cfg address g g'

/-! ## everything is below the address -/

/-- The actors, the messages and the disabled addresses are below `p`. -/
structure Inside (p : List UInt8) (m : State (MapIndex Nat)) : Prop where
  actors : ∀ a ∈ m.actors, p <+: a.address
  mailbox : ∀ msg ∈ m.mailbox, p <+: msg.address
  marks : ∀ q ∈ m.actorTree.disabled, p <+: q

section Inside

variable {cfg : Config} {build : Build} {p : List UInt8} {m m' : State (MapIndex Nat)} {i : Nat}
  {a b : Actor}

/-- The two operators of a query share the address of their dataflow. -/
theorem prefix_limitAddr {x y : UInt8} (hle : p.length ≤ 2) (h : p <+: outAddr x y) :
    p <+: limitAddr x y := by
  have hshort : p <+: [x, y] :=
    List.prefix_of_prefix_length_le h (List.prefix_append [x, y] [0, 0]) hle
  exact hshort.trans (List.prefix_append [x, y] [1, 0])

/-- An actor is replaced at its address. -/
theorem Inside.set (h : Inside p m) (hi : m.actors[i]? = some a)
    (hactors : m'.actors = m.actors.set i b) (hab : b.address = a.address) :
    ∀ c ∈ m'.actors, p <+: c.address := by
  intro c hc
  rw [hactors] at hc
  rcases List.mem_or_eq_of_mem_set hc with hc | rfl
  · exact h.actors c hc
  · rw [hab]
    exact h.actors a (List.mem_of_getElem? hi)

/-- What an operator sends is below the address that it is itself below. -/
theorem Inside.sent {limitCnt : UInt32} {getOutV : GetOutV} {data : MessagePayload}
    {w : Work Operator} (hat : OperatorAt limitCnt a.address a.op)
    (hwork : a.op.doWork getOutV data = .ok w) (hle : p.length ≤ 2) (ha : p <+: a.address) :
    ∀ msg ∈ w.sent, p <+: msg.address := by
  obtain ⟨w', hwork', -, hsent⟩ := hat.doWork getOutV data
  rw [hwork] at hwork'
  cases hwork'
  intro msg hmsg
  obtain ⟨x, y, haddr, hto, -⟩ := hsent msg hmsg
  rw [haddr] at ha
  rw [hto]
  exact prefix_limitAddr hle ha

/-- **Every outcome stays below the address.** -/
theorem TreeCase.inside (hcase : TreeCase cfg m m') (hinv : Inv cfg.limitCnt [] m)
    (hle : p.length ≤ 2) (h : Inside p m) : Inside p m' := by
  have hpop : ∀ {msg rest}, m.mailbox = msg :: rest → ∀ msg' ∈ rest, p <+: msg'.address :=
    fun hbox msg' hmsg' => h.mailbox msg' (hbox ▸ List.mem_cons_of_mem _ hmsg')
  -- a cancelled scope
  have hcancel : ∀ {msg rest targets}, m.mailbox = msg :: rest →
      Inside p (State.cancelIn { m with mailbox := rest } msg.address targets) := by
    intro msg rest targets hbox
    obtain ⟨htree, hmbox, -⟩ := cancelIn_frame { m with mailbox := rest } msg.address targets
    have haligned := aligned_cancelIn (R := fun a b => b.address = a.address)
      { m with mailbox := rest } msg.address targets (fun _ => rfl) fun _ _ _ _ => rfl
    constructor
    · intro c hc
      obtain ⟨j, hj⟩ := List.mem_iff_getElem?.mp hc
      obtain ⟨d, hd, hdc⟩ := haligned.exists_left hj
      rw [hdc]
      exact h.actors d (List.mem_of_getElem? hd)
    · intro msg' hmsg'
      rw [hmbox] at hmsg'
      exact hpop hbox msg' hmsg'
    · intro q hq
      rw [htree] at hq
      rcases List.mem_cons.mp hq with rfl | hq
      · exact h.mailbox msg (hbox ▸ List.mem_cons_self)
      · exact h.marks q hq
  -- what a call of do_work leaves
  have hworked : ∀ {i a msg rest data w}, m.Holds i a → a.terminating = false →
      a.mailbox = msg :: rest → a.op.doWork cfg.getOutV data = .ok w →
      ∀ msg' ∈ m.mailbox ++ w.sent, p <+: msg'.address := by
    intro i a msg rest data w hi ht _ hwork msg' hmsg'
    rcases List.mem_append.mp hmsg' with hmsg' | hmsg'
    · exact h.mailbox msg' hmsg'
    · exact Inside.sent ((hinv.actor i a hi.1).op ht List.not_mem_nil) hwork hle
        (h.actors a (List.mem_of_getElem? hi.1)) msg' hmsg'
  cases hcase with
  | cancel msg rest targets hpc hbox hmsg hlen hperm => exact hcancel hbox
  | same m' hcase =>
      cases hcase with
      | discard msg rest _ hbox hcov => exact ⟨h.actors, hpop hbox, h.marks⟩
      | deliver msg rest i a _ hbox hmsg hi ht haddr =>
          exact ⟨h.set hi.1 rfl rfl, hpop hbox, h.marks⟩
      | create msg rest op _ hbox hmsg hcov hget hop hat =>
          refine ⟨fun c hc => ?_, hpop hbox, h.marks⟩
          have hown := h.mailbox msg (hbox ▸ List.mem_cons_self)
          rcases List.mem_or_eq_of_mem_set hc with hc | rfl
          · rcases List.mem_append.mp hc with hc | hc
            · exact h.actors c hc
            · rw [List.mem_singleton.mp hc]
              exact hown
          · exact hown
      | cancel msg rest hpc hbox hmsg hlen => exact hcancel hbox
      | schedule => exact ⟨h.actors, h.mailbox, h.marks⟩
      | finish => exact ⟨h.actors, h.mailbox, h.marks⟩
      | poll => exact ⟨h.actors, h.mailbox, h.marks⟩
      | expire => exact ⟨h.actors, h.mailbox, h.marks⟩
      | begin i a queue count reads _ _ hi =>
          exact ⟨h.set (b := { a with executionCount := 0 }) hi.1 rfl rfl, h.mailbox, h.marks⟩
      | work i a msg rest data w count reads _ hi ht hbox hdata hwork hres =>
          exact ⟨h.set (b := worker a rest data w count) hi.1 rfl rfl, hworked hi ht hbox hwork,
            h.marks⟩
      | lastWork i a msg rest data w count reads _ hi ht hbox hdata hwork hres =>
          refine ⟨h.set (b := { worker a rest data w count with
            terminating := true, mailbox := [], isActive := true }) hi.1 ?_ rfl,
            hworked hi ht hbox hwork, fun q hq => ?_⟩
          · simp [State.stop, State.worked, List.set_set]
          · rcases List.mem_cons.mp hq with rfl | hq
            · exact h.actors a (List.mem_of_getElem? hi.1)
            · exact h.marks q hq
      | delete i a _ hi =>
          exact ⟨h.set (b := { a with deleted := true }) hi.1 rfl rfl, h.mailbox, h.marks⟩
      | idle i a _ hi =>
          exact ⟨h.set (b := { a with isActive := false }) hi.1 rfl rfl, h.mailbox, h.marks⟩
      | requeue i a _ hi =>
          exact ⟨h.set (b := { a with executionCount := 0, isActive := true }) hi.1 rfl rfl,
            h.mailbox, h.marks⟩

/-- A dataflow that is sent messages below `p` only. -/
theorem Fed.inside {msgs : List TagMessage} {s : State (ArtTree Nat)} (h : Fed build cfg msgs s)
    (hle : p.length ≤ 2) (hown : ∀ msg ∈ msgs, p <+: msg.address) :
    ∃ m, Tracked cfg msgs s m ∧ Inside p m := by
  induction h with
  | init => exact ⟨_, .init, fun _ ha => absurd ha List.not_mem_nil,
      fun _ hm => absurd hm List.not_mem_nil, fun _ hq => absurd hq List.not_mem_nil⟩
  | enqueue h msg hmsg ih =>
      obtain ⟨m, hm, hin⟩ := ih fun msg' hmsg' => hown msg' (List.mem_append_left _ hmsg')
      refine ⟨_, hm.enqueue hmsg, hin.actors, fun msg' hmsg' => ?_, hin.marks⟩
      rcases List.mem_append.mp hmsg' with hmsg' | hmsg'
      · exact hin.mailbox msg' hmsg'
      · rw [List.mem_singleton.mp hmsg']
        exact hown msg (List.mem_append_right _ (List.mem_singleton_self msg))
  | step h mem hs hun hstep ih =>
      obtain ⟨m, hm, hin⟩ := ih hown
      obtain ⟨s', m', hrun, hcase, hm'⟩ := hm.step mem build hs hun
      rw [hstep] at hrun
      cases hrun
      exact ⟨m', hm', hcase.inside hm.inv hle hin⟩
  | call h hs ih =>
      obtain ⟨m, hm, hin⟩ := ih hown
      exact ⟨_, hm.call hs, hin.actors, hin.mailbox, hin.marks⟩

end Inside

/-! ## a stopped dataflow -/

/-- What an actor has done. -/
def Actor.record (a : Actor) : List UInt8 × Operator × List MessagePayload :=
  (a.address, a.op, a.served)

/-- An actor that does no more. -/
structure Still (a b : Actor) : Prop where
  record : b.record = a.record
  terminating : b.terminating = a.terminating
  deleted : a.deleted = true → b.deleted = true

theorem Still.refl (a : Actor) : Still a a := ⟨rfl, rfl, id⟩

theorem Still.address {a b : Actor} (h : Still a b) : b.address = a.address :=
  congrArg Prod.fst h.record

/-- A dataflow that does no more than delete its actors. -/
structure Settles (m m' : State (MapIndex Nat)) : Prop where
  actors : Aligned Still m m'
  mailbox : ∀ msg ∈ m'.mailbox, msg ∈ m.mailbox
  kept : ∀ q ∈ m.actorTree.disabled, q ∈ m'.actorTree.disabled
  marks : ∀ q ∈ m'.actorTree.disabled,
    q ∈ m.actorTree.disabled ∨ ∃ msg ∈ m.mailbox, q = msg.address
  cout : m'.cout = m.cout

section Closed

variable {cfg : Config} {build : Build} {p : List UInt8} {m m' : State (MapIndex Nat)}
  {s s' : State (ArtTree Nat)}

/-- **Step lemma**: where all actors terminate and all messages are for disabled
addresses, a step settles. -/
theorem TreeCase.settles (hcase : TreeCase cfg m m') (hinv : Inv cfg.limitCnt [] m)
    (hstop : ∀ i a, m.Holds i a → a.terminating = true)
    (hcov : ∀ msg ∈ m.mailbox, m.actorTree.Covers msg.address) : Settles m m' := by
  have hself : Aligned Still m m := fun j => by
    cases m.actors[j]? with
    | none => exact .none
    | some a => exact .some (.refl a)
  have hpop : ∀ {msg rest}, m.mailbox = msg :: rest → ∀ msg' ∈ rest, msg' ∈ m.mailbox :=
    fun hbox msg' hmsg' => hbox ▸ List.mem_cons_of_mem _ hmsg'
  have hcontrol : ∀ {t : State (MapIndex Nat)}, Aligned Still m t → t.mailbox = m.mailbox →
      t.actorTree = m.actorTree → t.cout = m.cout → Settles m t := by
    intro t hactors hbox htree hcout
    exact ⟨hactors, fun msg hmsg => hbox ▸ hmsg, fun q hq => htree ▸ hq,
      fun q hq => .inl (htree ▸ hq), hcout⟩
  have hlive : ∀ {i a}, m.Holds i a → a.terminating ≠ false := fun hi ht => by
    rw [hstop _ _ hi] at ht
    cases ht
  -- no actor is left to be stopped
  have hscope : ∀ q, m.actorTree.scope q = [] := by
    intro q
    refine List.eq_nil_iff_forall_not_mem.mpr fun i hi => ?_
    obtain ⟨addr, -, hlook⟩ := MapIndex.mem_scope.mp hi
    obtain ⟨a, ha, ht, -⟩ := hinv.holds_of_live hlook
    exact hlive ha ht
  have hcancel : ∀ {msg rest targets}, m.mailbox = msg :: rest →
      targets.Perm (m.actorTree.scope msg.address) →
      Settles m (State.cancelIn { m with mailbox := rest } msg.address targets) := by
    intro msg rest targets hbox hperm
    rw [hscope, List.perm_nil] at hperm
    subst hperm
    refine ⟨hself, hpop hbox, fun q hq => List.mem_cons_of_mem _ hq, fun q hq => ?_, rfl⟩
    rcases List.mem_cons.mp hq with rfl | hq
    · exact .inr ⟨msg, hbox ▸ List.mem_cons_self, rfl⟩
    · exact .inl hq
  cases hcase with
  | cancel msg rest targets hpc hbox hmsg hlen hperm => exact hcancel hbox hperm
  | same m' hcase =>
      cases hcase with
      | discard msg rest _ hbox _ =>
          exact ⟨hself, hpop hbox, fun q hq => hq, fun q hq => .inl hq, rfl⟩
      | deliver msg rest i a _ hbox hmsg hi ht haddr => exact absurd ht (hlive hi)
      | create msg rest op _ hbox hmsg hnot hget hop hat =>
          exact absurd (hcov msg (hbox ▸ List.mem_cons_self)) hnot
      | cancel msg rest hpc hbox hmsg hlen => exact hcancel hbox (.refl _)
      | schedule => exact hcontrol hself rfl rfl rfl
      | finish => exact hcontrol hself rfl rfl rfl
      | poll => exact hcontrol hself rfl rfl rfl
      | expire => exact hcontrol hself rfl rfl rfl
      | begin i a queue count reads _ _ hi =>
          exact hcontrol (aligned_of_set (b := { a with executionCount := 0 }) .refl hi.1 rfl
            ⟨rfl, rfl, id⟩) rfl rfl rfl
      | work i a msg rest data w count reads _ hi ht hbox hdata hwork hres =>
          exact absurd ht (hlive hi)
      | lastWork i a msg rest data w count reads _ hi ht hbox hdata hwork hres =>
          exact absurd ht (hlive hi)
      | delete i a _ hi =>
          exact hcontrol (aligned_of_set (b := { a with deleted := true }) .refl hi.1 rfl
            ⟨rfl, rfl, fun _ => rfl⟩) rfl rfl rfl
      | idle i a _ hi ht => exact absurd ht (hlive hi)
      | requeue i a _ hi ht => exact absurd ht (hlive hi)

/-- A dataflow whose whole address is disabled. -/
structure Closed (cfg : Config) (p : List UInt8) (s : State (ArtTree Nat))
    (m : State (MapIndex Nat)) : Prop extends Mapped cfg s m where
  mark : p ∈ m.actorTree.disabled
  stopped : ∀ i a, m.Holds i a → a.terminating = true
  below : ∀ msg ∈ m.mailbox, p <+: msg.address

namespace Closed

theorem covers (h : Closed cfg p s m) {addr : List UInt8} (haddr : p <+: addr) :
    m.actorTree.Covers addr := ⟨p, h.mark, haddr⟩

/-- No cancellation is misled any more. -/
theorem unmisled (h : Closed cfg p s m) : Unmisled cfg s := by
  obtain ⟨q, hq, hqp⟩ := h.tree.cover p h.mark
  intro msg rest _ hbox _ _
  rcases h.tree.wf with hnull | hwf
  · rw [hnull] at hq
    cases hq
  · have hmsg : msg ∈ m.mailbox := by
      rw [h.rest] at hbox
      exact (show m.mailbox = msg :: rest from hbox) ▸ List.mem_cons_self
    exact not_misread_of_comparable hwf hq (.inr (hqp.trans (h.below msg hmsg)))

/-- The dataflow stays closed where it settles. -/
theorem settle (h : Closed cfg p s m) (hinv : Inv cfg.limitCnt [] m')
    (hsettles : Settles m m') (htree : Refines s'.actorTree m'.actorTree)
    (hrest : s' = m'.withTree s'.actorTree) : Closed cfg p s' m' where
  tree := htree
  rest := hrest
  inv := hinv
  actors b hb := by
    obtain ⟨i, hi⟩ := List.mem_iff_getElem?.mp hb
    obtain ⟨a, ha, hab⟩ := hsettles.actors.exists_left hi
    rw [hab.address]
    exact h.actors a (List.mem_of_getElem? ha)
  marks q hq := by
    rcases hsettles.marks q hq with hq | ⟨msg, hmsg, rfl⟩
    · exact h.marks q hq
    · rw [msg.length_address]
      exact h.mail msg hmsg
  mail msg hmsg := h.mail msg (hsettles.mailbox msg hmsg)
  mark := hsettles.kept p h.mark
  stopped i b hi := by
    obtain ⟨a, ha, hab⟩ := hsettles.actors.exists_left hi.1
    rw [hab.terminating]
    refine h.stopped i a ⟨ha, Bool.eq_false_iff.mpr fun hd => ?_⟩
    have := hab.deleted hd
    rw [hi.2] at this
    cases this
  below msg hmsg := h.below msg (hsettles.mailbox msg hmsg)

/-- A step of a closed dataflow. -/
theorem step (h : Closed cfg p s m) (mem : Nat → UInt8) (build : Build) (hs : ¬ Returned s) :
    ∃ s' m', LightQuery.step (radixIndex mem build) cfg s = .ok s' ∧ TreeCase cfg m m' ∧
      Settles m m' ∧ Closed cfg p s' m' := by
  obtain ⟨s', m', hstep, hcase, htree, hrest⟩ := h.toMapped.step mem build hs h.unmisled
  have hsettles := hcase.settles h.inv h.stopped fun msg hmsg => h.covers (h.below msg hmsg)
  exact ⟨s', m', hstep, hcase, hsettles, h.settle (hcase.inv h.inv) hsettles htree hrest⟩

end Closed

/-! ## the stop -/

/-- What the actors of a dataflow have done. -/
def State.record {σ : Type} (s : State σ) : List (List UInt8 × Operator × List MessagePayload) :=
  s.actors.map Actor.record

theorem record_eq_of_aligned {σ τ : Type} {s : State σ} {t : State τ} {R : Actor → Actor → Prop}
    (h : Aligned R s t) (hR : ∀ a b, R a b → b.record = a.record) : t.record = s.record := by
  refine List.ext_getElem? fun i => ?_
  rw [State.record, State.record, List.getElem?_map, List.getElem?_map]
  rcases rel_cases (h i) with ⟨hs, ht⟩ | ⟨a, b, hs, ht, hab⟩
  · rw [hs, ht]
  · rw [hs, ht, Option.map_some, Option.map_some, hR a b hab]

/-- A tree that is not empty holds something below `p`. -/
theorem Mapped.exists_entry (h : Mapped cfg s m) (hin : Inside p m)
    (hroot : s.actorTree.root ≠ .null) : ∃ e ∈ entries s.actorTree.root, p <+: e.1 := by
  have hwf := h.tree.wf.resolve_left hroot
  obtain ⟨⟨q, o⟩, he⟩ := List.exists_mem_of_ne_nil _ hwf.entries_ne_nil
  refine ⟨(q, o), he, ?_⟩
  cases o with
  | none => exact hin.marks q (h.tree.mark q he)
  | some i =>
      obtain ⟨addr, rfl, hlive⟩ := h.tree.exists_of_live he
      obtain ⟨a, ha, -, rfl⟩ := h.inv.holds_of_live hlive
      exact prefix_loadKey.mpr (.inl (hin.actors a (List.mem_of_getElem? ha.1)))

/-- **Cancelling the own scope closes the dataflow**, unless its tree is empty. -/
theorem Mapped.close (h : Mapped cfg s m) (hin : Inside p m) (hne : p ≠ []) (hle : p.length ≤ 2)
    (mem : Nat → UInt8) (hroot : s.actorTree.root ≠ .null) :
    ∃ s' m', handleScopeCancellation (radixIndex mem build) s p = .ok s' ∧ s'.cout = s.cout ∧
      s'.record = s.record ∧ Closed cfg p { s' with mailbox := [] } m' := by
  obtain ⟨e, he, hpe⟩ := h.exists_entry hin hroot
  have hshort : ∀ b i, (b, i) ∈ m.actorTree.live → ¬ loadKey b <+: p := fun b i hb hpre => by
    have := hpre.length_le
    rw [length_loadKey, h.length_of_live hb] at this
    omega
  rcases @handleScopeCancellation_follows cfg _ _ mem build h.tree h.inv _ hne
    (not_misread_of_comparable (h.tree.wf.resolve_left hroot) he (.inl hpe)) hshort with
    ⟨hnull, -⟩ | ⟨targets, t, hperm, hrun, htree⟩
  · exact absurd hnull hroot
  rw [← h.rest] at hrun
  obtain ⟨hdis, -, -, hcout⟩ := cancelIn_frame m p targets
  have hrecord : Aligned (fun a b => b.record = a.record) s
      ((m.cancelIn p targets).withTree t) := by
    rw [h.rest]
    exact aligned_cancelIn m p targets (fun _ => rfl) fun _ _ _ _ => rfl
  refine ⟨_, { m.cancelIn p targets with mailbox := [] }, hrun, ?_, record_eq_of_aligned hrecord
    fun a b hab => hab, ⟨htree, rfl, ?_, fun b hb => ?_, fun q hq => ?_, ?_⟩, ?_,
    fun i b hi => ?_, ?_⟩
  · rw [h.rest]
    exact hcout
  · exact (h.inv.disable_perm hperm).stopAll.2.congr rfl rfl rfl (fun _ => Iff.rfl)
      (fun _ hm => absurd hm List.not_mem_nil) rfl
  · obtain ⟨i, hi⟩ := List.mem_iff_getElem?.mp hb
    have hi' : (m.cancelIn p targets).actors[i]? = some b := hi
    rw [getElem?_cancelIn, Option.map_eq_some_iff] at hi'
    obtain ⟨a, ha, rfl⟩ := hi'
    have hlen := h.actors a (List.mem_of_getElem? ha)
    split <;> exact hlen
  · have hq' : q ∈ (m.cancelIn p targets).actorTree.disabled := hq
    rw [hdis] at hq'
    rcases List.mem_cons.mp hq' with rfl | hq'
    · omega
    · exact h.marks q hq'
  · exact fun _ hm => absurd hm List.not_mem_nil
  · show p ∈ (m.cancelIn p targets).actorTree.disabled
    rw [hdis]
    exact List.mem_cons_self
  · obtain ⟨hi, hd⟩ := hi
    have hi' : (m.cancelIn p targets).actors[i]? = some b := hi
    rw [getElem?_cancelIn, Option.map_eq_some_iff] at hi'
    obtain ⟨a, ha, rfl⟩ := hi'
    by_cases hmem : i ∈ targets
    · simp only [hmem, if_true]
    · simp only [hmem, if_false]
      -- an actor that does not terminate is in the scope
      by_contra ht
      have hlive := ((h.inv.actor i a ha).live a.address).mpr
        ⟨rfl, by simpa using ht, List.not_mem_nil⟩
      exact hmem (hperm.mem_iff.mpr (MapIndex.mem_scope.mpr
        ⟨a.address, hin.actors a (List.mem_of_getElem? ha), hlive⟩))
  · exact fun _ hm => absurd hm List.not_mem_nil

/-- What is known of a dataflow that was stopped in the state `s₀`. -/
structure Ended (build : Build) (cfg : Config) (address : List UInt8) (s₀ s : State (ArtTree Nat)) :
    Prop where
  /-- nothing is printed any more -/
  cout : s.cout = s₀.cout
  /-- no actor is created, and none is given a payload -/
  record : s.record = s₀.record
  stopped : ∀ i a, s.Holds i a → a.terminating = true ∧ a.mailbox = []
  absent : ∀ mem build addr, address <+: addr →
    (radixIndex mem build).lookup s.actorTree addr = .ok (-1, none)
  /-- the actors that are still to be deleted are counted -/
  count : s.numTerminatingChildren = (s.actors.filter fun a => !a.deleted).length
  /-- no step faults, and none is misled -/
  safe : ¬ Returned s → ∀ mem, ∃ s', step (radixIndex mem build) cfg s = .ok s' ∧
    Steps build cfg s s'
  /-- a run ends, and then all actors are deleted -/
  runs : ¬ Returned s → ∀ (n : Nat) (run : Nat → State (ArtTree Nat)), run 0 = s →
    (∀ k < n, Steps build cfg (run k) (run (k + 1))) → n ≤ s.budget cfg.getOutV ∧
      ((∀ s', ¬ Steps build cfg (run n) s') → Returned (run n) ∧
        (∀ a ∈ (run n).actors, a.deleted = true) ∧ (run n).numTerminatingChildren = 0)

namespace Closed

/-- A step of a closed dataflow, seen from the tree. -/
theorem next (h : Closed cfg p s m) (hs : Steps build cfg s s') :
    ∃ m', TreeCase cfg m m' ∧ Closed cfg p s' m' ∧ s'.cout = s.cout ∧ s'.record = s.record := by
  obtain ⟨hret, -, mem, hstep⟩ := hs
  obtain ⟨t, m', hrun, hcase, hsettles, hm'⟩ := h.step mem build hret
  rw [hstep] at hrun
  cases hrun
  refine ⟨m', hcase, hm', ?_, ?_⟩
  · rw [hm'.rest, h.rest]
    exact hsettles.cout
  · rw [hm'.rest, h.rest]
    exact record_eq_of_aligned hsettles.actors fun a b hab => hab.record

/-- All actors are deleted when no task is left. -/
theorem deleted (h : Closed cfg p s m) (hret : Returned s) (hqueue : s.taskQueue = []) :
    ∀ a ∈ s.actors, a.deleted = true := by
  intro a ha
  obtain ⟨i, hi⟩ := List.mem_iff_getElem?.mp ha
  by_contra hd
  have hold : m.Holds i a := h.holds_iff.mp ⟨hi, by simpa using hd⟩
  have hact := ((h.inv.actor i a hold.1).stopped (h.stopped i a hold)).1
  have hpc : m.pc = .returned := h.returned_iff.mp hret
  have hmem := (h.inv.actor i a hold.1).queued.mpr ⟨hact, hold.2, by simp [hpc]⟩
  rw [h.rest] at hqueue
  rw [show m.taskQueue = [] from hqueue] at hmem
  cases hmem

theorem count (h : Closed cfg p s m) :
    s.numTerminatingChildren = (s.actors.filter fun a => !a.deleted).length := by
  rw [h.rest]
  show m.numTerminatingChildren = (m.actors.filter fun a => !a.deleted).length
  rw [h.inv.count, List.countP_eq_length_filter]
  congr 2
  refine List.filter_congr fun a ha => ?_
  obtain ⟨i, hi⟩ := List.mem_iff_getElem?.mp ha
  rw [Actor.stopping]
  cases hd : a.deleted with
  | false => simp [h.stopped i a ⟨hi, hd⟩]
  | true => simp

/-- Along a run of a closed dataflow. -/
theorem run (h : Closed cfg p s m) {n : Nat} {run : Nat → State (ArtTree Nat)}
    (hstart : run 0 = s) (hrun : ∀ k < n, Steps build cfg (run k) (run (k + 1))) :
    ∃ m', Closed cfg p (run n) m' ∧ (run n).budget cfg.getOutV + n ≤ s.budget cfg.getOutV ∧
      (¬ Returned s → Returned (run n) → (run n).taskQueue = []) := by
  induction n with
  | zero =>
      exact ⟨m, hstart ▸ h, by rw [hstart]; exact le_rfl,
        fun hs hret => absurd (hstart ▸ hret) hs⟩
  | succ n ih =>
      obtain ⟨m', hm', hbound, -⟩ := ih fun k hk => hrun k (by omega)
      obtain ⟨m'', hcase, hm'', -⟩ := hm'.next (hrun n (by omega))
      have hlt := hcase.budget_lt hm'.inv
      rw [← hm'.budget_eq, ← hm''.budget_eq] at hlt
      refine ⟨m'', hm'', by omega, fun _ hret => ?_⟩
      have hqueue := hcase.taskQueue_eq_nil (hm''.returned_iff.mp hret)
      rw [hm''.rest]
      exact hqueue

/-- **A closed dataflow has ended.** -/
theorem ended (h : Closed cfg p s m) {s₀ : State (ArtTree Nat)} (hcout : s.cout = s₀.cout)
    (hrecord : s.record = s₀.record) : Ended build cfg p s₀ s where
  cout := hcout
  record := hrecord
  stopped i a hi := by
    have hold := h.holds_iff.mp hi
    have ht := h.stopped i a hold
    exact ⟨ht, ((h.inv.actor i a hold.1).stopped ht).2⟩
  absent mem build addr haddr := by
    rw [h.lookup_eq, MapIndex.lookup, if_pos (h.covers haddr)]
  count := h.count
  safe hs mem := by
    obtain ⟨t, -, hstep, -⟩ := h.step mem build hs
    exact ⟨t, hstep, hs, h.unmisled, mem, hstep⟩
  runs hs n run hstart hrun := by
    obtain ⟨m', hm', hbound, hqueue⟩ := h.run hstart hrun
    refine ⟨by omega, fun hlast => ?_⟩
    have hret : Returned (run n) := by
      by_contra hret
      obtain ⟨s', -, hstep, -⟩ := hm'.step (fun _ => 0) build hret
      exact hlast s' ⟨hret, hm'.unmisled, _, hstep⟩
    have hdel := hm'.deleted hret (hqueue hs hret)
    refine ⟨hret, hdel, ?_⟩
    rw [hm'.count, List.filter_eq_nil_iff.mpr fun a ha => by simp [hdel a ha]]
    rfl

end Closed

end Closed

/-! ## the stop of a dataflow -/

section Shutdown

variable {cfg : Config} {build : Build} {address : List UInt8} {msgs : List TagMessage}
  {g g' : ActorGroup (ArtTree Nat)}

theorem ActorGroup.handleStopFromParent_of_terminating (index : ActorIndex (ArtTree Nat))
    (h : g.terminating = true) : g.handleStopFromParent index address = .ok g :=
  if_pos h

/-- The first stop cancels the scope of the address and drops the messages. -/
theorem ActorGroup.handleStopFromParent_of_ok {index : ActorIndex (ArtTree Nat)}
    {s : State (ArtTree Nat)} (h : g.terminating = false)
    (hs : handleScopeCancellation index g.state address = .ok s) :
    ∃ g', g.handleStopFromParent index address = .ok g' ∧ g'.terminating = true ∧
      g'.state = { s with mailbox := [] } ∧
      (g'.added = g.added ∨ g'.state.numTerminatingChildren = 0) := by
  by_cases hidle : s.numTerminatingChildren = 0 ∧ g.isActive = false
  · refine ⟨⟨{ s with mailbox := [] }, true, true, g.added + 1⟩, ?_, rfl, rfl, .inr hidle.1⟩
    simp [handleStopFromParent, activate, h, hs, hidle, bind, Except.bind]
  · refine ⟨⟨{ s with mailbox := [] }, true, g.isActive, g.added⟩, ?_, rfl, rfl, .inl rfl⟩
    simp only [handleStopFromParent, h, hs, bind, Except.bind, if_neg hidle, Bool.false_eq_true,
      if_false]

/-- **Run lemma**: a closed dataflow stays closed, and its parent is not given it
again. -/
theorem closed_of_moves {m : State (MapIndex Nat)} (h : Closed cfg address g.state m)
    (ht : g.terminating = true)
    (hmoves : Relation.ReflTransGen (GroupMove build cfg address) g g') :
    (∃ m', Closed cfg address g'.state m') ∧ g'.terminating = true ∧ g'.added = g.added ∧
      g'.state.cout = g.state.cout ∧ g'.state.record = g.state.record := by
  induction hmoves with
  | refl => exact ⟨⟨m, h⟩, ht, rfl, rfl, rfl⟩
  | tail _ hmove ih =>
      obtain ⟨⟨m', hm'⟩, ht', hadded, hcout, hrecord⟩ := ih
      cases hmove with
      | enqueue msg hmsg hown =>
          refine ⟨⟨m'.enqueMessage msg, ⟨⟨hm'.tree, hm'.rest_enqueue msg, ?_, hm'.actors, hm'.marks,
            fun msg' hmem => ?_⟩, hm'.mark, hm'.stopped, fun msg' hmem => ?_⟩⟩, ht', hadded, hcout,
            hrecord⟩
          · refine hm'.inv.congr rfl rfl rfl (fun _ => Iff.rfl) (fun msg' hmem => ?_) rfl
            rcases List.mem_append.mp hmem with hmem | hmem
            · exact hm'.inv.mail msg' hmem
            · exact List.mem_singleton.mp hmem ▸ hmsg.1
          · rcases List.mem_append.mp hmem with hmem | hmem
            · exact hm'.mail msg' hmem
            · exact List.mem_singleton.mp hmem ▸ hmsg.2
          · rcases List.mem_append.mp hmem with hmem | hmem
            · exact hm'.below msg' hmem
            · exact List.mem_singleton.mp hmem ▸ hown
      | step s' hs =>
          obtain ⟨m'', -, hm'', hcout', hrecord'⟩ := hm'.next hs
          exact ⟨⟨m'', hm''⟩, ht', hadded, hcout'.trans hcout, hrecord'.trans hrecord⟩
      | call hret =>
          have hpc : m'.pc = .returned := hm'.returned_iff.mp hret
          exact ⟨⟨{ m' with pc := .mailbox }, ⟨⟨hm'.tree, hm'.rest_call,
            hm'.inv.congr rfl rfl rfl (by simp [hpc]) hm'.inv.mail rfl, hm'.actors, hm'.marks,
            hm'.mail⟩, hm'.mark, hm'.stopped, hm'.below⟩⟩, ht', hadded, hcout, hrecord⟩
      | stop mem g'' hstop =>
          -- a second stop does nothing
          rw [ActorGroup.handleStopFromParent_of_terminating _ ht'] at hstop
          cases hstop
          exact ⟨⟨m', hm'⟩, ht', hadded, hcout, hrecord⟩

/-- **Stopping a dataflow**: at any moment of a dataflow whose address has one or
two bytes and that is sent messages below its own address only, its parent can
stop it.  If its tree is empty, nothing is disabled.  Otherwise it has ended:
whatever of its messages it is sent and however often it is stopped and run, no
step faults, it prints nothing, creates no actor and works on no payload, and a
run deletes the actors that are left.  Its parent is given it as a task only if
no actor was left. -/
theorem shutdown_of_fed (h : Fed build cfg msgs g.state) (hg : g.terminating = false)
    (hown : ∀ msg ∈ msgs, address <+: msg.address) (hne : address ≠ [])
    (hle : address.length ≤ 2) (mem : Nat → UInt8) :
    ∃ g', g.handleStopFromParent (radixIndex mem build) address = .ok g' ∧
      (g.state.actorTree.root = .null → g'.state = { g.state with mailbox := [] }) ∧
      (g.state.actorTree.root ≠ .null →
        (g'.added = g.added ∨ ∀ a ∈ g'.state.actors, a.deleted = true) ∧
        ∀ g'', Relation.ReflTransGen (GroupMove build cfg address) g' g'' →
          Ended build cfg address g.state g''.state ∧ g''.added = g'.added) := by
  obtain ⟨m, hm, hin⟩ := h.inside hle hown
  by_cases hroot : g.state.actorTree.root = .null
  · have hrun : handleScopeCancellation (radixIndex mem build) g.state address = .ok g.state := by
      simp [handleScopeCancellation, radixIndex, RadixTreeIndex.iterPrefixApply,
        RadixTreeIndex.disable, artIterActivePrefix, artDisable_of_null _ _ hroot, hroot, iterLoop,
        bind, Except.bind, pure, Except.pure]
    obtain ⟨g', hstop, -, hstate, -⟩ := ActorGroup.handleStopFromParent_of_ok hg hrun
    exact ⟨g', hstop, fun _ => hstate, fun hnot => absurd hroot hnot⟩
  · obtain ⟨s', m', hrun, hcout, hrecord, hclosed⟩ := hm.toMapped.close hin hne hle mem hroot
    obtain ⟨g', hstop, ht, hstate, hadded⟩ := ActorGroup.handleStopFromParent_of_ok hg hrun
    rw [← hstate] at hclosed
    refine ⟨g', hstop, fun hnull => absurd hnull hroot, fun _ => ⟨?_, fun g'' hmoves => ?_⟩⟩
    · refine hadded.imp_right fun hzero a ha => ?_
      rw [hclosed.count, Int.natCast_eq_zero, List.length_eq_zero_iff,
        List.filter_eq_nil_iff] at hzero
      simpa using hzero a ha
    · obtain ⟨⟨m'', hm''⟩, -, hadded', hcout', hrecord'⟩ := closed_of_moves hclosed ht hmoves
      rw [hstate] at hcout' hrecord'
      exact ⟨hm''.ended (hcout'.trans hcout) (hrecord'.trans hrecord), hadded'⟩

/-- The messages of a query have been handed to OUT, which has not run yet. -/
def queryRunning : State (ArtTree Nat) :=
  runFor chain 2 (State.start ArtTree.init [nodesFor [⟨1, 1⟩], lastFor])

theorem fed_queryRunning : Fed .sse2 chain [nodesFor [⟨1, 1⟩], lastFor] queryRunning :=
  (fed_start takes_query).runFor 2

/-- A query that is stopped before it runs: `shutdown_of_fed` on what is left of
it. -/
theorem shutdown_of_fed_query_running :
    queryRunning.actors.length = 1 ∧
      ∃ g', ActorGroup.handleStopFromParent (radixIndex (fun _ => 0) .sse2) [7, 0]
          { state := queryRunning } = .ok g' ∧ Ended .sse2 chain [7, 0] queryRunning g'.state := by
  have hroot : queryRunning.actorTree.root ≠ .null := ne_null_of_isNull (by decide +kernel)
  obtain ⟨g', hstop, -, hlive⟩ := @shutdown_of_fed chain .sse2 [7, 0] _ { state := queryRunning }
    fed_queryRunning rfl (by decide) (by decide) (by decide) fun _ => 0
  exact ⟨by decide +kernel, g', hstop, ((hlive hroot).2 g' .refl).1⟩

end Shutdown

end LightQuery
