import LightQuery.Dataflow.Effects

/-!
# LightQuery.Dataflow.Accounting

The scheduling and termination accounting of a dataflow over the map index.

`Inv` says how the flags of an actor, the task queue, the index and the count of
terminating children go together.  Between the two halves of a stop, in which
the index forgets the actors and then each of them is stopped, the actors that
are still to be stopped are the pending ones.
-/

namespace LightQuery

open State

/-! ## the invariant -/

/-- The actor waits for its deletion. -/
def Actor.stopping (a : Actor) : Bool := a.terminating && !a.deleted

/-- What holds of one actor. -/
structure ActorInv (limitCnt : UInt32) (pending : List Nat) (s : State (MapIndex Nat)) (i : Nat)
    (a : Actor) : Prop where
  queued : i ∈ s.taskQueue ↔ a.isActive = true ∧ a.deleted = false ∧ s.pc ≠ .running i
  running : s.pc = .running i → a.isActive = true ∧ a.deleted = false
  woken : a.mailbox ≠ [] → a.isActive = true
  stopped : a.terminating = true → a.isActive = true ∧ a.mailbox = []
  deleted : a.deleted = true → a.terminating = true
  waits : i ∈ pending → a.terminating = false
  covered : a.terminating = true ∨ i ∈ pending → s.actorTree.Covers a.address
  live : ∀ addr, (addr, i) ∈ s.actorTree.live ↔
    addr = a.address ∧ a.terminating = false ∧ i ∉ pending
  mail : ∀ m ∈ a.mailbox, m.ToOperator ∧ m.address = a.address
  op : a.terminating = false → i ∉ pending → OperatorAt limitCnt a.address a.op

/-- A message that a dataflow accepts: for an operator, or a cancellation. -/
def Accepted (msg : TagMessage) : Prop := msg.ToOperator ∨ msg.type = .cancelScope

/-- What holds of the dataflow, while some actors are still to be stopped. -/
structure Inv (limitCnt : UInt32) (pending : List Nat) (s : State (MapIndex Nat)) : Prop where
  actor : ∀ i a, s.actors[i]? = some a → ActorInv limitCnt pending s i a
  mail : ∀ m ∈ s.mailbox, Accepted m
  queue_nodup : s.taskQueue.Nodup
  queue_lt : ∀ i ∈ s.taskQueue, i < s.actors.length
  running_lt : ∀ i, s.pc = .running i → i < s.actors.length
  pending_nodup : pending.Nodup
  pending_lt : ∀ i ∈ pending, i < s.actors.length
  live_lt : ∀ addr i, (addr, i) ∈ s.actorTree.live → i < s.actors.length
  uncovered : ∀ addr i, (addr, i) ∈ s.actorTree.live → ¬ s.actorTree.Covers addr
  live_nodup : (s.actorTree.live.map Prod.snd).Nodup
  addr_nodup : (s.actors.map Actor.address).Nodup
  count : s.numTerminatingChildren = (s.actors.countP Actor.stopping : Nat)

variable {limitCnt : UInt32} {pending pending' : List Nat} {s s' : State (MapIndex Nat)} {i : Nat}
  {a b : Actor}

/-- An actor with messages does not terminate. -/
theorem ActorInv.terminating_of_mailbox (h : ActorInv limitCnt pending s i a)
    (hbox : a.mailbox ≠ []) : a.terminating = false :=
  Bool.eq_false_iff.mpr fun ht => hbox (h.stopped ht).2

/-- An actor that does not terminate is there. -/
theorem ActorInv.deleted_eq (h : ActorInv limitCnt pending s i a) (ht : a.terminating = false) :
    a.deleted = false :=
  Bool.eq_false_iff.mpr fun hd => Bool.eq_false_iff.mp ht (h.deleted hd)

/-- A new dataflow with accepted messages. -/
theorem inv_start {msgs : List TagMessage} (h : ∀ m ∈ msgs, Accepted m) :
    Inv limitCnt [] (State.start MapIndex.empty msgs) := by
  rw [start_eq]
  constructor <;> simp_all [MapIndex.empty]

/-- Only the pending actors matter, not their order. -/
theorem Inv.congr_pending (h : Inv limitCnt pending s) (hmem : ∀ j, j ∈ pending' ↔ j ∈ pending)
    (hnodup : pending'.Nodup) : Inv limitCnt pending' s := by
  refine { h with
    actor := fun i a ha => ?_
    pending_nodup := hnodup
    pending_lt := fun i hi => h.pending_lt i ((hmem i).mp hi) }
  have hi := h.actor i a ha
  exact { hi with
    waits := fun hp => hi.waits ((hmem i).mp hp)
    covered := fun hp => hi.covered (hp.imp_right (hmem i).mp)
    live := fun addr => by rw [hi.live, hmem]
    op := fun ht hp => hi.op ht fun hm => hp ((hmem i).mpr hm) }

/-- Two actors have two addresses. -/
theorem Inv.eq_of_address (h : Inv limitCnt pending s) {j : Nat} (hi : s.actors[i]? = some a)
    (hj : s.actors[j]? = some b) (hab : a.address = b.address) : i = j := by
  have hlt := (List.getElem?_eq_some_iff.mp hi).1
  exact (List.getElem?_inj (by simpa) h.addr_nodup).mp (by simp [hi, hj, hab])

/-! ## one actor changes -/

/-- **Frame rule**: where only actor `i` changes, the invariant is to be shown
for it alone. -/
theorem Inv.set (h : Inv limitCnt pending s) (hi : s.actors[i]? = some a)
    (hactors : s'.actors = s.actors.set i b) (htree : s'.actorTree = s.actorTree)
    (haddr : b.address = a.address)
    (hqueue : ∀ j, j ≠ i → (j ∈ s'.taskQueue ↔ j ∈ s.taskQueue))
    (hnodup : s'.taskQueue.Nodup)
    (hpc : ∀ j, j ≠ i → (s'.pc = .running j ↔ s.pc = .running j))
    (hpend : ∀ j, j ≠ i → (j ∈ pending' ↔ j ∈ pending)) (hpnodup : pending'.Nodup)
    (hmail : ∀ m ∈ s'.mailbox, Accepted m)
    (hcount : s'.numTerminatingChildren - (if b.stopping then 1 else 0) =
      s.numTerminatingChildren - if a.stopping then 1 else 0)
    (hb : ActorInv limitCnt pending' s' i b) : Inv limitCnt pending' s' := by
  obtain ⟨hlt, hai⟩ := List.getElem?_eq_some_iff.mp hi
  have hlen : s'.actors.length = s.actors.length := by rw [hactors, List.length_set]
  -- a property of the places below the length
  have hbelow : ∀ {P Q : Nat → Prop}, (∀ j, j ≠ i → (P j ↔ Q j)) → (∀ j, Q j → j < s.actors.length) →
      ∀ j, P j → j < s'.actors.length := by
    intro P Q hPQ hQ j hj
    rw [hlen]
    by_cases hji : j = i
    · rwa [hji]
    · exact hQ j ((hPQ j hji).mp hj)
  refine ⟨?_, hmail, hnodup, hbelow hqueue h.queue_lt, hbelow hpc h.running_lt, hpnodup,
    hbelow hpend h.pending_lt, ?_, ?_, ?_, ?_, ?_⟩
  · intro j c hj
    rw [hactors] at hj
    by_cases hji : j = i
    · subst hji
      rw [List.getElem?_set_self hlt] at hj
      cases hj
      exact hb
    · rw [List.getElem?_set_ne (Ne.symm hji)] at hj
      have hc := h.actor j c hj
      exact {
        queued := by rw [hqueue j hji, hc.queued, Ne, Ne, hpc j hji]
        running := fun hr => hc.running ((hpc j hji).mp hr)
        woken := hc.woken
        stopped := hc.stopped
        deleted := hc.deleted
        waits := fun hp => hc.waits ((hpend j hji).mp hp)
        covered := fun hp => htree ▸ hc.covered (hp.imp_right (hpend j hji).mp)
        live := fun addr => by rw [htree, hc.live, hpend j hji]
        mail := hc.mail
        op := fun ht hp => hc.op ht fun hm => hp ((hpend j hji).mpr hm) }
  · exact fun addr j hj => hlen ▸ h.live_lt addr j (htree ▸ hj)
  · exact fun addr j hj => htree ▸ h.uncovered addr j (htree ▸ hj)
  · exact htree ▸ h.live_nodup
  · rw [hactors, List.map_set, haddr]
    have : (s.actors.map Actor.address).set i a.address = s.actors.map Actor.address := by
      rw [← hai, ← List.getElem_map Actor.address (h := by simpa), List.set_getElem_self]
    rw [this]
    exact h.addr_nodup
  · have hpos : a.stopping = true → 0 < s.actors.countP Actor.stopping := fun hs =>
      List.countP_pos_iff.mpr ⟨a, hai ▸ List.getElem_mem hlt, hs⟩
    have hc := h.count
    rw [hactors, List.countP_set hlt, hai]
    generalize s.actors.countP Actor.stopping = n at hc hpos
    cases hsa : a.stopping <;> cases hsb : b.stopping
    all_goals simp only [hsa, hsb, if_true, Bool.false_eq_true, if_false, false_imp_iff,
      true_imp_iff] at hcount hpos ⊢
    all_goals omega

/-- The queue after an actor is woken. -/
theorem mem_wake_taskQueue {j : Nat} :
    j ∈ (s.wake i b).taskQueue ↔ j ∈ s.taskQueue ∨ b.isActive = false ∧ j = i := by
  cases h : b.isActive <;> simp [wake, h]

/-- **Wake rule**: an actor that is woken with new messages or with its stop. -/
theorem Inv.wake (h : Inv limitCnt pending s) (hi : s.Holds i a) (n : Int)
    (haddr : b.address = a.address) (hact : b.isActive = a.isActive) (hdel : b.deleted = false)
    (hop : b.op = a.op) (hstop : b.terminating = true → b.mailbox = [])
    (hpend : ∀ j, j ≠ i → (j ∈ pending' ↔ j ∈ pending)) (hpnodup : pending'.Nodup)
    (hgone : a.terminating = true ∨ i ∈ pending ↔ b.terminating = true ∨ i ∈ pending')
    (hwaits : i ∈ pending' → b.terminating = false)
    (hmail : ∀ m ∈ b.mailbox, m.ToOperator ∧ m.address = b.address)
    (hcount : n - (if b.terminating then 1 else 0) =
      s.numTerminatingChildren - if a.terminating then 1 else 0) :
    Inv limitCnt pending' (State.wake { s with numTerminatingChildren := n } i b) := by
  have ha := h.actor i a hi.1
  have hstays : (b.terminating = false ∧ i ∉ pending') ↔ (a.terminating = false ∧ i ∉ pending) := by
    simpa [not_or] using not_congr hgone.symm
  have hfree : b.isActive = false → i ∉ s.taskQueue := by
    intro hb hq
    rw [ha.queued, ← hact, hb] at hq
    cases hq.1
  refine h.set hi.1 rfl rfl haddr ?_ ?_ (fun j _ => Iff.rfl) hpend hpnodup h.mail ?_ ?_
  · intro j hj
    rw [mem_wake_taskQueue]
    simp [hj]
  · cases hb : b.isActive with
    | true => simpa [State.wake, hb] using h.queue_nodup
    | false => simpa [State.wake, hb] using
        List.Nodup.append h.queue_nodup (List.nodup_singleton i) (by simpa using hfree hb)
  · simpa [Actor.stopping, hdel, hi.2] using hcount
  · exact {
      queued := by
        rw [mem_wake_taskQueue]
        simp only [ha.queued, ← hact, hi.2, hdel, State.wake, and_true, true_and]
        cases hb : b.isActive with
        | true => simp
        | false =>
            simp only [Bool.false_eq_true, false_and, false_or, true_iff]
            intro hr
            rw [(ha.running hr).1] at hact
            rw [hb] at hact
            cases hact
      running := fun _ => ⟨rfl, hdel⟩
      woken := fun _ => rfl
      stopped := fun ht => ⟨rfl, hstop ht⟩
      deleted := fun hd => by rw [hdel] at hd; cases hd
      waits := hwaits
      covered := fun hp => haddr ▸ ha.covered (hgone.mpr hp)
      live := fun addr => by
        show (addr, i) ∈ s.actorTree.live ↔ _
        rw [ha.live, haddr, hstays]
      mail := hmail
      op := fun ht hp => haddr ▸ hop ▸ ha.op (hstays.mp ⟨ht, hp⟩).1 (hstays.mp ⟨ht, hp⟩).2 }

/-- **A message is delivered** to a live actor. -/
theorem Inv.deliver (h : Inv limitCnt pending s) (hi : s.Holds i a) (hp : i ∉ pending)
    (ht : a.terminating = false) {msg : TagMessage} (hmsg : msg.ToOperator)
    (haddr : msg.address = a.address) :
    Inv limitCnt pending (s.wake i { a with mailbox := a.mailbox ++ [msg] }) := by
  refine h.wake (b := { a with mailbox := a.mailbox ++ [msg] }) hi s.numTerminatingChildren rfl rfl
    hi.2 rfl ?_ (fun _ _ => Iff.rfl) h.pending_nodup Iff.rfl (fun hm => absurd hm hp) ?_ rfl
  · intro hb
    rw [show a.terminating = true from hb] at ht
    cases ht
  · intro m hm
    rcases List.mem_append.mp hm with hm | hm
    · exact (h.actor i a hi.1).mail m hm
    · rw [List.mem_singleton.mp hm]
      exact ⟨hmsg, haddr⟩

/-! ## stops -/

/-- A child is counted and stopped. -/
def State.stop {σ : Type} (s : State σ) (i : Nat) (a : Actor) : State σ :=
  State.wake { s with numTerminatingChildren := s.numTerminatingChildren + 1 } i
    { a with terminating := true, mailbox := [] }

/-- **A pending actor is stopped.** -/
theorem Inv.stop (h : Inv limitCnt (i :: pending) s) (hi : s.Holds i a) :
    Inv limitCnt pending (s.stop i a) := by
  obtain ⟨hnot, hnodup⟩ := List.nodup_cons.mp h.pending_nodup
  have ht := (h.actor i a hi.1).waits List.mem_cons_self
  refine h.wake (b := { a with terminating := true, mailbox := [] }) hi _ rfl rfl hi.2 rfl
    (fun _ => rfl) ?_ hnodup (by simp) (fun hm => absurd hm hnot) (by simp) ?_
  · intro j hj
    simp [hj]
  · simp [ht]

/-- Disabling a prefix makes the actors under it pending. -/
theorem Inv.disable (h : Inv limitCnt [] s) (p : List UInt8) :
    Inv limitCnt (s.actorTree.scope p) { s with actorTree := s.actorTree.disable p } := by
  have hscope : ∀ i a, s.actors[i]? = some a →
      (i ∈ s.actorTree.scope p ↔ p <+: a.address ∧ a.terminating = false) := by
    intro i a hi
    rw [MapIndex.mem_scope]
    have hlive := (h.actor i a hi).live
    simp only [hlive, List.not_mem_nil, not_false_eq_true, and_true]
    constructor
    · rintro ⟨addr, hp, rfl, ht⟩
      exact ⟨hp, ht⟩
    · rintro ⟨hp, ht⟩
      exact ⟨_, hp, rfl, ht⟩
  refine { h with
    actor := fun i a ha => ?_
    pending_nodup := ?_
    pending_lt := ?_
    live_lt := fun addr i hi => h.live_lt addr i (MapIndex.mem_disable.mp hi).2
    uncovered := ?_
    live_nodup := ?_ }
  · have hi := h.actor i a ha
    exact { hi with
      waits := fun hp => ((hscope i a ha).mp hp).2
      covered := fun hp => by
        rw [MapIndex.covers_disable]
        rcases hp with ht | hp
        · exact .inr (hi.covered (.inl ht))
        · exact .inl ((hscope i a ha).mp hp).1
      live := fun addr => by
        rw [MapIndex.mem_disable, hi.live, hscope i a ha]
        simp only [List.not_mem_nil, not_false_eq_true, and_true]
        constructor
        · rintro ⟨hp, rfl, ht⟩
          exact ⟨rfl, ht, fun hs => hp hs.1⟩
        · rintro ⟨rfl, ht, hp⟩
          exact ⟨fun hpa => hp ⟨hpa, ht⟩, rfl, ht⟩
      op := fun ht _ => hi.op ht List.not_mem_nil }
  · exact (List.filter_sublist.map Prod.snd).nodup h.live_nodup
  · intro i hi
    obtain ⟨addr, -, hlive⟩ := MapIndex.mem_scope.mp hi
    exact h.live_lt addr i hlive
  · intro addr i hi
    obtain ⟨hp, hlive⟩ := MapIndex.mem_disable.mp hi
    rw [MapIndex.covers_disable]
    rintro (hc | hc)
    · exact hp hc
    · exact h.uncovered addr i hlive hc
  · exact (List.filter_sublist.map Prod.snd).nodup h.live_nodup

/-- The actor behind a live or pending pointer is there. -/
theorem Inv.holds_of_lt (h : Inv limitCnt pending s) (hi : i < s.actors.length)
    (ht : ∀ a, s.actors[i]? = some a → a.terminating = false) : ∃ a, s.Holds i a := by
  have ha := List.getElem?_eq_getElem hi
  refine ⟨s.actors[i], ha, ?_⟩
  cases hd : s.actors[i].deleted with
  | false => rfl
  | true =>
      have := (h.actor i _ ha).deleted hd
      rw [ht _ ha] at this
      cases this

/-! ## creation -/

/-- A child is created and stored in the index. -/
def State.create (s : State (MapIndex Nat)) (addr : List UInt8) (op : Operator) :
    State (MapIndex Nat) :=
  { s with
    actors := s.actors ++ [{ address := addr, op := op }]
    actorTree := s.actorTree.insert addr s.actors.length }

/-- An address that is neither stored nor disabled has no actor. -/
theorem Inv.address_ne (h : Inv limitCnt [] s) {addr : List UInt8}
    (hcov : ¬ s.actorTree.Covers addr) (hget : s.actorTree.get addr = none)
    (hi : s.actors[i]? = some a) : a.address ≠ addr := by
  intro haddr
  have ha := h.actor i a hi
  cases ht : a.terminating with
  | true => exact hcov (haddr ▸ ha.covered (.inl ht))
  | false =>
      have hlive := (ha.live addr).mpr ⟨haddr.symm, ht, List.not_mem_nil⟩
      exact MapIndex.get_eq_none_iff.mp hget i hlive

/-- **An actor is created** at an address that has none and is not disabled. -/
theorem Inv.create (h : Inv limitCnt [] s) {addr : List UInt8} {op : Operator}
    (hcov : ¬ s.actorTree.Covers addr) (hget : s.actorTree.get addr = none)
    (hop : OperatorAt limitCnt addr op) : Inv limitCnt [] (s.create addr op) := by
  have hlive := MapIndex.get_eq_none_iff.mp hget
  have hlt : ∀ {P : Nat → Prop}, (∀ j, P j → j < s.actors.length) → ∀ j, P j →
      j < (s.create addr op).actors.length := by
    intro P hP j hj
    have := hP j hj
    simp only [State.create, List.length_append, List.length_singleton]
    omega
  have hlast : s.actors.length ∉ s.taskQueue := fun hm => absurd (h.queue_lt _ hm) (lt_irrefl _)
  have hpc : s.pc ≠ .running s.actors.length := fun hr => absurd (h.running_lt _ hr) (lt_irrefl _)
  have hfresh : ∀ addr', (addr', s.actors.length) ∉ s.actorTree.live := fun addr' hm =>
    absurd (h.live_lt _ _ hm) (lt_irrefl _)
  refine ⟨?_, h.mail, h.queue_nodup, hlt h.queue_lt, hlt h.running_lt, List.nodup_nil, by simp,
    ?_, ?_, ?_, ?_, ?_⟩
  · intro i a ha
    by_cases hi : i < s.actors.length
    · rw [State.create, List.getElem?_append_left hi] at ha
      have hai := h.actor i a ha
      refine { hai with live := fun addr' => ?_ }
      show (addr', i) ∈ (s.actorTree.insert addr s.actors.length).live ↔ _
      rw [MapIndex.mem_insert, hai.live]
      constructor
      · rintro (⟨-, rfl⟩ | ⟨-, hl⟩)
        · exact absurd hi (lt_irrefl _)
        · exact hl
      · intro hl
        refine .inr ⟨?_, hl⟩
        rintro rfl
        exact hlive i ((hai.live _).mpr hl)
    · have hilen : i = s.actors.length := by
        have := (List.getElem?_eq_some_iff.mp ha).1
        simp only [State.create, List.length_append, List.length_singleton] at this
        omega
      subst hilen
      simp only [State.create, List.getElem?_concat_length, Option.some.injEq] at ha
      subst ha
      refine ⟨by simp [State.create, hlast], fun hr => absurd hr hpc, by simp, by simp, by simp,
        by simp, by simp, ?_, by simp, fun _ _ => hop⟩
      intro addr'
      show (addr', _) ∈ (s.actorTree.insert addr _).live ↔ _
      rw [MapIndex.mem_insert]
      simp [hfresh]
  · intro addr' i hi
    rcases MapIndex.mem_insert.mp hi with ⟨-, rfl⟩ | ⟨-, hi⟩
    · simp [State.create]
    · exact hlt (P := fun j => (addr', j) ∈ s.actorTree.live) (h.live_lt addr') i hi
  · intro addr' i hi
    rcases MapIndex.mem_insert.mp hi with ⟨rfl, -⟩ | ⟨-, hi⟩
    · exact hcov
    · exact h.uncovered addr' i hi
  · show (((addr, s.actors.length) :: _).map Prod.snd).Nodup
    rw [List.map_cons, List.nodup_cons]
    refine ⟨?_, (List.filter_sublist.map Prod.snd).nodup h.live_nodup⟩
    intro hm
    obtain ⟨⟨addr', j⟩, he, hj⟩ := List.mem_map.mp hm
    have hj : j = s.actors.length := hj
    subst hj
    exact hfresh addr' (List.mem_filter.mp he).1
  · show ((s.actors ++ [_]).map Actor.address).Nodup
    rw [List.map_append, List.nodup_append]
    refine ⟨h.addr_nodup, by simp, ?_⟩
    intro x hx y hy hxy
    obtain ⟨a, ha, rfl⟩ := List.mem_map.mp hx
    obtain ⟨i, hi⟩ := List.mem_iff_getElem?.mp ha
    exact h.address_ne hcov hget hi (by simpa using hxy.trans (by simpa using hy))
  · rw [State.create]
    simp [Actor.stopping, h.count]

end LightQuery
