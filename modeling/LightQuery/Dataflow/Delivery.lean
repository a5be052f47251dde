import LightQuery.Dataflow.Serve
import LightQuery.Dataflow.Termination

/-!
# LightQuery.Dataflow.Delivery

The delivery of USER messages over the map index.

`Delivered` follows the payloads for an address through both mailboxes: what was
enqueued for it is what its actor was given, then what waits in the actor's
mailbox, then what waits in the dataflow's.  It also says where the messages
come from: those for OUT from the outside, those for LIMIT from the outside and
then from OUT of the same dataflow.
-/

namespace LightQuery

open State

/-! ## what is observed -/

/-- The payloads that the actor at an address was given. -/
def processed {σ : Type} (s : State σ) (addr : List UInt8) : List MessagePayload :=
  match s.actors.find? fun a => decide (a.address = addr) with
  | some a => a.served
  | none => []

/-- The lines that an actor printed. -/
def linesOf (cout : List (Option Nat × Line)) (i : Nat) : List Line :=
  cout.filterMap fun e => if e.1 = some i then some e.2 else none

/-- The lines of an actor that is the only one to print. -/
theorem eq_map_linesOf {cout : List (Option Nat × Line)} {i : Nat}
    (h : ∀ e ∈ cout, e.1 = some i) : cout = (linesOf cout i).map fun line => (some i, line) := by
  induction cout with
  | nil => rfl
  | cons e cout ih =>
      obtain ⟨he, hcout⟩ := List.forall_mem_cons.mp h
      have hcons : linesOf (e :: cout) i = e.2 :: linesOf cout i := by simp [linesOf, he]
      rw [hcons, List.map_cons, ← ih hcout, ← he]

theorem mem_linesOf {cout : List (Option Nat × Line)} {e : Option Nat × Line} {i : Nat}
    (he : e ∈ cout) (hi : e.1 = some i) : e.2 ∈ linesOf cout i :=
  List.mem_filterMap.mpr ⟨e, he, if_pos hi⟩

section Processed

variable {σ : Type} {s s' : State σ} {i : Nat} {a b : Actor}

theorem processed_eq (h : (s.actors.map Actor.address).Nodup) (hi : s.actors[i]? = some a) :
    processed s a.address = a.served := by
  have hmem := List.mem_of_getElem? hi
  rw [processed]
  cases hf : s.actors.find? fun b => decide (b.address = a.address) with
  | none =>
      have := List.find?_eq_none.mp hf a hmem
      simp at this
  | some b =>
      have hb : b.address = a.address := by simpa using List.find?_some hf
      rw [List.inj_on_of_nodup_map h (List.mem_of_find?_eq_some hf) hmem hb]

theorem processed_eq_nil {addr : List UInt8}
    (h : ∀ (i : Nat) (a : Actor), s.actors[i]? = some a → a.address ≠ addr) :
    processed s addr = [] := by
  have hf : s.actors.find? (fun b => decide (b.address = addr)) = none := by
    rw [List.find?_eq_none]
    intro a ha
    obtain ⟨i, hi⟩ := List.mem_iff_getElem?.mp ha
    simpa using h i a hi
  rw [processed, hf]

/-- Only the changed actor's address sees other payloads. -/
theorem processed_set (h : (s.actors.map Actor.address).Nodup) (hi : s.actors[i]? = some a)
    (hactors : s'.actors = s.actors.set i b) (haddr : b.address = a.address) (addr : List UInt8) :
    processed s' addr = if addr = a.address then b.served else processed s addr := by
  obtain ⟨hlt, hai⟩ := List.getElem?_eq_some_iff.mp hi
  have hsame : s'.actors.map Actor.address = s.actors.map Actor.address := by
    rw [hactors, List.map_set, haddr, ← hai, ← List.getElem_map Actor.address (h := by simpa),
      List.set_getElem_self]
  have hset : ∀ j, j ≠ i → s'.actors[j]? = s.actors[j]? := by
    intro j hj
    rw [hactors, List.getElem?_set_ne hj.symm]
  have hself : s'.actors[i]? = some b := by rw [hactors, List.getElem?_set_self hlt]
  split
  · next haa =>
      rw [haa, ← haddr]
      exact processed_eq (hsame ▸ h) hself
  · next hne =>
      by_cases hex : ∃ (j : Nat) (c : Actor), s.actors[j]? = some c ∧ c.address = addr
      · obtain ⟨j, c, hj, rfl⟩ := hex
        have hji : j ≠ i := by
          rintro rfl
          rw [hi] at hj
          exact hne (by cases hj; rfl)
        rw [processed_eq h hj, processed_eq (hsame ▸ h) ((hset j hji).trans hj)]
      · have hnone : ∀ (j : Nat) (c : Actor), s.actors[j]? = some c → c.address ≠ addr :=
          fun j c hj hc => hex ⟨j, c, hj, hc⟩
        rw [processed_eq_nil hnone, processed_eq_nil]
        intro j c hj
        by_cases hji : j = i
        · subst hji
          rw [hself] at hj
          cases hj
          exact haddr ▸ fun hc => hne hc.symm
        · exact hnone j c ((hset j hji).symm.trans hj)

/-- A new actor was given nothing. -/
theorem processed_append (hactors : s'.actors = s.actors ++ [a]) (hserved : a.served = [])
    (addr : List UInt8) : processed s' addr = processed s addr := by
  rw [processed, processed, hactors, List.find?_append]
  cases s.actors.find? fun a => decide (a.address = addr) with
  | some a => rfl
  | none => by_cases ha : a.address = addr <;> simp [ha, hserved]

end Processed

/-! ## the invariant -/

/-- What holds of one actor. -/
structure ActorDelivered (cfg : Config) (s : State (MapIndex Nat)) (i : Nat) (a : Actor) :
    Prop where
  form : ∃ x y, a.address = outAddr x y ∨ a.address = limitAddr x y
  serves : ∃ op, createdOp cfg.stringToUnsignedInt a.address = .ok (some op) ∧
    Serves cfg.getOutV op a.served a.op a.terminating ∧
    linesOf s.cout i = printedBy cfg.getOutV op a.served
  waiting : a.terminating = false → payloadsFor a.address s.enqueued =
    a.served ++ payloadsFor a.address a.mailbox ++ payloadsFor a.address s.mailbox
  done : a.terminating = true → a.served <+: payloadsFor a.address s.enqueued
  mailed : payloadsFor a.address s.enqueued ≠ []

/-- The operator of an actor is the one created at its address. -/
theorem ActorDelivered.of_createdOp {cfg : Config} {s : State (MapIndex Nat)} {i : Nat} {a : Actor}
    (h : ActorDelivered cfg s i a) {op : Operator}
    (hop : createdOp cfg.stringToUnsignedInt a.address = .ok (some op)) :
    Serves cfg.getOutV op a.served a.op a.terminating ∧
      linesOf s.cout i = printedBy cfg.getOutV op a.served := by
  obtain ⟨op', hop', hserves⟩ := h.serves
  rw [hop] at hop'
  obtain rfl := Option.some.inj (Except.ok.inj hop')
  exact hserves

/-- What holds of a dataflow whose mailbox held the messages `initial`. -/
structure Delivered (cfg : Config) (initial : List TagMessage) (s : State (MapIndex Nat)) :
    Prop where
  mail : ∀ m ∈ s.mailbox, m.ToOperator
  actor : ∀ i a, s.actors[i]? = some a → ActorDelivered cfg s i a
  absent : ∀ addr, (∀ (i : Nat) (a : Actor), s.actors[i]? = some a → a.address ≠ addr) →
    payloadsFor addr s.enqueued = payloadsFor addr s.mailbox
  disabled : ∀ p ∈ s.actorTree.disabled, ∃ (i : Nat) (a : Actor), s.actors[i]? = some a ∧
    a.address = p ∧ a.terminating = true
  outSource : ∀ x y, payloadsFor (outAddr x y) s.enqueued = payloadsFor (outAddr x y) initial
  limitSource : ∀ x y, payloadsFor (limitAddr x y) s.enqueued =
    payloadsFor (limitAddr x y) initial ++ payloadsFor (limitAddr x y)
      (sentBy cfg.getOutV (.out (outAt x y)) (processed s (outAddr x y)))
  lines : ∀ e ∈ s.cout, ∃ i, i < s.actors.length ∧ e.1 = some i

/-- What of an actor the invariant reads. -/
def Actor.view (a : Actor) :
    List UInt8 × Operator × List MessagePayload × List TagMessage × Bool :=
  (a.address, a.op, a.served, a.mailbox, a.terminating)

variable {cfg : Config} {initial : List TagMessage} {s s' : State (MapIndex Nat)} {i : Nat}
  {a b : Actor}

theorem delivered_start (h : ∀ m ∈ initial, m.ToOperator) :
    Delivered cfg initial (State.start MapIndex.empty initial) := by
  rw [start_eq]
  constructor <;> simp_all [MapIndex.empty, processed, sentBy]

/-- **Frame rule**: control steps do not touch what is delivered. -/
theorem Delivered.congr (h : Delivered cfg initial s)
    (hactors : s'.actors.map Actor.view = s.actors.map Actor.view)
    (hdis : s'.actorTree.disabled = s.actorTree.disabled) (hbox : s'.mailbox = s.mailbox)
    (henq : s'.enqueued = s.enqueued) (hcout : s'.cout = s.cout) : Delivered cfg initial s' := by
  have hlen : s'.actors.length = s.actors.length := by
    simpa using congrArg List.length hactors
  have hback : ∀ (j : Nat) (c : Actor), s'.actors[j]? = some c →
      ∃ d, s.actors[j]? = some d ∧ c.view = d.view := by
    intro j c hj
    have := congrArg (·[j]?) hactors
    simp only [List.getElem?_map, hj, Option.map_some] at this
    obtain ⟨d, hd, hview⟩ := Option.map_eq_some_iff.mp this.symm
    exact ⟨d, hd, hview.symm⟩
  have hforth : ∀ (j : Nat) (c : Actor), s.actors[j]? = some c →
      ∃ d, s'.actors[j]? = some d ∧ d.view = c.view := by
    intro j c hj
    have := congrArg (·[j]?) hactors
    simp only [List.getElem?_map, hj, Option.map_some] at this
    exact Option.map_eq_some_iff.mp this
  have hprocessed : ∀ addr, processed s' addr = processed s addr := by
    intro addr
    have hfind : ∀ t : State (MapIndex Nat), processed t addr =
        ((t.actors.map Actor.view).find? fun v => decide (v.1 = addr)).elim [] fun v => v.2.2.1 := by
      intro t
      rw [processed, List.find?_map]
      show _ = Option.elim (Option.map _ (t.actors.find? fun a => decide (a.address = addr))) _ _
      cases t.actors.find? fun a => decide (a.address = addr) <;> rfl
    rw [hfind, hfind, hactors]
  refine ⟨hbox ▸ h.mail, ?_, ?_, ?_, henq ▸ h.outSource, ?_, hcout ▸ hlen ▸ h.lines⟩
  · intro j c hj
    obtain ⟨d, hd, hview⟩ := hback j c hj
    simp only [Actor.view, Prod.mk.injEq] at hview
    obtain ⟨haddr, hop, hserved, hmail, hterm⟩ := hview
    have hdj := h.actor j d hd
    constructor
    · rw [haddr]; exact hdj.form
    · rw [haddr, hserved, hop, hterm, hcout]; exact hdj.serves
    · rw [haddr, hserved, hmail, hterm, henq, hbox]; exact hdj.waiting
    · rw [haddr, hserved, hterm, henq]; exact hdj.done
    · rw [haddr, henq]; exact hdj.mailed
  · intro addr hno
    rw [henq, hbox]
    refine h.absent addr fun j c hj => ?_
    obtain ⟨d, hd, hview⟩ := hforth j c hj
    have haddr : d.address = c.address := congrArg Prod.fst hview
    exact haddr ▸ hno j d hd
  · intro p hp
    obtain ⟨j, c, hj, haddr, hterm⟩ := h.disabled p (hdis ▸ hp)
    obtain ⟨d, hd, hview⟩ := hforth j c hj
    simp only [Actor.view, Prod.mk.injEq] at hview
    exact ⟨j, d, hd, hview.1.trans haddr, hview.2.2.2.2.trans hterm⟩
  · intro x y
    rw [henq, hprocessed]
    exact h.limitSource x y

/-- An actor is exchanged for one that looks the same. -/
theorem map_view_set (hi : s.actors[i]? = some a) (hview : b.view = a.view) :
    (s.actors.set i b).map Actor.view = s.actors.map Actor.view := by
  obtain ⟨hlt, rfl⟩ := List.getElem?_eq_some_iff.mp hi
  rw [List.map_set, hview, ← List.getElem_map Actor.view (h := by simpa), List.set_getElem_self]

/-! ## a message is handled -/

theorem outAddr_ne_limitAddr (x y x' y' : UInt8) : outAddr x y ≠ limitAddr x' y' := by
  simp [outAddr, limitAddr]

theorem limitAddr_inj {x y x' y' : UInt8} : limitAddr x y = limitAddr x' y' ↔
    outAddr x y = outAddr x' y' := by
  simp [outAddr, limitAddr]

/-- A message of a disabled address is dropped: its actor has stopped. -/
theorem Delivered.discard (h : Delivered cfg initial s) (hinv : Inv cfg.limitCnt [] s)
    {msg : TagMessage} {rest : List TagMessage} (hbox : s.mailbox = msg :: rest)
    (hcov : s.actorTree.Covers msg.address) : Delivered cfg initial { s with mailbox := rest } := by
  have hmsg := h.mail msg (hbox ▸ List.mem_cons_self)
  -- the disabled prefix is the address itself
  obtain ⟨p, hp, hpre⟩ := hcov
  obtain ⟨k, c, hk, rfl, hkt⟩ := h.disabled p hp
  have haddr : c.address = msg.address := hpre.eq_of_length
    ((length_of_form (h.actor k c hk).form).trans (length_of_form hmsg.address).symm)
  have hne : ∀ {addr}, addr ≠ c.address →
      payloadsFor addr s.mailbox = payloadsFor addr rest := by
    intro addr hne
    rw [hbox, payloadsFor_cons_ne fun hm => hne (by rw [haddr, hm])]
  refine { h with
    mail := fun m hm => h.mail m (hbox ▸ List.mem_cons_of_mem _ hm)
    actor := fun j d hj => ?_
    absent := fun addr hno => ?_ }
  · have hd := h.actor j d hj
    refine ⟨hd.form, hd.serves, fun ht => ?_, hd.done, hd.mailed⟩
    have hdc : d.address ≠ c.address := by
      intro hdc
      obtain rfl := hinv.eq_of_address hj hk hdc
      rw [hj] at hk
      cases hk
      rw [hkt] at ht
      cases ht
    rw [← hne hdc]
    exact hd.waiting ht
  · rw [← hne fun ha => hno k c hk ha.symm]
    exact h.absent addr hno

/-! ## one actor changes -/

theorem linesOf_append_self (cout : List (Option Nat × Line)) (i : Nat) (lines : List Line) :
    linesOf (cout ++ lines.map fun line => (some i, line)) i = linesOf cout i ++ lines := by
  simp [linesOf, List.filterMap_append, List.filterMap_map]

theorem linesOf_append_ne (cout : List (Option Nat × Line)) {i j : Nat} (h : j ≠ i)
    (lines : List Line) :
    linesOf (cout ++ lines.map fun line => (some i, line)) j = linesOf cout j := by
  simp [linesOf, List.filterMap_append, List.filterMap_map, h.symm]

/-- Messages and lines of another actor are added. -/
theorem ActorDelivered.other {j : Nat} {c : Actor} (h : ActorDelivered cfg s j c) (hji : j ≠ i)
    (sent : List TagMessage) (lines : List Line)
    (hbox : payloadsFor c.address s'.mailbox =
      payloadsFor c.address s.mailbox ++ payloadsFor c.address sent)
    (henq : s'.enqueued = s.enqueued ++ sent)
    (hcout : s'.cout = s.cout ++ lines.map fun line => (some i, line)) :
    ActorDelivered cfg s' j c := by
  refine ⟨h.form, ?_, fun ht => ?_, fun ht => ?_, ?_⟩
  · rw [hcout, linesOf_append_ne _ hji]
    exact h.serves
  · rw [henq, payloadsFor_append, h.waiting ht, hbox, List.append_assoc]
  · rw [henq, payloadsFor_append]
    exact (h.done ht).trans (List.prefix_append _ _)
  · rw [henq, payloadsFor_append]
    exact List.append_ne_nil_of_left_ne_nil h.mailed _

/-- **Change rule**: where only actor `i` changes, prints and sends, the
invariant is to be shown for it and for what it sends. -/
theorem Delivered.set (h : Delivered cfg initial s) (hinv : Inv cfg.limitCnt [] s)
    (hi : s.Holds i a) (sent : List TagMessage) (lines : List Line)
    (hactors : s'.actors = s.actors.set i b) (haddr : b.address = a.address)
    (hterm : a.terminating = true → b.terminating = true)
    (hdis : ∀ p ∈ s'.actorTree.disabled,
      p ∈ s.actorTree.disabled ∨ p = a.address ∧ b.terminating = true)
    (hmail : ∀ m ∈ s'.mailbox, m.ToOperator)
    (hbox : ∀ addr, addr ≠ a.address →
      payloadsFor addr s'.mailbox = payloadsFor addr s.mailbox ++ payloadsFor addr sent)
    (henq : s'.enqueued = s.enqueued ++ sent)
    (hcout : s'.cout = s.cout ++ lines.map fun line => (some i, line))
    (hout : ∀ x y, payloadsFor (outAddr x y) sent = [])
    (hlimit : ∀ x y, payloadsFor (limitAddr x y) (sentBy cfg.getOutV (.out (outAt x y))
        (if outAddr x y = a.address then b.served else processed s (outAddr x y))) =
      payloadsFor (limitAddr x y) (sentBy cfg.getOutV (.out (outAt x y))
        (processed s (outAddr x y))) ++ payloadsFor (limitAddr x y) sent)
    (hb : ActorDelivered cfg s' i b) : Delivered cfg initial s' := by
  have hself : s'.actors[i]? = some b := by rw [hactors, List.getElem?_set_self hi.lt]
  have hget : ∀ j, j ≠ i → s'.actors[j]? = s.actors[j]? := fun j hj => by
    rw [hactors, List.getElem?_set_ne hj.symm]
  refine ⟨hmail, ?_, ?_, ?_, ?_, ?_, ?_⟩
  · intro j c hj
    by_cases hji : j = i
    · subst hji
      rw [hself] at hj
      cases hj
      exact hb
    · have hj' : s.actors[j]? = some c := (hget j hji).symm.trans hj
      have hc := h.actor j c hj'
      have hca : c.address ≠ a.address := fun hca => hji (hinv.eq_of_address hj' hi.1 hca)
      exact hc.other hji sent lines (hbox _ hca) henq hcout
  · intro addr hno
    have hne : addr ≠ a.address := fun ha => hno i b hself (haddr.trans ha.symm)
    rw [henq, payloadsFor_append, hbox addr hne, h.absent addr]
    intro j c hj
    by_cases hji : j = i
    · subst hji
      rw [hi.1] at hj
      cases hj
      exact hne.symm
    · exact hno j c ((hget j hji).trans hj)
  · intro p hp
    rcases hdis p hp with hp | ⟨rfl, ht⟩
    · obtain ⟨j, c, hj, hcp, hct⟩ := h.disabled p hp
      by_cases hji : j = i
      · subst hji
        rw [hi.1] at hj
        cases hj
        exact ⟨j, b, hself, haddr.trans hcp, hterm hct⟩
      · exact ⟨j, c, (hget j hji).trans hj, hcp, hct⟩
    · exact ⟨i, b, hself, haddr, ht⟩
  · intro x y
    rw [henq, payloadsFor_append, hout, List.append_nil]
    exact h.outSource x y
  · intro x y
    rw [henq, payloadsFor_append, h.limitSource, List.append_assoc, ← hlimit,
      processed_set hinv.addr_nodup hi.1 hactors haddr]
  · intro e he
    rw [hcout] at he
    rcases List.mem_append.mp he with he | he
    · obtain ⟨j, hj, hej⟩ := h.lines e he
      exact ⟨j, by rwa [hactors, List.length_set], hej⟩
    · obtain ⟨line, -, rfl⟩ := List.mem_map.mp he
      exact ⟨i, by rw [hactors, List.length_set]; exact hi.lt, rfl⟩

/-- A message goes from one mailbox to the other. -/
theorem Delivered.deliver (h : Delivered cfg initial s) (hinv : Inv cfg.limitCnt [] s)
    {msg : TagMessage} {rest : List TagMessage} (hbox : s.mailbox = msg :: rest)
    (hi : s.Holds i a) (haddr : msg.address = a.address) :
    Delivered cfg initial
      ({ s with mailbox := rest }.wake i { a with mailbox := a.mailbox ++ [msg] }) := by
  have hmsg := h.mail msg (hbox ▸ List.mem_cons_self)
  obtain ⟨data, hdata⟩ := hmsg.payload
  have ha := h.actor i a hi.1
  have hserved : ∀ x y, (if outAddr x y = a.address then a.served else
      processed s (outAddr x y)) = processed s (outAddr x y) := by
    intro x y
    split
    · next hout => rw [hout, processed_eq hinv.addr_nodup hi.1]
    · rfl
  refine h.set hinv hi [] [] rfl rfl id (fun p hp => .inl hp)
    (fun m hm => h.mail m (hbox ▸ List.mem_cons_of_mem _ hm)) ?_ (by simp) (by simp) (by simp)
    (fun x y => by simp only [hserved, payloadsFor_nil, List.append_nil]) ?_
  · intro addr hne
    rw [payloadsFor_nil, List.append_nil, hbox,
      payloadsFor_cons_ne fun hm => hne (by rw [← haddr, hm])]
    rfl
  · refine ⟨ha.form, ha.serves, fun ht => ?_, ha.done, ha.mailed⟩
    have hwait := ha.waiting ht
    rw [hbox, payloadsFor_cons_self hmsg haddr hdata] at hwait
    show payloadsFor a.address s.enqueued = a.served ++ payloadsFor a.address (a.mailbox ++ [msg]) ++
      payloadsFor a.address rest
    rw [hwait, payloadsFor_append, payloadsFor_cons_self hmsg haddr hdata]
    simp

/-- **A payload is served**: the actor takes it off its mailbox and sends what
`do_work` sends; it may stop after that. -/
theorem Delivered.serve (h : Delivered cfg initial s) (hinv : Inv cfg.limitCnt [] s)
    (hi : s.Holds i a) (ht : a.terminating = false) {msg : TagMessage} {rest : List TagMessage}
    {data : MessagePayload} {w : Work Operator} (hbox : a.mailbox = msg :: rest)
    (hdata : msg.payload = some data) (hwork : a.op.doWork cfg.getOutV data = .ok w)
    (hactors : s'.actors = s.actors.set i b) (haddr : b.address = a.address) (hop : b.op = w.op)
    (hserved : b.served = a.served ++ [data])
    (hterm : b.terminating = decide (w.result = .cancelMe))
    (hmail : b.terminating = false → b.mailbox = rest)
    (hdis : ∀ p ∈ s'.actorTree.disabled,
      p ∈ s.actorTree.disabled ∨ p = a.address ∧ b.terminating = true)
    (hmbox : s'.mailbox = s.mailbox ++ w.sent) (henq : s'.enqueued = s.enqueued ++ w.sent)
    (hcout : s'.cout = s.cout ++ w.lines.map fun line => (some i, line)) :
    Delivered cfg initial s' := by
  have ha := h.actor i a hi.1
  obtain ⟨hmsg, hmsga⟩ := (hinv.actor i a hi.1).mail msg (hbox ▸ List.mem_cons_self)
  obtain ⟨-, hsent⟩ := ((hinv.actor i a hi.1).op ht List.not_mem_nil).of_doWork hwork
  obtain ⟨op, hcreated, hserves, hlines⟩ := ha.serves
  rw [ht] at hserves
  -- the messages that are sent are for LIMIT of the same dataflow
  have hto : ∀ addr, (∀ x y, a.address = outAddr x y → addr ≠ limitAddr x y) →
      payloadsFor addr w.sent = [] := by
    intro addr hne
    refine payloadsFor_eq_nil fun m hm hma => ?_
    obtain ⟨x, y, haxy, hmxy, -⟩ := hsent m hm
    exact hne x y haxy (hma.symm.trans hmxy)
  have hout : ∀ x y, payloadsFor (outAddr x y) w.sent = [] := fun x y =>
    hto _ fun x' y' _ => outAddr_ne_limitAddr x y x' y'
  have hown : payloadsFor a.address w.sent = [] :=
    hto _ fun x y hxy => hxy ▸ outAddr_ne_limitAddr x y x y
  have henqueued : payloadsFor a.address s'.enqueued =
      a.served ++ [data] ++ payloadsFor a.address rest ++ payloadsFor a.address s.mailbox := by
    rw [henq, payloadsFor_append, hown, List.append_nil, ha.waiting ht, hbox,
      payloadsFor_cons_self hmsg hmsga hdata]
    simp
  refine h.set hinv hi w.sent w.lines hactors haddr (fun hat => by rw [ht] at hat; cases hat) hdis
    ?_ ?_ henq hcout hout ?_ ?_
  · intro m hm
    rw [hmbox] at hm
    rcases List.mem_append.mp hm with hm | hm
    · exact h.mail m hm
    · obtain ⟨_, _, _, _, hmto, _⟩ := hsent m hm
      exact hmto
  · intro addr _
    rw [hmbox, payloadsFor_append]
  · intro x y
    split
    · next hxy =>
        -- what OUT sends on this payload is what is added
        have hopx : op = .out (outAt x y) := by
          rw [← hxy, createdOp_outAddr] at hcreated
          simpa using hcreated.symm
        subst hopx
        rw [hxy, processed_eq hinv.addr_nodup hi.1, hserved, hserves.sentBy_append,
          sentBy_singleton hwork, payloadsFor_append]
    · next hxy =>
        rw [hto (limitAddr x y) fun x' y' hxy' hl => hxy (hxy' ▸ limitAddr_inj.mp hl),
          List.append_nil]
  · refine ⟨haddr ▸ ha.form, ⟨op, haddr ▸ hcreated, ?_, ?_⟩, fun hbt => ?_, fun _ => ?_, ?_⟩
    · rw [hserved, hop, hterm]
      exact hserves.snoc hwork
    · rw [hcout, linesOf_append_self, hlines, hserved, hserves.printedBy_append,
        printedBy_singleton hwork]
    · rw [haddr, henqueued, hserved, hmail hbt, hmbox, payloadsFor_append, hown, List.append_nil]
    · rw [haddr, henqueued, hserved, List.append_assoc]
      exact List.prefix_append _ _
    · rw [haddr, henqueued]
      simp

/-! ## an actor is created -/

/-- An actor that is not there has printed nothing. -/
theorem Delivered.linesOf_eq_nil (h : Delivered cfg initial s) (hle : s.actors.length ≤ i) :
    linesOf s.cout i = [] := by
  rw [linesOf, List.filterMap_eq_nil_iff]
  intro e he
  obtain ⟨j, hj, hej⟩ := h.lines e he
  have : j ≠ i := by omega
  simp [hej, this]

/-- An actor with its first message. -/
theorem ActorDelivered.first {msg : TagMessage} {op : Operator} (hmsg : msg.ToOperator)
    (hop : createdOp cfg.stringToUnsignedInt msg.address = .ok (some op))
    {data : MessagePayload} (hdata : msg.payload = some data) (hlines : linesOf s.cout i = [])
    (haddr : a.address = msg.address) (haop : a.op = op) (hserved : a.served = [])
    (hterm : a.terminating = false) (hmail : a.mailbox = [msg])
    (henq : payloadsFor msg.address s.enqueued = data :: payloadsFor msg.address s.mailbox) :
    ActorDelivered cfg s i a := by
  refine ⟨haddr ▸ hmsg.address, ⟨op, haddr ▸ hop, ?_, ?_⟩, fun _ => ?_, fun ht => ?_, ?_⟩
  · rw [haop, hserved, hterm]
    exact .nil
  · rw [hlines, hserved]
    rfl
  · rw [haddr, henq, hserved, hmail, payloadsFor_cons_self hmsg rfl hdata]
    simp
  · rw [hterm] at ht
    cases ht
  · rw [haddr, henq]
    exact List.cons_ne_nil _ _

/-- The first message of an address goes to a new actor. -/
theorem Delivered.create (h : Delivered cfg initial s) (hinv : Inv cfg.limitCnt [] s)
    {msg : TagMessage} {rest : List TagMessage} (hbox : s.mailbox = msg :: rest)
    (hcov : ¬ s.actorTree.Covers msg.address) (hget : s.actorTree.get msg.address = none)
    {op : Operator} (hop : createdOp cfg.stringToUnsignedInt msg.address = .ok (some op)) :
    Delivered cfg initial (({ s with mailbox := rest }.create msg.address op).wake s.actors.length
      { address := msg.address, op := op, mailbox := [msg] }) := by
  have hmsg := h.mail msg (hbox ▸ List.mem_cons_self)
  obtain ⟨data, hdata⟩ := hmsg.payload
  have hnone : ∀ (j : Nat) (c : Actor), s.actors[j]? = some c → c.address ≠ msg.address :=
    fun j c hj => hinv.address_ne hcov hget hj
  generalize hs' : ({ s with mailbox := rest }.create msg.address op).wake s.actors.length
    { address := msg.address, op := op, mailbox := [msg] } = s'
  have hactors : s'.actors = s.actors ++
      [{ address := msg.address, op := op, mailbox := [msg], isActive := true }] := by
    rw [← hs']
    simp [State.create]
  have hold : ∀ (j : Nat) (c : Actor), s.actors[j]? = some c → s'.actors[j]? = some c := by
    intro j c hj
    rw [hactors, List.getElem?_append_left (List.getElem?_eq_some_iff.mp hj).1, hj]
  have hne : ∀ {addr}, addr ≠ msg.address →
      payloadsFor addr s.mailbox = payloadsFor addr rest := by
    intro addr hne
    rw [hbox, payloadsFor_cons_ne hne.symm]
  have hmbox : s'.mailbox = rest := by rw [← hs']; rfl
  have henq : s'.enqueued = s.enqueued := by rw [← hs']; rfl
  have hcout : s'.cout = s.cout := by rw [← hs']; rfl
  refine ⟨?_, ?_, ?_, ?_, henq ▸ h.outSource, fun x y => ?_, ?_⟩
  · exact fun m hm => h.mail m (hbox ▸ List.mem_cons_of_mem _ (hmbox ▸ hm))
  · intro j c hj
    rw [hactors] at hj
    by_cases hjn : j < s.actors.length
    · rw [List.getElem?_append_left hjn] at hj
      have hc := h.actor j c hj
      refine ⟨hc.form, hcout ▸ hc.serves, fun ht => ?_, henq ▸ hc.done, henq ▸ hc.mailed⟩
      rw [henq, hmbox, ← hne (hnone j c hj)]
      exact hc.waiting ht
    · obtain rfl : j = s.actors.length := by
        have := (List.getElem?_eq_some_iff.mp hj).1
        simp only [List.length_append, List.length_singleton] at this
        omega
      simp only [List.getElem?_concat_length, Option.some.injEq] at hj
      subst hj
      refine .first hmsg hop hdata ?_ rfl rfl rfl rfl rfl ?_
      · rw [hcout]
        exact h.linesOf_eq_nil le_rfl
      · rw [henq, hmbox, h.absent _ hnone, hbox, payloadsFor_cons_self hmsg rfl hdata]
  · intro addr hno
    have haddr : addr ≠ msg.address := fun ha =>
      hno s.actors.length _ (by rw [hactors, List.getElem?_concat_length]) ha.symm
    rw [henq, hmbox, ← hne haddr]
    exact h.absent addr fun j c hj => hno j c (hold j c hj)
  · intro p hp
    obtain ⟨j, c, hj, hcp⟩ := h.disabled p (by rw [← hs'] at hp; exact hp)
    exact ⟨j, c, hold j c hj, hcp⟩
  · rw [henq, processed_append hactors rfl]
    exact h.limitSource x y
  · intro e he
    obtain ⟨j, hj, hej⟩ := h.lines e (hcout ▸ he)
    exact ⟨j, by rw [hactors, List.length_append]; omega, hej⟩

/-! ## runs -/

/-- **Every outcome keeps what is delivered.** -/
theorem StepCase.delivered (hcase : StepCase cfg s s') (hinv : Inv cfg.limitCnt [] s)
    (h : Delivered cfg initial s) : Delivered cfg initial s' := by
  cases hcase with
  | discard msg rest _ hbox hcov =>
      exact h.discard hinv hbox (hcov (h.mail msg (hbox ▸ List.mem_cons_self)))
  | deliver msg rest i a _ hbox hmsg hi ht haddr => exact h.deliver hinv hbox hi haddr
  | create msg rest op _ hbox hmsg hcov hget hop => exact h.create hinv hbox hcov hget hop
  | cancel msg rest _ hbox hmsg =>
      have hto := (h.mail msg (hbox ▸ List.mem_cons_self)).type
      rw [hmsg] at hto
      cases hto
  | schedule => exact h.congr rfl rfl rfl rfl rfl
  | finish => exact h.congr rfl rfl rfl rfl rfl
  | poll => exact h.congr rfl rfl rfl rfl rfl
  | expire => exact h.congr rfl rfl rfl rfl rfl
  | begin i a queue count reads _ _ hi => exact h.congr (map_view_set hi.1 rfl) rfl rfl rfl rfl
  | work i a msg rest data w count reads _ hi ht hbox hdata hwork hres =>
      exact h.serve hinv hi ht hbox hdata hwork (b := worker a rest data w count) rfl rfl rfl rfl
        (by simpa [worker, hres] using ht) (fun _ => rfl) (fun p hp => .inl hp) rfl rfl rfl
  | lastWork i a msg rest data w count reads _ hi ht hbox hdata hwork hres =>
      refine h.serve hinv hi ht hbox hdata hwork (b := { worker a rest data w count with
        terminating := true, mailbox := [], isActive := true }) ?_ rfl rfl rfl (by simp [hres])
        (fun hb => by cases hb) (fun p hp => ?_) rfl rfl rfl
      · simp [State.stop, State.worked, List.set_set]
      · exact (List.mem_cons.mp hp).symm.imp_right fun hp => ⟨hp, rfl⟩
  | delete i a _ hi => exact h.congr (map_view_set hi.1 rfl) rfl rfl rfl rfl
  | idle i a _ hi => exact h.congr (map_view_set hi.1 rfl) rfl rfl rfl rfl
  | requeue i a _ hi =>
      exact h.congr (map_view_set hi.1 (b := { a with executionCount := 0, isActive := true }) rfl)
        rfl rfl rfl rfl

/-- **Exactly once and in order**: when the run returns, the payloads that an
actor was given are those enqueued for its address up to the one on which it
asked to be stopped. -/
theorem Delivered.processed_eq (h : Delivered cfg initial s) (hinv : Inv cfg.limitCnt [] s)
    (hbox : s.mailbox = []) (hidle : ∀ i a, s.Holds i a → a.mailbox = []) {addr : List UInt8}
    {op : Operator} (hop : createdOp cfg.stringToUnsignedInt addr = .ok (some op)) :
    processed s addr = untilCancel cfg.getOutV op (payloadsFor addr s.enqueued) := by
  by_cases hex : ∃ (i : Nat) (a : Actor), s.actors[i]? = some a ∧ a.address = addr
  · obtain ⟨i, a, hi, rfl⟩ := hex
    have ha := h.actor i a hi
    obtain ⟨hserves, -⟩ := ha.of_createdOp hop
    rw [LightQuery.processed_eq hinv.addr_nodup hi]
    cases ht : a.terminating with
    | true =>
        obtain ⟨rest, hrest⟩ := ha.done ht
        rw [← hrest, hserves.untilCancel_append, ht, if_pos rfl, List.append_nil]
    | false =>
        rw [ha.waiting ht, hidle i a ⟨hi, (hinv.actor i a hi).deleted_eq ht⟩, hbox]
        have := hserves.untilCancel_append []
        rw [List.append_nil, ht] at this
        simp [this, untilCancel]
  · have hnone : ∀ (i : Nat) (a : Actor), s.actors[i]? = some a → a.address ≠ addr :=
      fun i a hi ha => hex ⟨i, a, hi, ha⟩
    rw [processed_eq_nil hnone, h.absent addr hnone, hbox]
    rfl

/-- When the run returns, the actors that asked to be stopped are stopped. -/
theorem Delivered.terminating_eq (h : Delivered cfg initial s) (hbox : s.mailbox = [])
    (hi : s.actors[i]? = some a) (hidle : a.terminating = false → a.mailbox = []) {op : Operator}
    (hop : createdOp cfg.stringToUnsignedInt a.address = .ok (some op)) :
    a.terminating = cancels cfg.getOutV op (payloadsFor a.address s.enqueued) := by
  have ha := h.actor i a hi
  obtain ⟨hserves, -⟩ := ha.of_createdOp hop
  cases ht : a.terminating with
  | true =>
      obtain ⟨rest, hrest⟩ := ha.done ht
      rw [← hrest, hserves.cancels_append, ht, Bool.true_or]
  | false =>
      have := hserves.cancels_append []
      rw [ha.waiting ht, hidle ht, hbox, payloadsFor_nil, List.append_nil, this, ht]
      rfl

end LightQuery
