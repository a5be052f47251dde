import LightQuery.Dataflow.Query
import LightQuery.Lib.Merge

/-!
# LightQuery.Dataflow.Sequence

What becomes of the payloads for an address when messages arrive and scopes are
cancelled at any time.

`Sequenced` follows them from the dataflow's mailbox through the actor's to
`do_work`.  It reads the state by addresses: an address that is not disabled has
lost nothing, and no address was given anything out of order.  A step over the
radix tree is an outcome of a step over the map, but for the order in which the
actors of a cancelled scope are stopped.
-/

namespace LightQuery

open State

/-! ## the actor at an address -/

section ActorAt

variable {σ τ : Type} {s : State σ} {s' : State τ} {i : Nat} {a b : Actor} {addr : List UInt8}

/-- The actor at an address. -/
def actorAt (s : State σ) (addr : List UInt8) : Option Actor :=
  s.actors.find? fun a => decide (a.address = addr)

/-- The payloads that wait in the mailbox of the actor at an address. -/
def waitingAt (s : State σ) (addr : List UInt8) : List MessagePayload :=
  match actorAt s addr with
  | some a => payloadsFor addr a.mailbox
  | none => []

theorem processed_of_actorAt (h : actorAt s addr = some a) : processed s addr = a.served := by
  unfold actorAt at h
  simp [processed, h]

theorem processed_of_none (h : actorAt s addr = none) : processed s addr = [] := by
  unfold actorAt at h
  simp [processed, h]

theorem waitingAt_of_actorAt (h : actorAt s addr = some a) :
    waitingAt s addr = payloadsFor addr a.mailbox := by
  simp [waitingAt, h]

theorem waitingAt_of_none (h : actorAt s addr = none) : waitingAt s addr = [] := by
  simp [waitingAt, h]

/-- The actor at an address is one of the actors. -/
theorem exists_of_actorAt (h : actorAt s addr = some a) :
    a.address = addr ∧ ∃ i : Nat, s.actors[i]? = some a := by
  have hmem := List.mem_iff_getElem?.mp (List.mem_of_find?_eq_some h)
  exact ⟨by simpa using List.find?_some h, hmem⟩

theorem actorAt_eq_none (h : ∀ a ∈ s.actors, a.address ≠ addr) : actorAt s addr = none := by
  simpa [actorAt] using h

/-- An actor is the one at its address. -/
theorem actorAt_address (h : (s.actors.map Actor.address).Nodup) (hi : s.actors[i]? = some a) :
    actorAt s a.address = some a := by
  have hmem := List.mem_of_getElem? hi
  cases hf : actorAt s a.address with
  | none =>
      have := List.find?_eq_none.mp hf a hmem
      simp at this
  | some b =>
      have hb := exists_of_actorAt hf
      rw [List.inj_on_of_nodup_map h (List.mem_of_find?_eq_some hf) hmem hb.1]

/-- The actors at the addresses after one of them has changed. -/
theorem actorAt_set (h : (s.actors.map Actor.address).Nodup) (hi : s.actors[i]? = some a)
    (hactors : s'.actors = s.actors.set i b) (haddr : b.address = a.address) (addr : List UInt8) :
    actorAt s' addr = if addr = a.address then some b else actorAt s addr := by
  obtain ⟨hlt, hai⟩ := List.getElem?_eq_some_iff.mp hi
  have hsame : s'.actors.map Actor.address = s.actors.map Actor.address := by
    rw [hactors, List.map_set, haddr, ← hai, ← List.getElem_map Actor.address (h := by simpa),
      List.set_getElem_self]
  have hself : s'.actors[i]? = some b := by rw [hactors, List.getElem?_set_self hlt]
  have hother : ∀ j, j ≠ i → s'.actors[j]? = s.actors[j]? := by
    intro j hj
    rw [hactors, List.getElem?_set_ne hj.symm]
  by_cases haa : addr = a.address
  · rw [if_pos haa, haa, ← haddr]
    exact actorAt_address (hsame ▸ h) hself
  · rw [if_neg haa]
    cases hs : actorAt s addr with
    | some c =>
        obtain ⟨hc, j, hj⟩ := exists_of_actorAt hs
        have hji : j ≠ i := by
          rintro rfl
          rw [hi] at hj
          cases hj
          exact haa hc.symm
        rw [← hc]
        exact actorAt_address (hsame ▸ h) ((hother j hji).trans hj)
    | none =>
        refine actorAt_eq_none fun c hc hca => ?_
        have hmem : addr ∈ s.actors.map Actor.address := by
          rw [← hsame, ← hca]
          exact List.mem_map_of_mem hc
        obtain ⟨d, hd, hda⟩ := List.mem_map.mp hmem
        have := List.find?_eq_none.mp hs d hd
        simp [hda] at this

/-- The actors at the addresses after one has been created. -/
theorem actorAt_append (hactors : s'.actors = s.actors ++ [b])
    (hnew : ∀ a ∈ s.actors, a.address ≠ b.address) (addr : List UInt8) :
    actorAt s' addr = if addr = b.address then some b else actorAt s addr := by
  rw [actorAt, hactors, List.find?_append]
  by_cases hb : addr = b.address
  · subst hb
    have hnone : s.actors.find? (fun a => decide (a.address = b.address)) = none :=
      actorAt_eq_none hnew
    simp [hnone]
  · rw [if_neg hb, actorAt]
    cases s.actors.find? fun a => decide (a.address = addr) with
    | some a => rfl
    | none => simp [Ne.symm hb]

/-- The actors of one state stand for those of the other, place by place. -/
def Aligned (R : Actor → Actor → Prop) (s : State σ) (s' : State τ) : Prop :=
  ∀ i : Nat, Option.Rel R s.actors[i]? s'.actors[i]?

variable {R : Actor → Actor → Prop}

theorem rel_cases {x y : Option Actor} (h : Option.Rel R x y) :
    x = none ∧ y = none ∨ ∃ a b, x = some a ∧ y = some b ∧ R a b := by
  cases h with
  | none => exact .inl ⟨rfl, rfl⟩
  | some hab => exact .inr ⟨_, _, rfl, rfl, hab⟩

theorem aligned_of_set (hrefl : ∀ c, R c c) (hi : s.actors[i]? = some a)
    (hactors : s'.actors = s.actors.set i b) (hab : R a b) : Aligned R s s' := by
  intro j
  rw [hactors]
  by_cases hji : j = i
  · rw [hji, List.getElem?_set_self (List.getElem?_eq_some_iff.mp hi).1, hi]
    exact .some hab
  · rw [List.getElem?_set_ne (Ne.symm hji)]
    cases s.actors[j]? with
    | none => exact .none
    | some c => exact .some (hrefl c)

theorem Aligned.exists_right (h : Aligned R s s') (hi : s.actors[i]? = some a) :
    ∃ b, s'.actors[i]? = some b ∧ R a b := by
  rcases rel_cases (h i) with ⟨hs, -⟩ | ⟨c, b, hs, hs', hcb⟩
  · rw [hs] at hi
    cases hi
  · rw [hs] at hi
    cases hi
    exact ⟨b, hs', hcb⟩

theorem Aligned.exists_left (h : Aligned R s s') (hi : s'.actors[i]? = some b) :
    ∃ a, s.actors[i]? = some a ∧ R a b := by
  rcases rel_cases (h i) with ⟨-, hs'⟩ | ⟨a, c, hs, hs', hac⟩
  · rw [hs'] at hi
    cases hi
  · rw [hs'] at hi
    cases hi
    exact ⟨a, hs, hac⟩

/-- Actors that stand for each other are at the same address. -/
theorem Aligned.actorAt (h : Aligned R s s') (hR : ∀ a b, R a b → b.address = a.address)
    (addr : List UInt8) : Option.Rel R (actorAt s addr) (LightQuery.actorAt s' addr) := by
  unfold LightQuery.actorAt
  have h : ∀ i : Nat, Option.Rel R s.actors[i]? s'.actors[i]? := h
  generalize s.actors = as at h
  generalize s'.actors = bs at h
  induction as generalizing bs with
  | nil =>
      cases bs with
      | nil => exact .none
      | cons b bs => cases h 0
  | cons a as ih =>
      cases bs with
      | nil => cases h 0
      | cons b bs =>
          have hab : R a b := by
            cases h 0 with
            | some hab => exact hab
          have hrest := ih bs fun i => h (i + 1)
          by_cases ha : a.address = addr
          · simpa [ha, hR a b hab] using Option.Rel.some hab
          · simpa [ha, hR a b hab] using hrest

end ActorAt

/-! ## the invariant -/

/-- The scopes that the messages cancel. -/
def cancelled (cfg : Config) (msgs : List TagMessage) : List (List UInt8) :=
  msgs.filterMap fun msg =>
    if msg.type = .cancelScope ∧ cfg.addrLen < msg.addrLen then some msg.address else none

theorem mem_cancelled {cfg : Config} {msgs : List TagMessage} {msg : TagMessage} (h : msg ∈ msgs)
    (htype : msg.type = .cancelScope) (hlen : cfg.addrLen < msg.addrLen) :
    msg.address ∈ cancelled cfg msgs :=
  List.mem_filterMap.mpr ⟨msg, h, if_pos ⟨htype, hlen⟩⟩

/-- An operator that has asked to be stopped has done so whatever follows. -/
theorem cancels_append_of {getOutV : GetOutV} {op : Operator} {datas : List MessagePayload}
    (h : cancels getOutV op datas = true) (rest : List MessagePayload) :
    cancels getOutV op (datas ++ rest) = true := by
  induction datas generalizing op with
  | nil => cases h
  | cons data datas ih =>
      rw [List.cons_append, cancels]
      rw [cancels] at h
      cases hwork : op.doWork getOutV data with
      | error e => simp [hwork] at h
      | ok w =>
          simp only [hwork, Bool.or_eq_true] at h ⊢
          exact h.imp_right ih

/-- What an actor has done with the payloads that it was given. -/
structure Worked (cfg : Config) (cout : List (Option Nat × Line)) (i : Nat) (a : Actor) :
    Prop where
  form : ∃ x y, a.address = outAddr x y ∨ a.address = limitAddr x y
  serves : ∃ op stopped, createdOp cfg.stringToUnsignedInt a.address = .ok (some op) ∧
    Serves cfg.getOutV op a.served a.op stopped ∧ (stopped = true → a.terminating = true) ∧
    linesOf cout i = printedBy cfg.getOutV op a.served

/-- The operator at an address has asked to be stopped. -/
def Asked (cfg : Config) (s : State (MapIndex Nat)) (addr : List UInt8) : Prop :=
  ∃ a ∈ s.actors, a.address = addr ∧ ∃ op,
    createdOp cfg.stringToUnsignedInt addr = .ok (some op) ∧
      cancels cfg.getOutV op a.served = true

/-- An operator that has asked to be stopped has done so whatever it is given. -/
theorem Asked.mono {cfg : Config} {s s' : State (MapIndex Nat)} {addr : List UInt8}
    (h : Asked cfg s addr) (hkeep : ∀ (j : Nat) (a : Actor), s.actors[j]? = some a →
      ∃ b, s'.actors[j]? = some b ∧ b.address = a.address ∧ a.served <+: b.served) :
    Asked cfg s' addr := by
  obtain ⟨a, ha, haddr, op, hop, hcancels⟩ := h
  obtain ⟨j, hj⟩ := List.mem_iff_getElem?.mp ha
  obtain ⟨b, hb, hba, rest, hrest⟩ := hkeep j a hj
  exact ⟨b, List.mem_of_getElem? hb, hba.trans haddr, op, hop,
    hrest ▸ cancels_append_of hcancels rest⟩

/-- What is not disabled was not. -/
theorem not_covers_mono {m m' : MapIndex Nat} {addr : List UInt8} (h : ¬ m'.Covers addr)
    (hdis : ∀ p ∈ m.disabled, p ∈ m'.disabled) : ¬ m.Covers addr := by
  rintro ⟨p, hp, hpre⟩
  exact h ⟨p, hdis p hp, hpre⟩

/-- What holds of a dataflow that was given the messages `msgs`. -/
structure Sequenced (cfg : Config) (msgs : List TagMessage) (s : State (MapIndex Nat)) :
    Prop where
  scopes : ∀ m ∈ s.mailbox, m.type = .cancelScope → m ∈ msgs
  worked : ∀ i a, s.actors[i]? = some a → Worked cfg s.cout i a
  /-- an address is disabled for a cancelled scope, or its operator asked for it -/
  cause : ∀ p ∈ s.actorTree.disabled, p ∈ cancelled cfg msgs ∨ Asked cfg s p
  /-- nothing is lost of what is not disabled -/
  flow : ∀ addr, ¬ s.actorTree.Covers addr → payloadsFor addr s.enqueued =
    processed s addr ++ waitingAt s addr ++ payloadsFor addr s.mailbox
  served : ∀ addr, processed s addr <+: payloadsFor addr s.enqueued
  outSource : ∀ x y, payloadsFor (outAddr x y) s.enqueued = payloadsFor (outAddr x y) msgs
  limitSource : ∀ x y, Merge (payloadsFor (limitAddr x y) msgs)
    (payloadsFor (limitAddr x y) (sentBy cfg.getOutV (.out (outAt x y))
      (processed s (outAddr x y)))) (payloadsFor (limitAddr x y) s.enqueued)
  lines : ∀ e ∈ s.cout, ∃ i, i < s.actors.length ∧ e.1 = some i

section Rules

variable {cfg : Config} {msgs : List TagMessage} {s s' : State (MapIndex Nat)} {i : Nat}
  {a b : Actor}

theorem sequenced_init : Sequenced cfg [] { actorTree := MapIndex.empty } := by
  constructor <;> simp [MapIndex.empty, processed, waitingAt, actorAt, sentBy, Merge.nil]

/-- A message arrives. -/
theorem Sequenced.enqueue (h : Sequenced cfg msgs s) (msg : TagMessage) :
    Sequenced cfg (msgs ++ [msg]) (s.enqueMessage msg) where
  scopes m hm hc := by
    rcases List.mem_append.mp hm with hm | hm
    · exact List.mem_append_left _ (h.scopes m hm hc)
    · exact List.mem_append_right _ hm
  worked := h.worked
  cause p hp := by
    refine (h.cause p hp).imp_left fun hc => ?_
    rw [cancelled, List.filterMap_append]
    exact List.mem_append_left _ hc
  flow addr hcov := by
    show payloadsFor addr (s.enqueued ++ [msg]) =
      processed s addr ++ waitingAt s addr ++ payloadsFor addr (s.mailbox ++ [msg])
    rw [payloadsFor_append, payloadsFor_append, h.flow addr hcov, List.append_assoc]
  served addr := by
    show processed s addr <+: payloadsFor addr (s.enqueued ++ [msg])
    rw [payloadsFor_append]
    exact (h.served addr).trans (List.prefix_append _ _)
  outSource x y := by
    show payloadsFor _ (s.enqueued ++ [msg]) = _
    rw [payloadsFor_append, payloadsFor_append, h.outSource]
  limitSource x y := by
    show Merge _ _ (payloadsFor _ (s.enqueued ++ [msg]))
    rw [payloadsFor_append, payloadsFor_append]
    exact (h.limitSource x y).append_left _
  lines := h.lines

/-! ## nothing is served -/

/-- What the second actor was given is what the first one was, and its mailbox
is another one only where its address is disabled. -/
structure Quiet (covered : List UInt8 → Prop) (a b : Actor) : Prop where
  address : b.address = a.address
  served : b.served = a.served
  op : b.op = a.op
  stays : a.terminating = true → b.terminating = true
  mailbox : covered a.address ∨ b.mailbox = a.mailbox

theorem Quiet.refl (covered : List UInt8 → Prop) (a : Actor) : Quiet covered a a :=
  ⟨rfl, rfl, rfl, id, .inr rfl⟩

section Aligned

variable {covered : List UInt8 → Prop} (h : Aligned (Quiet covered) s s') (addr : List UInt8)
include h

theorem Aligned.processed : processed s' addr = processed s addr := by
  rcases rel_cases (h.actorAt (fun _ _ hab => hab.address) addr) with
    ⟨hs, hs'⟩ | ⟨a, b, hs, hs', hab⟩
  · rw [processed_of_none hs, processed_of_none hs']
  · rw [processed_of_actorAt hs, processed_of_actorAt hs', hab.served]

theorem Aligned.waitingAt (hcov : ¬ covered addr) :
    LightQuery.waitingAt s' addr = LightQuery.waitingAt s addr := by
  rcases rel_cases (h.actorAt (fun _ _ hab => hab.address) addr) with
    ⟨hs, hs'⟩ | ⟨a, b, hs, hs', hab⟩
  · rw [waitingAt_of_none hs, waitingAt_of_none hs']
  · have hbox := hab.mailbox.resolve_left ((exists_of_actorAt hs).1 ▸ hcov)
    rw [waitingAt_of_actorAt hs, waitingAt_of_actorAt hs', hbox]

end Aligned

/-- **Quiet rule**: a step that serves nothing, enqueues nothing and prints
nothing, and drops only what is disabled. -/
theorem Sequenced.quiet (h : Sequenced cfg msgs s)
    (hactors : Aligned (Quiet s'.actorTree.Covers) s s')
    (hdis : ∀ p ∈ s.actorTree.disabled, p ∈ s'.actorTree.disabled)
    (hnew : ∀ p ∈ s'.actorTree.disabled, p ∈ s.actorTree.disabled ∨ p ∈ cancelled cfg msgs)
    (hmem : ∀ m ∈ s'.mailbox, m ∈ s.mailbox)
    (hbox : ∀ addr, ¬ s'.actorTree.Covers addr →
      payloadsFor addr s'.mailbox = payloadsFor addr s.mailbox)
    (henq : s'.enqueued = s.enqueued) (hcout : s'.cout = s.cout) : Sequenced cfg msgs s' := by
  constructor
  · exact fun m hm => h.scopes m (hmem m hm)
  · intro i b hi
    obtain ⟨a, ha, hab⟩ := hactors.exists_left hi
    obtain ⟨hform, op, stopped, hop, hserves, hstop, hlines⟩ := h.worked i a ha
    rw [← hab.address] at hform hop
    rw [← hab.served, ← hab.op] at hserves
    rw [← hab.served, ← hcout] at hlines
    exact ⟨hform, op, stopped, hop, hserves, fun hs => hab.stays (hstop hs), hlines⟩
  · intro p hp
    rcases hnew p hp with hp | hp
    · refine (h.cause p hp).imp_right fun hasked => hasked.mono fun j a ha => ?_
      obtain ⟨b, hb, hab⟩ := hactors.exists_right ha
      exact ⟨b, hb, hab.address, by rw [hab.served]⟩
    · exact .inl hp
  · intro addr hcov
    rw [henq, h.flow addr (not_covers_mono hcov hdis), hactors.processed,
      hactors.waitingAt addr hcov, hbox addr hcov]
  · intro addr
    rw [henq, hactors.processed]
    exact h.served addr
  · exact henq ▸ h.outSource
  · intro x y
    rw [henq, hactors.processed]
    exact h.limitSource x y
  · intro e he
    obtain ⟨i, hi, hei⟩ := h.lines e (hcout ▸ he)
    obtain ⟨b, hb, -⟩ := hactors.exists_right (List.getElem?_eq_getElem hi)
    exact ⟨i, (List.getElem?_eq_some_iff.mp hb).1, hei⟩

/-! ## one actor changes -/

/-- **Change rule**: where only actor `i` changes, prints and sends, the
invariant is to be shown for it and for what it sends. -/
theorem Sequenced.set (h : Sequenced cfg msgs s) (hinv : Inv cfg.limitCnt [] s)
    (hi : s.Holds i a) (sent : List TagMessage) (lines : List Line)
    (hactors : s'.actors = s.actors.set i b) (haddr : b.address = a.address)
    (hdis : ∀ p ∈ s.actorTree.disabled, p ∈ s'.actorTree.disabled)
    (hnew : ∀ p ∈ s'.actorTree.disabled, p ∈ s.actorTree.disabled ∨ p = a.address ∧
      ∃ op, createdOp cfg.stringToUnsignedInt p = .ok (some op) ∧
        cancels cfg.getOutV op b.served = true)
    (hgrow : a.served <+: b.served)
    (hmem : ∀ m ∈ s'.mailbox, m ∈ s.mailbox ∨ m.type = .user)
    (hbox : ∀ addr, addr ≠ a.address →
      payloadsFor addr s'.mailbox = payloadsFor addr s.mailbox ++ payloadsFor addr sent)
    (henq : s'.enqueued = s.enqueued ++ sent)
    (hcout : s'.cout = s.cout ++ lines.map fun line => (some i, line))
    (hout : ∀ x y, payloadsFor (outAddr x y) sent = [])
    (hlimit : ∀ x y, payloadsFor (limitAddr x y) (sentBy cfg.getOutV (.out (outAt x y))
        (if outAddr x y = a.address then b.served else processed s (outAddr x y))) =
      payloadsFor (limitAddr x y) (sentBy cfg.getOutV (.out (outAt x y))
        (processed s (outAddr x y))) ++ payloadsFor (limitAddr x y) sent)
    (hworked : Worked cfg s'.cout i b)
    (hflow : ¬ s'.actorTree.Covers a.address → payloadsFor a.address s'.enqueued =
      b.served ++ payloadsFor a.address b.mailbox ++ payloadsFor a.address s'.mailbox)
    (hserved : b.served <+: payloadsFor a.address s'.enqueued) : Sequenced cfg msgs s' := by
  have hat := actorAt_set hinv.addr_nodup hi.1 hactors haddr
  have hprocessed : ∀ addr, processed s' addr =
      if addr = a.address then b.served else processed s addr :=
    processed_set hinv.addr_nodup hi.1 hactors haddr
  have hget : ∀ j, j ≠ i → s'.actors[j]? = s.actors[j]? := fun j hj => by
    rw [hactors, List.getElem?_set_ne hj.symm]
  have hself : s'.actors[i]? = some b := by rw [hactors, List.getElem?_set_self hi.lt]
  constructor
  · intro m hm hc
    rcases hmem m hm with hm | hu
    · exact h.scopes m hm hc
    · rw [hu] at hc
      cases hc
  · intro j c hj
    by_cases hji : j = i
    · rw [hji, hself] at hj
      cases hj
      exact hji ▸ hworked
    · rw [hget j hji] at hj
      obtain ⟨hform, op, stopped, hop, hserves, hstop, hlines⟩ := h.worked j c hj
      refine ⟨hform, op, stopped, hop, hserves, hstop, ?_⟩
      rw [hcout, linesOf_append_ne _ hji]
      exact hlines
  · intro p hp
    rcases hnew p hp with hp | ⟨rfl, hasked⟩
    · refine (h.cause p hp).imp_right fun hasked => hasked.mono fun j c hj => ?_
      by_cases hji : j = i
      · rw [hji, hi.1] at hj
        cases hj
        exact ⟨b, hji ▸ hself, haddr, hgrow⟩
      · exact ⟨c, (hget j hji).trans hj, rfl, List.prefix_rfl⟩
    · exact .inr ⟨b, List.mem_of_getElem? hself, haddr, hasked⟩
  · intro addr hcov
    by_cases haa : addr = a.address
    · have hab : LightQuery.actorAt s' addr = some b := by rw [hat, if_pos haa]
      rw [processed_of_actorAt hab, waitingAt_of_actorAt hab, haa]
      exact hflow (haa ▸ hcov)
    · have hold := not_covers_mono hcov hdis
      have hwait : waitingAt s' addr = waitingAt s addr := by
        unfold waitingAt
        rw [hat, if_neg haa]
      rw [henq, payloadsFor_append, h.flow addr hold, hprocessed, if_neg haa, hwait, hbox addr haa]
      simp
  · intro addr
    rw [hprocessed]
    split
    · next haa =>
        rw [haa]
        exact hserved
    · rw [henq, payloadsFor_append]
      exact (h.served addr).trans (List.prefix_append _ _)
  · intro x y
    rw [henq, payloadsFor_append, hout, List.append_nil]
    exact h.outSource x y
  · intro x y
    rw [henq, payloadsFor_append, hprocessed, hlimit]
    exact (h.limitSource x y).append_right _
  · intro e he
    rw [hcout] at he
    rcases List.mem_append.mp he with he | he
    · obtain ⟨j, hj, hej⟩ := h.lines e he
      exact ⟨j, by rwa [hactors, List.length_set], hej⟩
    · obtain ⟨line, -, rfl⟩ := List.mem_map.mp he
      exact ⟨i, by rw [hactors, List.length_set]; exact hi.lt, rfl⟩

/-- A live actor's address is not disabled, and nothing for it is lost. -/
theorem Sequenced.flow_live (h : Sequenced cfg msgs s) (hinv : Inv cfg.limitCnt [] s)
    (hi : s.Holds i a) (ht : a.terminating = false) : ¬ s.actorTree.Covers a.address ∧
      payloadsFor a.address s.enqueued =
        a.served ++ payloadsFor a.address a.mailbox ++ payloadsFor a.address s.mailbox := by
  have hlive := ((hinv.actor i a hi.1).live a.address).mpr ⟨rfl, ht, List.not_mem_nil⟩
  have hcov := hinv.uncovered _ _ hlive
  have hat := actorAt_address hinv.addr_nodup hi.1
  refine ⟨hcov, ?_⟩
  rw [h.flow _ hcov, processed_of_actorAt hat, waitingAt_of_actorAt hat]

/-- A message goes from one mailbox to the other. -/
theorem Sequenced.deliver (h : Sequenced cfg msgs s) (hinv : Inv cfg.limitCnt [] s)
    {msg : TagMessage} {rest : List TagMessage} (hbox : s.mailbox = msg :: rest)
    (hmsg : msg.ToOperator) (hi : s.Holds i a) (ht : a.terminating = false)
    (haddr : msg.address = a.address) :
    Sequenced cfg msgs
      ({ s with mailbox := rest }.wake i { a with mailbox := a.mailbox ++ [msg] }) := by
  obtain ⟨data, hdata⟩ := hmsg.payload
  obtain ⟨-, hflow⟩ := h.flow_live hinv hi ht
  have hsame : ∀ x y, (if outAddr x y = a.address then a.served else
      processed s (outAddr x y)) = processed s (outAddr x y) := by
    intro x y
    split
    · next hout => rw [hout, processed_eq hinv.addr_nodup hi.1]
    · rfl
  refine h.set hinv hi [] [] rfl rfl (fun _ hp => hp) (fun p hp => .inl hp) List.prefix_rfl
    (fun m hm => .inl (hbox ▸ List.mem_cons_of_mem _ hm)) ?_ (by simp) (by simp) (by simp)
    (fun x y => by simp only [hsame, payloadsFor_nil, List.append_nil]) ?_ (fun _ => ?_) ?_
  · intro addr hne
    rw [payloadsFor_nil, List.append_nil, hbox,
      payloadsFor_cons_ne fun hm => hne (by rw [← haddr, hm])]
    rfl
  · obtain ⟨hform, hserves⟩ := h.worked i a hi.1
    exact ⟨hform, hserves⟩
  · show payloadsFor a.address s.enqueued = a.served ++ payloadsFor a.address (a.mailbox ++ [msg]) ++
      payloadsFor a.address rest
    rw [hflow, hbox, payloadsFor_append, payloadsFor_cons_self hmsg haddr hdata,
      payloadsFor_cons_self hmsg haddr hdata]
    simp
  · show a.served <+: payloadsFor a.address s.enqueued
    rw [hflow, List.append_assoc]
    exact List.prefix_append _ _

/-- What an operator sends is for LIMIT of the same dataflow. -/
theorem OperatorAt.payloadsFor_sent {limitCnt : UInt32} {addr : List UInt8} {op : Operator}
    (h : OperatorAt limitCnt addr op) {getOutV : GetOutV} {data : MessagePayload}
    {w : Work Operator} (hwork : op.doWork getOutV data = .ok w) {addr' : List UInt8}
    (hne : ∀ x y, addr = outAddr x y → addr' ≠ limitAddr x y) : payloadsFor addr' w.sent = [] := by
  refine payloadsFor_eq_nil fun m hm hma => ?_
  obtain ⟨x, y, haxy, hmxy, -⟩ := (h.of_doWork hwork).2 m hm
  exact hne x y haxy (hma.symm.trans hmxy)

/-- **A payload is served.** -/
theorem Sequenced.serve (h : Sequenced cfg msgs s) (hinv : Inv cfg.limitCnt [] s)
    (hi : s.Holds i a) (ht : a.terminating = false) {msg : TagMessage} {rest : List TagMessage}
    {data : MessagePayload} {w : Work Operator} (hbox : a.mailbox = msg :: rest)
    (hdata : msg.payload = some data) (hwork : a.op.doWork cfg.getOutV data = .ok w)
    (hactors : s'.actors = s.actors.set i b) (haddr : b.address = a.address) (hop : b.op = w.op)
    (hserved : b.served = a.served ++ [data])
    (hterm : w.result = .cancelMe → b.terminating = true)
    (hmail : ¬ s'.actorTree.Covers a.address → b.mailbox = rest)
    (hdis : ∀ p ∈ s.actorTree.disabled, p ∈ s'.actorTree.disabled)
    (hnew : ∀ p ∈ s'.actorTree.disabled,
      p ∈ s.actorTree.disabled ∨ p = a.address ∧ w.result = .cancelMe)
    (hmbox : s'.mailbox = s.mailbox ++ w.sent) (henq : s'.enqueued = s.enqueued ++ w.sent)
    (hcout : s'.cout = s.cout ++ w.lines.map fun line => (some i, line)) :
    Sequenced cfg msgs s' := by
  obtain ⟨hmsg, hmsga⟩ := (hinv.actor i a hi.1).mail msg (hbox ▸ List.mem_cons_self)
  have hat := (hinv.actor i a hi.1).op ht List.not_mem_nil
  obtain ⟨-, hflow⟩ := h.flow_live hinv hi ht
  obtain ⟨hform, op, stopped, hcreated, hserves, hstop, hlines⟩ := h.worked i a hi.1
  -- the operator has not asked to be stopped before
  obtain rfl : stopped = false := Bool.eq_false_iff.mpr fun hs => by
    rw [hstop hs] at ht
    cases ht
  have hown : payloadsFor a.address w.sent = [] :=
    hat.payloadsFor_sent hwork fun x y hxy => hxy ▸ outAddr_ne_limitAddr x y x y
  have henqueued : payloadsFor a.address s'.enqueued =
      a.served ++ [data] ++ payloadsFor a.address rest ++ payloadsFor a.address s.mailbox := by
    rw [henq, payloadsFor_append, hown, List.append_nil, hflow, hbox,
      payloadsFor_cons_self hmsg hmsga hdata]
    simp
  refine h.set hinv hi w.sent w.lines hactors haddr hdis ?_ (hserved ▸ List.prefix_append _ _) ?_
    ?_ henq hcout ?_ ?_ ?_ ?_ ?_
  · intro p hp
    rcases hnew p hp with hp | ⟨rfl, hres⟩
    · exact .inl hp
    · refine .inr ⟨rfl, op, hcreated, ?_⟩
      rw [hserved, hserves.cancels_append, cancels, hwork]
      simp [hres]
  · intro m hm
    rw [hmbox] at hm
    rcases List.mem_append.mp hm with hm | hm
    · exact .inl hm
    · obtain ⟨_, _, _, _, hmto, _⟩ := (hat.of_doWork hwork).2 m hm
      exact .inr hmto.type
  · intro addr _
    rw [hmbox, payloadsFor_append]
  · exact fun x y => hat.payloadsFor_sent hwork fun x' y' _ => outAddr_ne_limitAddr x y x' y'
  · intro x y
    split
    · next hxy =>
        -- what OUT sends on this payload is what is added
        have hopx : op = .out (outAt x y) := by
          rw [← hxy, createdOp_outAddr] at hcreated
          simpa using hcreated.symm
        subst hopx
        rw [hxy, processed_eq hinv.addr_nodup hi.1, hserved, hserves.sentBy_append,
          sentBy_singleton hwork, payloadsFor_append]
    · next hxy =>
        rw [hat.payloadsFor_sent hwork fun x' y' hxy' hl => hxy (hxy' ▸ limitAddr_inj.mp hl),
          List.append_nil]
  · refine ⟨haddr ▸ hform, op, decide (w.result = .cancelMe), haddr ▸ hcreated, ?_,
      fun hs => hterm (of_decide_eq_true hs), ?_⟩
    · rw [hserved, hop]
      exact hserves.snoc hwork
    · rw [hcout, linesOf_append_self, hlines, hserved, hserves.printedBy_append,
        printedBy_singleton hwork]
  · intro hcov
    rw [henqueued, hserved, hmail hcov, hmbox, payloadsFor_append, hown, List.append_nil]
  · rw [henqueued, hserved, List.append_assoc]
    exact List.prefix_append _ _

/-! ## an actor is created -/

/-- An actor that is not there has printed nothing. -/
theorem Sequenced.linesOf_eq_nil (h : Sequenced cfg msgs s) (hle : s.actors.length ≤ i) :
    linesOf s.cout i = [] := by
  rw [linesOf, List.filterMap_eq_nil_iff]
  intro e he
  obtain ⟨j, hj, hej⟩ := h.lines e he
  have : j ≠ i := by omega
  simp [hej, this]

/-- The first message of an address goes to a new actor. -/
theorem Sequenced.create (h : Sequenced cfg msgs s) (hinv : Inv cfg.limitCnt [] s)
    {msg : TagMessage} {rest : List TagMessage} (hbox : s.mailbox = msg :: rest)
    (hmsg : msg.ToOperator) (hcov : ¬ s.actorTree.Covers msg.address)
    (hget : s.actorTree.get msg.address = none) {op : Operator}
    (hop : createdOp cfg.stringToUnsignedInt msg.address = .ok (some op)) :
    Sequenced cfg msgs (({ s with mailbox := rest }.create msg.address op).wake s.actors.length
      { address := msg.address, op := op, mailbox := [msg] }) := by
  obtain ⟨data, hdata⟩ := hmsg.payload
  have hnone : ∀ a ∈ s.actors, a.address ≠ msg.address := by
    intro a ha
    obtain ⟨j, hj⟩ := List.mem_iff_getElem?.mp ha
    exact hinv.address_ne hcov hget hj
  let b : Actor := { address := msg.address, op := op, mailbox := [msg], isActive := true }
  generalize hs' : ({ s with mailbox := rest }.create msg.address op).wake s.actors.length
    { address := msg.address, op := op, mailbox := [msg] } = s'
  have hactors : s'.actors = s.actors ++ [b] := by
    rw [← hs']
    simp [State.create, b]
  have hat := actorAt_append hactors hnone
  have hold : ∀ (j : Nat) (c : Actor), s.actors[j]? = some c → s'.actors[j]? = some c := by
    intro j c hj
    rw [hactors, List.getElem?_append_left (List.getElem?_eq_some_iff.mp hj).1, hj]
  have hmbox : s'.mailbox = rest := by rw [← hs']; rfl
  have henq : s'.enqueued = s.enqueued := by rw [← hs']; rfl
  have hcout : s'.cout = s.cout := by rw [← hs']; rfl
  have htree : s'.actorTree.disabled = s.actorTree.disabled := by rw [← hs']; rfl
  have hprocessed : ∀ addr, processed s' addr = processed s addr := processed_append hactors rfl
  constructor
  · exact fun m hm => h.scopes m (hbox ▸ List.mem_cons_of_mem _ (hmbox ▸ hm))
  · intro j c hj
    rw [hactors] at hj
    by_cases hjn : j < s.actors.length
    · rw [List.getElem?_append_left hjn] at hj
      rw [hcout]
      exact h.worked j c hj
    · obtain rfl : j = s.actors.length := by
        have := (List.getElem?_eq_some_iff.mp hj).1
        simp only [List.length_append, List.length_singleton] at this
        omega
      simp only [List.getElem?_concat_length, Option.some.injEq] at hj
      subst hj
      refine ⟨hmsg.address, op, false, hop, .nil, by simp, ?_⟩
      rw [hcout, h.linesOf_eq_nil le_rfl]
      rfl
  · intro p hp
    refine (h.cause p (htree ▸ hp)).imp_right fun hasked => hasked.mono fun j c hj => ?_
    exact ⟨c, hold j c hj, rfl, List.prefix_rfl⟩
  · intro addr hcov'
    have hopen := not_covers_mono hcov' fun p hp => htree ▸ hp
    rw [henq, h.flow addr hopen, hprocessed, hmbox, hbox]
    by_cases haddr : addr = msg.address
    · have hb : LightQuery.actorAt s' addr = some b := by rw [hat, if_pos haddr]
      have hs : LightQuery.actorAt s addr = none := haddr ▸ actorAt_eq_none hnone
      rw [waitingAt_of_actorAt hb, waitingAt_of_none hs, haddr,
        payloadsFor_cons_self hmsg rfl hdata]
      simp [b, payloadsFor_cons_self hmsg rfl hdata]
    · have hwait : waitingAt s' addr = waitingAt s addr := by
        unfold waitingAt
        rw [hat, if_neg haddr]
      rw [hwait, payloadsFor_cons_ne (Ne.symm haddr)]
  · intro addr
    rw [henq, hprocessed]
    exact h.served addr
  · exact henq ▸ h.outSource
  · intro x y
    rw [henq, hprocessed]
    exact h.limitSource x y
  · intro e he
    obtain ⟨j, hj, hej⟩ := h.lines e (hcout ▸ he)
    exact ⟨j, by rw [hactors, List.length_append]; omega, hej⟩

end Rules

end LightQuery
