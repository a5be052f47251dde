import LightQuery.Dataflow.Dispatch
import LightQuery.Dataflow.Sequence

/-!
# LightQuery.Dataflow.Fed

A dataflow over the radix tree to which USER messages for operators and
CANCEL_SCOPE messages come at any time.

A step over the tree is an outcome of a step over the map, but for two things:
the actors of a cancelled scope are stopped in the tree's order, and a scope is
not disabled while the tree is empty.  So whatever every outcome keeps holds
over the tree.  The one condition on a step is that a cancellation is not misled
by a compressed path.
-/

namespace LightQuery

open State PrefixFamily

/-! ## outcomes over the tree -/

/-- A scope is disabled and its actors are stopped in some order. -/
def State.cancelIn (s : State (MapIndex Nat)) (p : List UInt8) (targets : List Nat) :
    State (MapIndex Nat) :=
  { s with actorTree := s.actorTree.disable p }.stopAll targets

/-- The outcomes of a step over the tree, seen over the map. -/
inductive TreeCase (cfg : Config) (s : State (MapIndex Nat)) : State (MapIndex Nat) → Prop
  | same (s' : State (MapIndex Nat)) (h : StepCase cfg s s') : TreeCase cfg s s'
  | cancel (msg : TagMessage) (rest : List TagMessage) (targets : List Nat)
      (hpc : s.pc = .mailbox) (hbox : s.mailbox = msg :: rest) (hmsg : msg.type = .cancelScope)
      (hlen : cfg.addrLen < msg.addrLen)
      (hperm : targets.Perm (s.actorTree.scope msg.address)) :
      TreeCase cfg s ({ s with mailbox := rest }.cancelIn msg.address targets)

section Cases

variable {cfg : Config} {s s' : State (MapIndex Nat)} {i : Nat} {a : Actor}

/-- The actors of a scope are pending in whatever order. -/
theorem Inv.disable_perm {limitCnt : UInt32} (h : Inv limitCnt [] s) {p : List UInt8}
    {targets : List Nat} (hperm : targets.Perm (s.actorTree.scope p)) :
    Inv limitCnt targets { s with actorTree := s.actorTree.disable p } :=
  (h.disable p).congr_pending (fun _ => hperm.mem_iff)
    (hperm.nodup_iff.mpr (h.disable p).pending_nodup)

/-- **Every outcome over the tree keeps the invariant.** -/
theorem TreeCase.inv (hcase : TreeCase cfg s s') (h : Inv cfg.limitCnt [] s) :
    Inv cfg.limitCnt [] s' := by
  cases hcase with
  | same s' hcase => exact hcase.inv h
  | cancel msg rest targets hpc hbox hmsg hlen hperm =>
      exact ((h.pop hbox).disable_perm hperm).stopAll.2

/-- A step that returns leaves no task. -/
theorem TreeCase.taskQueue_eq_nil (hcase : TreeCase cfg s s') (hret : Returned s') :
    s'.taskQueue = [] := by
  cases hcase with
  | same s' hcase => exact (hcase.settled hret).1
  | cancel msg rest targets hpc hbox hmsg hlen hperm =>
      have hret : (State.cancelIn { s with mailbox := rest } msg.address targets).pc = .returned :=
        hret
      rw [State.cancelIn, stopAll_pc] at hret
      rw [show s.pc = .returned from hret] at hpc
      cases hpc

/-- Every outcome over the tree lessens the work, or leaves it and lessens the
patience. -/
theorem TreeCase.lt (hcase : TreeCase cfg s s') (h : Inv cfg.limitCnt [] s) :
    s'.work cfg.getOutV < s.work cfg.getOutV ∨
      s'.work cfg.getOutV = s.work cfg.getOutV ∧ s'.patience < s.patience := by
  cases hcase with
  | same s' hcase => exact hcase.lt h
  | cancel msg rest targets hpc hbox hmsg hlen hperm =>
      left
      have hpop := work_pop cfg.getOutV hbox
      have hstop : (State.cancelIn { s with mailbox := rest } msg.address targets).work cfg.getOutV ≤
          State.work cfg.getOutV { s with mailbox := rest } :=
        work_stopAll ((h.pop hbox).disable_perm hperm) cfg.getOutV
      have hpos : 0 < handleCost cfg.getOutV msg := Nat.succ_pos _
      omega

/-- The actors after some of them have been stopped. -/
theorem getElem?_stopAll {σ : Type} (s : State σ) (is : List Nat) (j : Nat) :
    (s.stopAll is).actors[j]? = s.actors[j]?.map fun a =>
      if j ∈ is then { a with terminating := true, mailbox := [], isActive := true } else a := by
  induction is generalizing s with
  | nil => simp [State.stopAll]
  | cons i is ih =>
      rw [State.stopAll]
      cases hi : s.actors[i]? with
      | none =>
          simp only [ih]
          by_cases hji : j = i
          · simp [hji, hi]
          · simp [hji]
      | some a =>
          simp only [ih, State.stop, wake_actors]
          by_cases hji : j = i
          · subst hji
            rw [List.getElem?_set_self (List.getElem?_eq_some_iff.mp hi).1, hi]
            simp
          · rw [List.getElem?_set_ne (Ne.symm hji)]
            simp [hji]

theorem stopAll_frame {σ : Type} (s : State σ) (is : List Nat) :
    (s.stopAll is).actorTree = s.actorTree ∧ (s.stopAll is).mailbox = s.mailbox ∧
      (s.stopAll is).enqueued = s.enqueued ∧ (s.stopAll is).cout = s.cout := by
  induction is generalizing s with
  | nil => exact ⟨rfl, rfl, rfl, rfl⟩
  | cons i is ih =>
      rw [State.stopAll]
      cases s.actors[i]? with
      | none => exact ih s
      | some a => exact ih (s.stop i a)

section CancelIn

variable (s : State (MapIndex Nat)) (p : List UInt8) (targets : List Nat)

theorem getElem?_cancelIn (j : Nat) :
    (s.cancelIn p targets).actors[j]? = s.actors[j]?.map fun a =>
      if j ∈ targets then { a with terminating := true, mailbox := [], isActive := true } else a :=
  getElem?_stopAll { s with actorTree := s.actorTree.disable p } targets j

theorem cancelIn_frame : (s.cancelIn p targets).actorTree = s.actorTree.disable p ∧
    (s.cancelIn p targets).mailbox = s.mailbox ∧
    (s.cancelIn p targets).enqueued = s.enqueued ∧ (s.cancelIn p targets).cout = s.cout :=
  stopAll_frame { s with actorTree := s.actorTree.disable p } targets

/-- A cancelled scope stops its actors and leaves the others. -/
theorem aligned_cancelIn {R : Actor → Actor → Prop} (hkeep : ∀ a, R a a)
    (hstop : ∀ (j : Nat) (a : Actor), s.actors[j]? = some a → j ∈ targets →
      R a { a with terminating := true, mailbox := [], isActive := true }) :
    Aligned R s (s.cancelIn p targets) := by
  intro j
  rw [getElem?_cancelIn]
  cases hj : s.actors[j]? with
  | none => exact .none
  | some a =>
      refine .some ?_
      split
      · next hmem => exact hstop j a hj hmem
      · exact hkeep a

end CancelIn

/-- The actors of a scope are those whose addresses it covers. -/
theorem Inv.mem_scope {limitCnt : UInt32} (h : Inv limitCnt [] s) {p : List UInt8}
    (hi : s.actors[i]? = some a) (hmem : i ∈ s.actorTree.scope p) : p <+: a.address := by
  obtain ⟨addr, hp, hlive⟩ := MapIndex.mem_scope.mp hmem
  rw [((h.actor i a hi).live addr).mp hlive |>.1] at hp
  exact hp

/-- A cancelled scope drops what waits for its actors and nothing else. -/
theorem Sequenced.cancel {msgs : List TagMessage} (h : Sequenced cfg msgs s)
    (hinv : Inv cfg.limitCnt [] s) {msg : TagMessage} {rest : List TagMessage}
    (hbox : s.mailbox = msg :: rest) (hmsg : msg.type = .cancelScope)
    (hlen : cfg.addrLen < msg.addrLen) {targets : List Nat}
    (hperm : targets.Perm (s.actorTree.scope msg.address)) :
    Sequenced cfg msgs ({ s with mailbox := rest }.cancelIn msg.address targets) := by
  have hmsgs := h.scopes msg (hbox ▸ List.mem_cons_self) hmsg
  have haligned := aligned_cancelIn (R := Quiet (s.actorTree.disable msg.address).Covers)
    { s with mailbox := rest } msg.address targets (fun a => Quiet.refl _ a) fun j a hj hmem => by
      have hp := hinv.mem_scope hj (hperm.mem_iff.mp hmem)
      exact ⟨rfl, rfl, rfl, fun _ => rfl, .inl (MapIndex.covers_disable.mpr (.inl hp))⟩
  obtain ⟨htree, hmbox, henq, hcout⟩ :=
    cancelIn_frame { s with mailbox := rest } msg.address targets
  dsimp only at htree hmbox henq hcout
  generalize State.cancelIn { s with mailbox := rest } msg.address targets = s' at *
  have hpop : ∀ addr, payloadsFor addr s.mailbox = payloadsFor addr rest := by
    intro addr
    rw [hbox]
    simp [payloadsFor, hmsg]
  rw [← htree] at haligned
  refine h.quiet haligned ?_ ?_ ?_ (fun addr _ => ?_) henq hcout
  · exact fun p hp => htree ▸ List.mem_cons_of_mem _ hp
  · intro p hp
    rw [htree] at hp
    rcases List.mem_cons.mp hp with rfl | hp
    · exact .inr (mem_cancelled hmsgs hmsg hlen)
    · exact .inl hp
  · exact fun m hm => hbox ▸ List.mem_cons_of_mem _ (hmbox ▸ hm)
  · rw [hmbox, hpop]

/-- **Every outcome over the tree keeps the sequence.** -/
theorem TreeCase.sequenced {msgs : List TagMessage} (hcase : TreeCase cfg s s')
    (hinv : Inv cfg.limitCnt [] s) (h : Sequenced cfg msgs s) : Sequenced cfg msgs s' := by
  -- steps that do not touch the dataflow's mailbox, the tree or the output
  have hcontrol : ∀ t : State (MapIndex Nat), Aligned (Quiet s.actorTree.Covers) s t →
      t.actorTree = s.actorTree → t.mailbox = s.mailbox → t.enqueued = s.enqueued →
      t.cout = s.cout → Sequenced cfg msgs t := by
    intro t hactors htree hbox henq hcout
    exact h.quiet (htree ▸ hactors) (fun p hp => htree ▸ hp) (fun p hp => .inl (htree ▸ hp))
      (fun m hm => hbox ▸ hm) (fun addr _ => by rw [hbox]) henq hcout
  have hself : Aligned (Quiet s.actorTree.Covers) s s := fun j => by
    cases s.actors[j]? with
    | none => exact .none
    | some a => exact .some (.refl _ a)
  have hone : ∀ {i : Nat} {a b : Actor} {t : State (MapIndex Nat)}, s.Holds i a →
      t.actors = s.actors.set i b → Quiet s.actorTree.Covers a b →
      Aligned (Quiet s.actorTree.Covers) s t := fun hi ht hab =>
    aligned_of_set (Quiet.refl _) hi.1 ht hab
  cases hcase with
  | cancel msg rest targets hpc hbox hmsg hlen hperm => exact h.cancel hinv hbox hmsg hlen hperm
  | same s' hcase =>
      cases hcase with
      | discard msg rest _ hbox hcov =>
          refine h.quiet hself (fun p hp => hp) (fun p hp => .inl hp)
            (fun m hm => hbox ▸ List.mem_cons_of_mem _ hm) (fun addr hnot => ?_) rfl rfl
          rcases hinv.mail msg (hbox ▸ List.mem_cons_self) with hto | hscope
          · rw [hbox, payloadsFor_cons_ne]
            rintro rfl
            exact hnot (hcov hto)
          · simp [hbox, payloadsFor, hscope]
      | deliver msg rest i a _ hbox hmsg hi ht haddr => exact h.deliver hinv hbox hmsg hi ht haddr
      | create msg rest op _ hbox hmsg hcov hget hop => exact h.create hinv hbox hmsg hcov hget hop
      | cancel msg rest hpc hbox hmsg hlen => exact h.cancel hinv hbox hmsg hlen (.refl _)
      | schedule => exact hcontrol _ hself rfl rfl rfl rfl
      | finish => exact hcontrol _ hself rfl rfl rfl rfl
      | poll => exact hcontrol _ hself rfl rfl rfl rfl
      | expire => exact hcontrol _ hself rfl rfl rfl rfl
      | begin i a queue count reads _ _ hi =>
          exact hcontrol _ (hone hi rfl ⟨rfl, rfl, rfl, id, .inr rfl⟩) rfl rfl rfl rfl
      | work i a msg rest data w count reads _ hi ht hbox hdata hwork hres =>
          exact h.serve hinv hi ht hbox hdata hwork (b := worker a rest data w count) rfl rfl rfl
            rfl (fun hc => absurd hc hres) (fun _ => rfl) (fun _ hp => hp) (fun _ hp => .inl hp)
            rfl rfl rfl
      | lastWork i a msg rest data w count reads _ hi ht hbox hdata hwork hres =>
          refine h.serve hinv hi ht hbox hdata hwork (b := { worker a rest data w count with
            terminating := true, mailbox := [], isActive := true }) ?_ rfl rfl rfl (fun _ => rfl)
            (fun hnot => absurd ?_ hnot) (fun p hp => ?_) (fun p hp => ?_) rfl rfl rfl
          · simp [State.stop, State.worked, List.set_set]
          · exact MapIndex.covers_disable.mpr (.inl List.prefix_rfl)
          · exact List.mem_cons_of_mem _ hp
          · exact (List.mem_cons.mp hp).symm.imp_right fun hp => ⟨hp, hres⟩
      | delete i a _ hi =>
          exact hcontrol _ (hone hi rfl ⟨rfl, rfl, rfl, id, .inr rfl⟩) rfl rfl rfl rfl
      | idle i a _ hi =>
          exact hcontrol _ (hone hi rfl ⟨rfl, rfl, rfl, id, .inr rfl⟩) rfl rfl rfl rfl
      | requeue i a _ hi =>
          exact hcontrol _ (hone hi
            (b := { a with executionCount := 0, isActive := true }) rfl
            ⟨rfl, rfl, rfl, id, .inr rfl⟩) rfl rfl rfl rfl

end Cases

/-! ## a step over the tree -/

/-- A message that a dataflow takes: USER with a payload for OUT or LIMIT at an
address of four bytes, or CANCEL_SCOPE of a scope of at most four. -/
def Takes (msg : TagMessage) : Prop := Accepted msg ∧ msg.addrLen ≤ 4

/-- The next cancellation is not misled by a compressed path. -/
def Unmisled (cfg : Config) (s : State (ArtTree Nat)) : Prop :=
  ∀ msg rest, s.pc = .mailbox → s.mailbox = msg :: rest → msg.type = .cancelScope →
    cfg.addrLen < msg.addrLen →
    ¬ ∃ path y, Skims msg.address [] s.actorTree.root path y ∧ Misread msg.address path y

section Steps

variable {cfg : Config} {mem : Nat → UInt8} {build : Build} {t : ArtTree Nat}
  {m : State (MapIndex Nat)} {msgs : List TagMessage}

/-- The values below a scope are those of the map. -/
theorem Refines.scope_perm {i : MapIndex Nat} (h : Refines t i) {p : List UInt8}
    (hkey : ∀ b w, (b, w) ∈ i.live → loadKey b ≠ p) :
    (LightQuery.live (below (entries t.root) p)).Perm (i.scope p) := by
  have hbelow : liveEntries (below (entries t.root) p) =
      (liveEntries (entries t.root)).filter fun e => decide (p <+: e.1) :=
    liveEntries_filter (entries t.root) fun q => decide (p <+: q)
  have hfilter : (i.live.map fun e => (loadKey e.1, e.2)).filter (fun e => decide (p <+: e.1)) =
      (i.live.filter fun e => decide (p <+: e.1)).map fun e => (loadKey e.1, e.2) := by
    rw [List.filter_map]
    congr 1
    refine List.filter_congr fun e he => decide_eq_decide.mpr ?_
    exact prefix_loadKey.trans ⟨fun hp => hp.resolve_right fun heq => hkey e.1 e.2 he heq.symm, .inl⟩
  rw [live_eq_map, hbelow]
  refine ((h.live.filter _).map Prod.snd).trans ?_
  rw [hfilter, List.map_map]
  exact List.Perm.refl _

/-- The iteration over a scope visits its actors, in the tree's order. -/
theorem Refines.iterPrefixApply (mem : Nat → UInt8) (build : Build) {i : MapIndex Nat}
    (h : Refines t i) {p : List UInt8}
    (hno : ¬ ∃ path y, Skims p [] t.root path y ∧ Misread p path y)
    (hkey : ∀ b w, (b, w) ∈ i.live → loadKey b ≠ p) :
    ∃ targets, (radixIndex mem build).iterPrefixApply t p = .ok targets ∧
      targets.Perm (i.scope p) := by
  rcases h.wf with hnull | hwf
  · have hscope : i.scope p = [] := List.eq_nil_iff_forall_not_mem.mpr fun w hw => by
      obtain ⟨b, -, hb⟩ := MapIndex.mem_scope.mp hw
      exact h.root_ne_null hb hnull
    refine ⟨[], ?_, by rw [hscope]⟩
    simp [radixIndex, RadixTreeIndex.iterPrefixApply, artIterActivePrefix, hnull, iterLoop]
  · obtain ⟨targets, hrun, hperm⟩ := (iterExact_iff hwf (Nat.zero_le _)).mpr hno
    exact ⟨targets, iterLoop_of_strict _ hwf hrun, hperm.trans (h.scope_perm hkey)⟩

/-- **A cancellation over the tree**: the actors of the scope are stopped and the
scope is disabled; on an empty tree nothing happens. -/
theorem handleScopeCancellation_follows (mem : Nat → UInt8) (build : Build)
    (href : Refines t m.actorTree) (hinv : Inv cfg.limitCnt [] m) {p : List UInt8} (hne : p ≠ [])
    (hno : ¬ ∃ path y, Skims p [] t.root path y ∧ Misread p path y)
    (hkey : ∀ b w, (b, w) ∈ m.actorTree.live → ¬ loadKey b <+: p) :
    t.root = .null ∧
        handleScopeCancellation (radixIndex mem build) (m.withTree t) p = .ok (m.withTree t) ∨
      ∃ targets t', targets.Perm (m.actorTree.scope p) ∧
        handleScopeCancellation (radixIndex mem build) (m.withTree t) p =
          .ok ((m.cancelIn p targets).withTree t') ∧
        Refines t' (m.cancelIn p targets).actorTree := by
  obtain ⟨targets, hiter, hperm⟩ := href.iterPrefixApply mem build hno fun b w hb heq =>
    hkey b w hb (heq ▸ List.prefix_rfl)
  -- the callbacks run as they do over the map
  have hstop := (hinv.disable_perm hperm).stopAll.1
  have hfold : targets.foldlM stopFunc (m.withTree t) = .ok ((m.cancelIn p targets).withTree t) := by
    have hfree : targets.foldlM stopFunc (m.withTree t) =
        (targets.foldlM stopFunc { m with actorTree := m.actorTree.disable p }).map (·.withTree t) :=
      treeFree_foldlM_stopFunc targets _ _ { m with actorTree := m.actorTree.disable p } t
    rw [hfree, hstop]
    rfl
  by_cases hroot : t.root = .null
  · refine .inl ⟨hroot, ?_⟩
    have htargets : targets = [] := by
      refine List.eq_nil_iff_forall_not_mem.mpr fun w hw => ?_
      obtain ⟨b, -, hb⟩ := MapIndex.mem_scope.mp (hperm.mem_iff.mp hw)
      exact href.root_ne_null hb hroot
    have hdis : (radixIndex mem build).disable t p = .ok t := by
      simp [radixIndex, RadixTreeIndex.disable, artDisable_of_null _ _ hroot, bind, Except.bind]
    simp only [handleScopeCancellation, withTree_actorTree, hiter, htargets, List.foldlM_nil, hdis,
      bind, Except.bind, pure, Except.pure]
    rfl
  · right
    obtain ⟨t', hdis, href'⟩ := href.radix_disable mem build hne hroot hkey
    refine ⟨targets, t', hperm, ?_, ?_⟩
    · simp only [handleScopeCancellation, withTree_actorTree, hiter, hfold, hdis, bind, Except.bind]
      rfl
    · rw [State.cancelIn, (stopAll_frame _ _).1]
      exact href'

/-- A message for an operator has a four-byte address. -/
theorem addrLen_of_toOperator {msg : TagMessage} (h : msg.ToOperator) : msg.addrLen = 4 := by
  rw [← msg.length_address, length_of_form h.address]

/-- A dataflow over the tree and the same over the map: no address is longer than
four bytes. -/
structure Mapped (cfg : Config) (s : State (ArtTree Nat)) (m : State (MapIndex Nat)) : Prop where
  tree : Refines s.actorTree m.actorTree
  rest : s = m.withTree s.actorTree
  inv : Inv cfg.limitCnt [] m
  actors : ∀ a ∈ m.actors, a.address.length = 4
  marks : ∀ p ∈ m.actorTree.disabled, p.length ≤ 4
  mail : ∀ msg ∈ m.mailbox, msg.addrLen ≤ 4

namespace Mapped

variable {s : State (ArtTree Nat)}

theorem returned_iff (h : Mapped cfg s m) : Returned s ↔ Returned m := by
  rw [h.rest]
  exact Iff.rfl

/-- The actors are the same. -/
theorem holds_iff (h : Mapped cfg s m) {i : Nat} {a : Actor} : s.Holds i a ↔ m.Holds i a := by
  rw [h.rest]
  exact Iff.rfl

/-- What the tree answers is what the map answers. -/
theorem lookup_eq (h : Mapped cfg s m) (mem : Nat → UInt8) (build : Build) (addr : List UInt8) :
    (radixIndex mem build).lookup s.actorTree addr = .ok (m.actorTree.lookup addr) :=
  h.tree.lookup_eq mem addr

/-- A live address has four bytes. -/
theorem length_of_live (h : Mapped cfg s m) {addr : List UInt8} {i : Nat}
    (hi : (addr, i) ∈ m.actorTree.live) : addr.length = 4 := by
  obtain ⟨a, ha, -, rfl⟩ := h.inv.holds_of_live hi
  exact h.actors a (List.mem_of_getElem? ha.1)

/-- **Step lemma**: a step over the tree does not fault, and is an outcome over
the map. -/
theorem step (mem : Nat → UInt8) (build : Build) (h : Mapped cfg s m) (hs : ¬ Returned s)
    (hun : Unmisled cfg s) :
    ∃ s' m', LightQuery.step (radixIndex mem build) cfg s = .ok s' ∧ TreeCase cfg m m' ∧
      Refines s'.actorTree m'.actorTree ∧ s' = m'.withTree s'.actorTree := by
  have hm : ¬ Returned m := mt h.returned_iff.mpr hs
  have hdone : ∀ {t m'}, LightQuery.step (radixIndex mem build) cfg s = .ok (m'.withTree t) →
      Refines t m'.actorTree → TreeCase cfg m m' →
      ∃ s' m', LightQuery.step (radixIndex mem build) cfg s = .ok s' ∧ TreeCase cfg m m' ∧
        Refines s'.actorTree m'.actorTree ∧ s' = m'.withTree s'.actorTree :=
    fun hstep ht hcase => ⟨_, _, hstep, hcase, ht, rfl⟩
  by_cases hcancel : ∃ msg rest, m.pc = .mailbox ∧ m.mailbox = msg :: rest ∧ msg.type = .cancelScope
  · obtain ⟨msg, rest, hpc, hbox, hmsg⟩ := hcancel
    have hpc' : s.pc = .mailbox := by rw [h.rest]; exact hpc
    have hbox' : s.mailbox = msg :: rest := by rw [h.rest]; exact hbox
    have hrun : LightQuery.step (radixIndex mem build) cfg s =
        if msg.addrLen > cfg.addrLen then
          handleScopeCancellation (radixIndex mem build) { s with mailbox := rest } msg.address
        else .ok { s with mailbox := rest } := by
      rw [step_mailbox_cons hpc' hbox', handleMessage, hmsg]
    have hpop : { s with mailbox := rest } =
        State.withTree { m with mailbox := rest } s.actorTree := by
      conv_lhs => rw [h.rest]
      rfl
    have hdiscard : StepCase cfg m { m with mailbox := rest } := by
      refine .discard msg rest hpc hbox fun hto => ?_
      rw [hto.type] at hmsg
      cases hmsg
    by_cases hlen : cfg.addrLen < msg.addrLen
    · have hne : msg.address ≠ [] := by
        rw [← List.length_pos_iff, msg.length_address]
        omega
      have htakes := h.mail msg (hbox ▸ List.mem_cons_self)
      rcases handleScopeCancellation_follows (m := { m with mailbox := rest }) mem build h.tree
        (h.inv.pop hbox) hne (hun msg rest hpc' hbox' hmsg hlen) (fun b i hb hpre => by
          have := hpre.length_le
          rw [length_loadKey, h.length_of_live hb, msg.length_address] at this
          omega) with ⟨-, hnull⟩ | ⟨targets, t, hperm, hcut, ht⟩
      · have hrun' : LightQuery.step (radixIndex mem build) cfg s =
            .ok (State.withTree { m with mailbox := rest } s.actorTree) := by
          rw [hrun, if_pos hlen, hpop]
          exact hnull
        exact hdone hrun' h.tree (.same _ hdiscard)
      · refine hdone ?_ ht (.cancel msg rest targets hpc hbox hmsg hlen hperm)
        rw [hrun, if_pos hlen, hpop]
        exact hcut
    · have hrun' : LightQuery.step (radixIndex mem build) cfg s =
          .ok (State.withTree { m with mailbox := rest } s.actorTree) := by
        rw [hrun, if_neg hlen, hpop]
      exact hdone hrun' h.tree (.same _ hdiscard)
  · obtain ⟨m', hstep, hcase⟩ := step_cases h.inv hm
    have hsim : Simulates (LightQuery.step (radixIndex mem build) cfg (m.withTree s.actorTree))
        (LightQuery.step mapIndex cfg m) := by
      refine step_simulates_user h.tree (fun msg rest hpc hbox => ?_) fun i a hi hnil => ?_
      · rcases h.inv.mail msg (hbox ▸ List.mem_cons_self) with hto | hscope
        · have hlen := addrLen_of_toOperator hto
          exact ⟨hto.type, fun b i hb => (h.length_of_live hb).trans hlen.symm,
            fun p hp => hlen ▸ h.marks p hp⟩
        · exact absurd ⟨msg, rest, hpc, hbox, hscope⟩ hcancel
      · have hlen := h.actors a (List.mem_of_getElem? hi)
        rw [hnil] at hlen
        cases hlen
    obtain ⟨t, hrun, ht⟩ := hsim m' hstep
    rw [← h.rest] at hrun
    exact hdone hrun ht (.same _ hcase)

/-- A message arrives. -/
theorem rest_enqueue (h : Mapped cfg s m) (msg : TagMessage) :
    s.enqueMessage msg = (m.enqueMessage msg).withTree s.actorTree := by
  conv_lhs => rw [h.rest]
  rfl

/-- `run_and_dispose` is called again. -/
theorem rest_call (h : Mapped cfg s m) :
    { s with pc := .mailbox } = State.withTree { m with pc := .mailbox } s.actorTree := by
  conv_lhs => rw [h.rest]
  rfl

end Mapped

/-- What is known over the map of a dataflow over the tree that was given the
messages `msgs`. -/
structure Tracked (cfg : Config) (msgs : List TagMessage) (s : State (ArtTree Nat))
    (m : State (MapIndex Nat)) : Prop extends Mapped cfg s m where
  sequenced : Sequenced cfg msgs m
  takes : ∀ msg ∈ msgs, Takes msg

/-- The lengths are those of the messages. -/
theorem Mapped.of_sequenced {s : State (ArtTree Nat)} (htree : Refines s.actorTree m.actorTree)
    (hrest : s = m.withTree s.actorTree) (hinv : Inv cfg.limitCnt [] m)
    (h : Sequenced cfg msgs m) (htakes : ∀ msg ∈ msgs, Takes msg) : Mapped cfg s m where
  tree := htree
  rest := hrest
  inv := hinv
  actors a ha := by
    obtain ⟨i, hi⟩ := List.mem_iff_getElem?.mp ha
    exact length_of_form (h.worked i a hi).form
  marks p hp := by
    rcases h.cause p hp with hp | ⟨a, ha, rfl, -⟩
    · obtain ⟨msg, hmsg, hscope⟩ := List.mem_filterMap.mp hp
      split at hscope
      · cases hscope
        rw [msg.length_address]
        exact (htakes msg hmsg).2
      · cases hscope
    · obtain ⟨i, hi⟩ := List.mem_iff_getElem?.mp ha
      exact (length_of_form (h.worked i a hi).form).le
  mail msg hmsg := by
    rcases hinv.mail msg hmsg with hto | hscope
    · exact (addrLen_of_toOperator hto).le
    · exact (htakes msg (h.scopes msg hmsg hscope)).2

namespace Tracked

variable {s : State (ArtTree Nat)}

theorem init : Tracked cfg [] { actorTree := ArtTree.init } { actorTree := MapIndex.empty } where
  tree := refines_init
  rest := rfl
  inv := inv_start fun m (hm : m ∈ []) => absurd hm List.not_mem_nil
  actors _ ha := absurd ha List.not_mem_nil
  marks _ hp := absurd hp List.not_mem_nil
  mail _ hmsg := absurd hmsg List.not_mem_nil
  sequenced := sequenced_init
  takes _ hmsg := absurd hmsg List.not_mem_nil

/-- A step over the tree is an outcome over the map. -/
theorem step (mem : Nat → UInt8) (build : Build) (h : Tracked cfg msgs s m) (hs : ¬ Returned s)
    (hun : Unmisled cfg s) :
    ∃ s' m', LightQuery.step (radixIndex mem build) cfg s = .ok s' ∧ TreeCase cfg m m' ∧
      Tracked cfg msgs s' m' := by
  obtain ⟨s', m', hstep, hcase, htree, hrest⟩ := h.toMapped.step mem build hs hun
  have hseq := hcase.sequenced h.inv h.sequenced
  exact ⟨s', m', hstep, hcase, .of_sequenced htree hrest (hcase.inv h.inv) hseq h.takes, hseq,
    h.takes⟩

/-- A message arrives. -/
theorem enqueue (h : Tracked cfg msgs s m) {msg : TagMessage} (hmsg : Takes msg) :
    Tracked cfg (msgs ++ [msg]) (s.enqueMessage msg) (m.enqueMessage msg) := by
  have htakes : ∀ m' ∈ msgs ++ [msg], Takes m' := by
    intro m' hm
    rcases List.mem_append.mp hm with hm | hm
    · exact h.takes m' hm
    · exact List.mem_singleton.mp hm ▸ hmsg
  have hinv : Inv cfg.limitCnt [] (m.enqueMessage msg) := by
    refine h.inv.congr rfl rfl rfl (fun _ => Iff.rfl) (fun m' hm => ?_) rfl
    rcases List.mem_append.mp hm with hm | hm
    · exact h.inv.mail m' hm
    · exact List.mem_singleton.mp hm ▸ hmsg.1
  have hseq := h.sequenced.enqueue msg
  exact ⟨.of_sequenced h.tree (h.rest_enqueue msg) hinv hseq htakes, hseq, htakes⟩

/-- `run_and_dispose` is called again. -/
theorem call (h : Tracked cfg msgs s m) (hs : Returned s) :
    Tracked cfg msgs { s with pc := .mailbox } { m with pc := .mailbox } where
  tree := h.tree
  rest := h.rest_call
  inv := by
    have hpc : m.pc = .returned := h.returned_iff.mp hs
    exact h.inv.congr rfl rfl rfl (by simp [hpc]) h.inv.mail rfl
  actors := h.actors
  marks := h.marks
  mail := h.mail
  sequenced := { h.sequenced with }
  takes := h.takes

end Tracked

end Steps

/-! ## runs -/

/-- A dataflow that was given the messages `msgs`, each at any time, and took
any number of steps; stray reads return anything, and no cancellation is
misled. -/
inductive Fed (build : Build) (cfg : Config) : List TagMessage → State (ArtTree Nat) → Prop
  | init : Fed build cfg [] { actorTree := ArtTree.init }
  | enqueue {msgs : List TagMessage} {s : State (ArtTree Nat)} (h : Fed build cfg msgs s)
      (msg : TagMessage) (hmsg : Takes msg) : Fed build cfg (msgs ++ [msg]) (s.enqueMessage msg)
  | step {msgs : List TagMessage} {s s' : State (ArtTree Nat)} (h : Fed build cfg msgs s)
      (mem : Nat → UInt8) (hs : ¬ Returned s) (hun : Unmisled cfg s)
      (hstep : step (radixIndex mem build) cfg s = .ok s') : Fed build cfg msgs s'
  | call {msgs : List TagMessage} {s : State (ArtTree Nat)} (h : Fed build cfg msgs s)
      (hs : Returned s) : Fed build cfg msgs { s with pc := .mailbox }

section Runs

variable {cfg : Config} {build : Build} {msgs : List TagMessage} {s s' : State (ArtTree Nat)}

/-- **Run lemma**: a dataflow that is fed is tracked over the map. -/
theorem Fed.tracked (h : Fed build cfg msgs s) : ∃ m, Tracked cfg msgs s m := by
  induction h with
  | init => exact ⟨_, .init⟩
  | enqueue h msg hmsg ih =>
      obtain ⟨m, hm⟩ := ih
      exact ⟨_, hm.enqueue hmsg⟩
  | step h mem hs hun hstep ih =>
      obtain ⟨m, hm⟩ := ih
      obtain ⟨t, m', hrun, -, hm'⟩ := hm.step mem build hs hun
      rw [hstep] at hrun
      cases hrun
      exact ⟨m', hm'⟩
  | call h hs ih =>
      obtain ⟨m, hm⟩ := ih
      exact ⟨_, hm.call hs⟩

/-- A step that returned has left no task. -/
theorem Fed.taskQueue_eq_nil (h : Fed build cfg msgs s) (hs : Returned s) : s.taskQueue = [] := by
  induction h with
  | init => cases hs
  | enqueue h msg hmsg ih => exact ih hs
  | step h mem hret hun hstep ih =>
      obtain ⟨m, hm⟩ := h.tracked
      obtain ⟨s', m', hrun, hcase, hm'⟩ := hm.step mem build hret hun
      rw [hstep] at hrun
      cases hrun
      have hqueue := hcase.taskQueue_eq_nil (hm'.returned_iff.mp hs)
      rw [hm'.rest]
      exact hqueue
  | call h hret ih => cases hs

/-- A cancellation is not misled where the tree is empty, or holds a key or a mark
that is comparable with the scope. -/
theorem Fed.unmisled (h : Fed build cfg msgs s)
    (hcmp : ∀ msg rest, s.mailbox = msg :: rest → msg.type = .cancelScope →
      s.actorTree.root = .null ∨
        ∃ e ∈ entries s.actorTree.root, msg.address <+: e.1 ∨ e.1 <+: msg.address) :
    Unmisled cfg s := by
  obtain ⟨m, hm⟩ := h.tracked
  intro msg rest _ hbox hmsg _
  rcases hm.tree.wf with hnull | hwf
  · rw [hnull]
    rintro ⟨path, y, hs, hmis⟩
    cases hs
    exact hmis
  · rcases hcmp msg rest hbox hmsg with hnull | ⟨e, he, hcmp⟩
    · rw [hnull] at hwf
      cases hwf
    · exact not_misread_of_comparable hwf he hcmp

/-! ## runs by evaluation -/

/-- The run stops where it returns and before a cancellation. -/
def Stops (s : State (ArtTree Nat)) : Prop :=
  Returned s ∨ s.mailbox.head?.map TagMessage.type = some .cancelScope

instance : DecidablePred Stops := fun _ => inferInstanceAs (Decidable (_ ∨ _))

/-- At most `n` steps up to the next cancellation. -/
def runFor (cfg : Config) (n : Nat) (s : State (ArtTree Nat)) : State (ArtTree Nat) :=
  match Machine.iterate Stops (step (radixIndex (fun _ => 0) .sse2) cfg) n s with
  | .ok s' => s'
  | .error _ => s

/-- One step. -/
def stepOnce (cfg : Config) (s : State (ArtTree Nat)) : State (ArtTree Nat) :=
  match step (radixIndex (fun _ => 0) .sse2) cfg s with
  | .ok s' => s'
  | .error _ => s

theorem Fed.runFor (h : Fed .sse2 cfg msgs s) (n : Nat) :
    Fed .sse2 cfg msgs (runFor cfg n s) := by
  unfold LightQuery.runFor
  split
  · next s' hrun =>
      refine (Machine.steps_of_iterate hrun).invariant h fun a b ha hab => ?_
      obtain ⟨hret, hhead⟩ := not_or.mp hab.1
      refine ha.step _ hret (fun msg rest _ hbox hmsg => absurd ?_ hhead) hab.2
      rw [hbox, List.head?_cons, Option.map_some, hmsg]
  · exact h

theorem Fed.stepOnce (h : Fed .sse2 cfg msgs s) (hs : ¬ Returned s) (hun : Unmisled cfg s) :
    Fed .sse2 cfg msgs (stepOnce cfg s) := by
  unfold LightQuery.stepOnce
  split
  · next s' hrun => exact h.step _ hs hun hrun
  · exact h

end Runs

end LightQuery
