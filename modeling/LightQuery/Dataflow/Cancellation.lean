import LightQuery.Dataflow.Simulation
import LightQuery.Dataflow.Schedule

/-!
# LightQuery.Dataflow.Cancellation

A cancelled scope stays cancelled.

Messages of any type, with any address, may come in at any time.  `Grows` says
what a step may do to the tree: the prefixes that are disabled stay so.  Every
step keeps it that is `Orderly`; the cancellation of a scope in an empty tree
is not, for `art_disable` leaves no mark there.
-/

namespace LightQuery

open State PrefixFamily Relation

/-! ## the tree -/

/-- Whatever is disabled stays disabled. -/
def Grows (t t' : ArtTree Nat) : Prop :=
  ∀ m, Refines t m → ∃ m', Refines t' m' ∧ ∀ p ∈ m.disabled, p ∈ m'.disabled

theorem Grows.refl (t : ArtTree Nat) : Grows t t := fun m h => ⟨m, h, fun _ hp => hp⟩

theorem Grows.trans {t t' t'' : ArtTree Nat} (h : Grows t t') (h' : Grows t' t'') :
    Grows t t'' := by
  intro m hm
  obtain ⟨m', hm', hdis⟩ := h m hm
  obtain ⟨m'', hm'', hdis'⟩ := h' m' hm'
  exact ⟨m'', hm'', fun p hp => hdis' p (hdis p hp)⟩

theorem TreeFree.grows {f : ∀ σ : Type, State σ → Except Fault (State σ)} (hf : TreeFree f)
    {s s' : State (ArtTree Nat)} (h : f _ s = .ok s') : Grows s.actorTree s'.actorTree := by
  rw [hf.actorTree_eq h]
  exact .refl _

variable {cfg : Config} {mem : Nat → UInt8} {build : Build}

/-- The stored keys and the marks of a tree let a USER message in: it finds its
actor, or a mark above its address, or nothing that is comparable with its key. -/
def Admits (t : ArtTree Nat) (addr : List UInt8) : Prop :=
  ∀ e ∈ entries t.root, Incomparable e.1 (loadKey addr) ∨
    e.1 = loadKey addr ∧ e.2.isSome ∨ e.1 <+: addr ∧ e.2 = none

/-- A scope can be cancelled: the tree is not empty and stores no key that is a
proper prefix of the scope's. -/
def Cancels (t : ArtTree Nat) (p : List UInt8) : Prop :=
  t.root ≠ .null ∧ ∀ q v, (q, some v) ∈ entries t.root → q <+: p → q = p

/-- An address that is absent can be stored. -/
theorem Admits.insert_grows {t t' : ArtTree Nat} {addr : List UInt8} {child : Nat}
    (h : Admits t addr) {o : Option Nat}
    (hlook : (radixIndex mem build).lookup t addr = .ok (0, o))
    (hins : (radixIndex mem build).insert t addr child = .ok t') : Grows t t' := by
  intro m hm
  have hmap : m.lookup addr = (0, o) := Except.ok.inj ((hm.lookup_eq mem addr).symm.trans hlook)
  obtain ⟨hcov, hget⟩ := MapIndex.of_lookup_eq_zero hmap
  have hinc : ∀ e ∈ entries t.root, Incomparable e.1 (loadKey addr) := by
    rintro ⟨q, v⟩ he
    rcases h _ he with hinc | ⟨rfl, hv⟩ | ⟨hq, rfl⟩
    · exact hinc
    · obtain ⟨v, rfl⟩ := Option.isSome_iff_exists.mp hv
      exact absurd (hm.mem_live_iff.mpr he) (MapIndex.get_eq_none_iff.mp hget v)
    · exact absurd (hm.covers_iff.mpr ⟨q, he, hq⟩) hcov
  obtain ⟨t'', hrun, href⟩ := hm.radix_insert mem build child
    (fun b w hb => .inr (hinc _ (hm.mem_live_iff.mp hb))) fun p hp => by
      obtain ⟨q, hq, hqp⟩ := hm.cover p hp
      exact ((hinc _ hq).symm.extend hqp).symm
  obtain rfl : t' = t'' := Except.ok.inj (hins.symm.trans hrun)
  exact ⟨_, href, fun p hp => hp⟩

/-- A scope that is cancelled is disabled. -/
theorem Cancels.disable {t t' : ArtTree Nat} {p : List UInt8} (h : Cancels t p)
    (hin : ReadsInside [] p t.root) (hdis : (radixIndex mem build).disable t p = .ok t')
    {m : MapIndex Nat} (hm : Refines t m) :
    ∃ m', Refines t' m' ∧ p ∈ m'.disabled ∧ ∀ q ∈ m.disabled, q ∈ m'.disabled := by
  obtain ⟨t'', ret, hrun, href, -⟩ := hm.cut_spec (Past.lenient mem) build h.1 hin
    fun b w hb => h.2 _ w (hm.mem_live_iff.mp hb)
  have hsame : (radixIndex mem build).disable t p = .ok t'' := by
    simp only [radixIndex, hrun, bind, Except.bind]
  obtain rfl : t' = t'' := Except.ok.inj (hdis.symm.trans hsame)
  exact ⟨_, href, List.mem_cons_self, fun q hq => List.mem_cons_of_mem _ hq⟩

/-- The address of a stored actor can be disabled. -/
theorem cancels_of_lookup {t : ArtTree Nat} {addr : List UInt8} {c : Int} {child : Nat}
    (hlook : (radixIndex mem build).lookup t addr = .ok (c, some child)) {m : MapIndex Nat}
    (hm : Refines t m) : Cancels t addr := by
  have hmap : m.lookup addr = (c, some child) :=
    Except.ok.inj ((hm.lookup_eq mem addr).symm.trans hlook)
  have hlive := hm.functional.get_eq_some_iff.mp (MapIndex.get_of_lookup hmap)
  exact ⟨hm.root_ne_null hlive, fun q v hq hqa => absurd hqa (hm.not_prefix_of_live hlive hq)⟩

/-! ## the steps -/

section Steps

variable {s s' : State (ArtTree Nat)} {child : Nat}

theorem handleUser_grows {msg : TagMessage} (hadm : Admits s.actorTree msg.address)
    (h : handleUser (radixIndex mem build) cfg s msg = .ok s') :
    Grows s.actorTree s'.actorTree := by
  simp only [handleUser, bind, Except.bind] at h
  cases hlook : (radixIndex mem build).lookup s.actorTree msg.address with
  | error e => simp [hlook] at h
  | ok r =>
      obtain ⟨search, childPtr⟩ := r
      simp only [hlook] at h
      split at h
      · split at h
        · exact (treeFree_deliver _ msg).grows h
        · cases h
      · split at h
        · next hzero =>
            subst hzero
            rcases hcode : dummyInsertSimple.get (fun i => msg.addrs (i + 1)) 0 with e | _ | code
            · simp [hcode] at h
            · simp [hcode] at h
            · simp only [hcode] at h
              rcases hop : newOperator cfg.stringToUnsignedInt msg.address code with e | _ | op
              · simp [hop] at h
              · simp [hop] at h
              · simp only [hop] at h
                cases hins : (radixIndex mem build).insert s.actorTree msg.address
                    s.actors.length with
                | error e => simp [hins] at h
                | ok t =>
                    simp only [hins] at h
                    exact (hadm.insert_grows hlook hins).trans ((treeFree_deliver _ msg).grows h)
        · split at h
          · cases h
            exact .refl _
          · cases h

/-- A cancelled scope is disabled. -/
theorem handleScopeCancellation_grows {p : List UInt8} (hne : p ≠ [])
    (hc : Cancels s.actorTree p)
    (h : handleScopeCancellation (radixIndex mem build) s p = .ok s') {m : MapIndex Nat}
    (hm : Refines s.actorTree m) : ∃ m', Refines s'.actorTree m' ∧ p ∈ m'.disabled ∧
      ∀ q ∈ m.disabled, q ∈ m'.disabled := by
  simp only [handleScopeCancellation, bind, Except.bind] at h
  cases htargets : (radixIndex mem build).iterPrefixApply s.actorTree p with
  | error e => simp [htargets] at h
  | ok targets =>
      simp only [htargets] at h
      cases hfold : targets.foldlM stopFunc s with
      | error e => simp [hfold] at h
      | ok s₁ =>
          have htree : s₁.actorTree = s.actorTree :=
            (treeFree_foldlM_stopFunc targets).actorTree_eq hfold
          simp only [hfold, htree] at h
          cases hdis : (radixIndex mem build).disable s.actorTree p with
          | error e => simp [hdis] at h
          | ok t =>
              simp only [hdis] at h
              cases h
              exact hc.disable (readsInside_of_ne_nil hne _) hdis hm

theorem handleChildTermination_grows {addr : List UInt8}
    (hin : ReadsInside [] addr s.actorTree.root)
    (h : handleChildTermination (radixIndex mem build) s addr = .ok s') :
    Grows s.actorTree s'.actorTree := by
  simp only [handleChildTermination, bind, Except.bind] at h
  cases hlook : (radixIndex mem build).lookup s.actorTree addr with
  | error e => simp [hlook] at h
  | ok r =>
      obtain ⟨search, childPtr⟩ := r
      simp only [hlook] at h
      split at h
      · cases h
        exact .refl _
      · split at h
        · cases h
        · split at h
          · cases h
          · next child =>
              cases hdis : (radixIndex mem build).disable s.actorTree addr with
              | error e => simp [hdis] at h
              | ok t =>
                  simp only [hdis] at h
                  refine .trans (fun m hm => ?_) ((treeFree_handleStopFromParent child).grows h)
                  obtain ⟨m', href, -, hkeep⟩ :=
                    (cancels_of_lookup hlook hm).disable hin hdis hm
                  exact ⟨m', href, hkeep⟩

theorem runMessage_grows {msg : TagMessage}
    (hin : ∀ a, s.deref child = .ok a → ReadsInside [] a.address s.actorTree.root)
    (h : runMessage (radixIndex mem build) cfg s child msg = .ok s') :
    Grows s.actorTree s'.actorTree := by
  simp only [runMessage, bind, Except.bind] at h
  cases ha : s.deref child with
  | error e => simp [ha] at h
  | ok a =>
      simp only [ha] at h
      split at h
      · split at h
        · split at h
          · cases h
            exact .refl _
          · cases h
        · next data _ =>
            cases hwork : a.op.doWork cfg.getOutV data with
            | error e => simp [hwork] at h
            | ok w =>
                simp only [hwork] at h
                have htree : (applyWork s child a data w).actorTree = s.actorTree :=
                  applyWork_actorTree s child a data w
                split at h
                · have hgrow := handleChildTermination_grows (htree ▸ hin a ha) h
                  rwa [htree] at hgrow
                · cases h
                  rw [htree]
                  exact .refl _
      · cases hterm : handleChildTermination (radixIndex mem build) s a.address with
        | error e => simp [hterm] at h
        | ok s₁ =>
            simp only [hterm] at h
            exact (handleChildTermination_grows (hin a ha) hterm).trans
              ((treeFree_finishRun child).grows h)
      · cases h
        exact .refl _

theorem runChild_grows
    (hin : ∀ a, s.deref child = .ok a → ReadsInside [] a.address s.actorTree.root)
    (h : runChild (radixIndex mem build) cfg s child = .ok s') :
    Grows s.actorTree s'.actorTree := by
  simp only [runChild, bind, Except.bind] at h
  cases ha : s.deref child with
  | error e => simp [ha] at h
  | ok a =>
      simp only [ha] at h
      split at h
      · exact (treeFree_finishRun child).grows h
      · split at h
        · refine runMessage_grows (s := State.put { s with clockReads := _ } child _)
            (fun b hb => ?_) h
          rw [eq_of_deref_put hb]
          exact hin a ha
        · exact (treeFree_finishRun child).grows
            (s := State.put { s with clockReads := _ } child _) h

end Steps

/-! ## runs -/

/-- The next step is orderly: the tree lets a USER message in, a scope that is
cancelled can be, and a running actor may be disabled without a read past its
address. -/
structure Orderly (cfg : Config) (s : State (ArtTree Nat)) : Prop where
  user : ∀ msg rest, s.pc = .mailbox → s.mailbox = msg :: rest → msg.type = .user →
    Admits s.actorTree msg.address
  cancel : ∀ msg rest, s.pc = .mailbox → s.mailbox = msg :: rest → msg.type = .cancelScope →
    cfg.addrLen < msg.addrLen → Cancels s.actorTree msg.address
  running : ∀ child a, s.pc = .running child → s.actors[child]? = some a →
    ReadsInside [] a.address s.actorTree.root

/-- What happens to a dataflow whose steps are orderly: any messages come in at
any time, and stray reads return anything. -/
def OrderlyMove (build : Build) (cfg : Config) (s s' : State (ArtTree Nat)) : Prop :=
  ∃ mem, Move (radixIndex mem build) cfg (fun _ => True) (Orderly cfg) s s'

variable {s s' s'' : State (ArtTree Nat)} {msg : TagMessage} {rest : List TagMessage}

/-- The cancellation of a scope disables it. -/
theorem step_cancel (hs : Orderly cfg s) (hpc : s.pc = .mailbox) (hbox : s.mailbox = msg :: rest)
    (hmsg : msg.type = .cancelScope) (hlen : cfg.addrLen < msg.addrLen)
    (h : step (radixIndex mem build) cfg s = .ok s') {m : MapIndex Nat}
    (hm : Refines s.actorTree m) : ∃ m', Refines s'.actorTree m' ∧ msg.address ∈ m'.disabled ∧
      ∀ q ∈ m.disabled, q ∈ m'.disabled := by
  have hne : msg.address ≠ [] := by
    rw [← List.length_pos_iff, msg.length_address]
    omega
  rw [step_mailbox_cons hpc hbox, handleMessage, hmsg] at h
  simp only [gt_iff_lt, hlen, if_true] at h
  exact handleScopeCancellation_grows (s := { s with mailbox := rest }) hne
    (hs.cancel msg rest hpc hbox hmsg hlen) h hm

/-- **Step lemma**: what is disabled stays disabled. -/
theorem step_grows (hs : Orderly cfg s) (h : step (radixIndex mem build) cfg s = .ok s') :
    Grows s.actorTree s'.actorTree := by
  cases hpc : s.pc with
  | mailbox =>
      cases hbox : s.mailbox with
      | nil =>
          rw [step_mailbox_nil hpc hbox] at h
          cases h
          exact .refl _
      | cons msg rest =>
          cases hmsg : msg.type with
          | user =>
              rw [step_mailbox_cons hpc hbox, handleMessage, hmsg] at h
              exact handleUser_grows (s := { s with mailbox := rest })
                (hs.user msg rest hpc hbox hmsg) h
          | cancelScope =>
              by_cases hlen : cfg.addrLen < msg.addrLen
              · intro m hm
                obtain ⟨m', href, -, hkeep⟩ := step_cancel hs hpc hbox hmsg hlen h hm
                exact ⟨m', href, hkeep⟩
              · rw [step_mailbox_cons hpc hbox, handleMessage, hmsg] at h
                simp only [gt_iff_lt, hlen, if_false] at h
                cases h
                exact .refl _
          | _ =>
              rw [step_mailbox_cons hpc hbox, handleMessage, hmsg] at h
              cases h
              exact .refl _
  | tasks =>
      rw [step_tasks hpc] at h
      exact (treeFree_nextTask cfg).grows h
  | running child =>
      rw [step_running hpc] at h
      exact runChild_grows (fun a ha => hs.running child a hpc (getElem?_of_deref ha)) h
  | returned =>
      rw [step, hpc] at h
      cases h
      exact .refl _

/-- **Run lemma**: what is disabled stays disabled in every continuation. -/
theorem grows_of_moves (h : ReflTransGen (OrderlyMove build cfg) s s') :
    Grows s.actorTree s'.actorTree := by
  induction h with
  | refl => exact .refl _
  | tail _ hmove ih =>
      obtain ⟨mem, hmove⟩ := hmove
      refine ih.trans ?_
      cases hmove with
      | enqueue msg => exact .refl _
      | step _ _ hs hstep => exact step_grows hs hstep
      | call => exact .refl _

/-- A USER message of a disabled scope is dropped. -/
theorem step_user_of_covers {m : MapIndex Nat} (hm : Refines s.actorTree m)
    (hcov : m.Covers msg.address) (hpc : s.pc = .mailbox) (hbox : s.mailbox = msg :: rest)
    (hmsg : msg.type = .user) :
    step (radixIndex mem build) cfg s = .ok { s with mailbox := rest } := by
  have hlook : (radixIndex mem build).lookup s.actorTree msg.address = .ok (-1, none) := by
    have heq : (radixIndex mem build).lookup s.actorTree msg.address =
        .ok (m.lookup msg.address) := hm.lookup_eq mem msg.address
    rw [heq, MapIndex.lookup, if_pos hcov]
  rw [step_mailbox_cons hpc hbox, handleMessage, hmsg]
  simp [handleUser, hlook, bind, Except.bind]

/-- **A cancelled scope stays cancelled**: once `process_mailbox` has handled
the cancellation, no USER message of the scope creates an actor or is put in an
actor's mailbox, in any continuation whose steps are orderly. -/
theorem scope_stays_cancelled
    (hreach : ReflTransGen (OrderlyMove build cfg) { actorTree := ArtTree.init } s)
    (hpc : s.pc = .mailbox) (hbox : s.mailbox = msg :: rest) (hmsg : msg.type = .cancelScope)
    (hlen : cfg.addrLen < msg.addrLen) (hs : Orderly cfg s)
    (hstep : step (radixIndex mem build) cfg s = .ok s')
    (hcont : ReflTransGen (OrderlyMove build cfg) s' s'') (hpc' : s''.pc = .mailbox)
    {late : TagMessage} {rest' : List TagMessage} (hbox' : s''.mailbox = late :: rest')
    (hlate : late.type = .user) (hp : msg.address <+: late.address) (mem' : Nat → UInt8) :
    step (radixIndex mem' build) cfg s'' = .ok { s'' with mailbox := rest' } := by
  obtain ⟨m, hm, -⟩ := grows_of_moves hreach MapIndex.empty refines_init
  obtain ⟨m', hm', hdis, -⟩ := step_cancel hs hpc hbox hmsg hlen hstep hm
  obtain ⟨m'', hm'', hkeep⟩ := grows_of_moves hcont m' hm'
  exact step_user_of_covers hm'' ⟨msg.address, hkeep _ hdis, hp⟩ hpc' hbox' hlate

/-- Two payloads for OUT with the cancellation of its scope between them: the
hypotheses of `scope_stays_cancelled` can be met. -/
theorem scope_stays_cancelled_chain :
    ∃ s : State (ArtTree Nat), s.mailbox = [nodesFor [⟨2, 2⟩]] ∧ s.actors.length = 1 ∧
      step (radixIndex (fun _ => 0) .sse2) chain s = .ok { s with mailbox := [] } := by
  obtain ⟨s, s', hfirst, hbox, hpc, hentries, hcancel, hbox', hpc', hlen⟩ :
      ∃ s s', step (radixIndex (fun _ => 0) .sse2) chain (State.start ArtTree.init
          [nodesFor [⟨1, 1⟩], cancellation [7, 0, 0], nodesFor [⟨2, 2⟩]]) = .ok s ∧
        s.mailbox = [cancellation [7, 0, 0], nodesFor [⟨2, 2⟩]] ∧ s.pc = .mailbox ∧
        entries s.actorTree.root = [([7, 0, 0, 0, 0], some 0)] ∧
        step (radixIndex (fun _ => 0) .sse2) chain s = .ok s' ∧
        s'.mailbox = [nodesFor [⟨2, 2⟩]] ∧ s'.pc = .mailbox ∧ s'.actors.length = 1 :=
    ⟨_, _, rfl, rfl, rfl, rfl, rfl, rfl, rfl, rfl⟩
  have hstart : Orderly chain (State.start ArtTree.init
      [nodesFor [⟨1, 1⟩], cancellation [7, 0, 0], nodesFor [⟨2, 2⟩]]) := by
    refine ⟨fun msg rest _ _ _ e he => (by cases he), fun msg rest _ hmsg hcancel => ?_,
      fun child a hr => (by cases hr)⟩
    obtain ⟨rfl, -⟩ := List.cons.inj hmsg
    cases hcancel
  have hs : Orderly chain s := by
    refine ⟨fun msg rest _ hmsg huser => ?_, fun msg rest _ hmsg _ _ => ?_, fun child a hr => ?_⟩
    · rw [hbox] at hmsg
      obtain ⟨rfl, -⟩ := List.cons.inj hmsg
      cases huser
    · rw [hbox] at hmsg
      obtain ⟨rfl, -⟩ := List.cons.inj hmsg
      refine ⟨fun hnull => ?_, fun q v hq hqp => ?_⟩
      · rw [hnull] at hentries
        cases hentries
      · rw [hentries, List.mem_singleton] at hq
        obtain ⟨rfl, -⟩ := Prod.mk.inj hq
        exact absurd hqp.length_le (by decide)
    · rw [hpc] at hr
      cases hr
  have hreach : ReflTransGen (OrderlyMove .sse2 chain) { actorTree := ArtTree.init } s := by
    refine (ReflTransGen.mono (fun _ _ h => ⟨fun _ => 0, h⟩) _ _
      (moves_start ArtTree.init fun _ _ => trivial)).tail
      ⟨fun _ => 0, .step s (fun h => by cases h) hstart hfirst⟩
  exact ⟨s', hbox', hlen, scope_stays_cancelled hreach hpc hbox rfl (by decide) hs hcancel .refl
    hpc' hbox' rfl (by decide) _⟩

/-! ## an empty tree -/

/-- A scope that is cancelled while the tree is empty is not disabled. -/
theorem step_cancel_of_null (hroot : s.actorTree.root = .null) (hpc : s.pc = .mailbox)
    (hbox : s.mailbox = msg :: rest) (hmsg : msg.type = .cancelScope)
    (hlen : cfg.addrLen < msg.addrLen) :
    step (radixIndex mem build) cfg s = .ok { s with mailbox := rest } := by
  rw [step_mailbox_cons hpc hbox, handleMessage, hmsg]
  simp only [gt_iff_lt, hlen, if_true]
  have htargets : (radixIndex mem build).iterPrefixApply s.actorTree msg.address = .ok [] := by
    simp [radixIndex, RadixTreeIndex.iterPrefixApply, artIterActivePrefix, hroot, iterLoop]
  have hdis : (radixIndex mem build).disable s.actorTree msg.address = .ok s.actorTree := by
    simp [radixIndex, RadixTreeIndex.disable, artDisable_of_null _ _ hroot, bind, Except.bind]
  simp [handleScopeCancellation, htargets, hdis, bind, Except.bind, pure, Except.pure]

/-- A cancellation before the first message of its scope: the message creates
an actor and is put in its mailbox. -/
theorem scope_revived :
    ∃ s s' s'' : State (ArtTree Nat),
      ReflTransGen (Move (radixIndex (fun _ => 0) .sse2) chain (fun _ => True) fun _ => True)
        { actorTree := ArtTree.init } s ∧
      s.pc = .mailbox ∧ s.mailbox = [cancellation [7, 0, 0], nodesFor [⟨1, 1⟩]] ∧
      chain.addrLen < (cancellation [7, 0, 0]).addrLen ∧
      step (radixIndex (fun _ => 0) .sse2) chain s = .ok s' ∧ s'.pc = .mailbox ∧
      s'.mailbox = [nodesFor [⟨1, 1⟩]] ∧ s'.actors = [] ∧
      (cancellation [7, 0, 0]).address <+: (nodesFor [⟨1, 1⟩]).address ∧
      step (radixIndex (fun _ => 0) .sse2) chain s' = .ok s'' ∧
      s''.actors.map (fun a => (a.address, a.mailbox)) =
        [([7, 0, 0, 0], [nodesFor [⟨1, 1⟩]])] :=
  ⟨State.start ArtTree.init [cancellation [7, 0, 0], nodesFor [⟨1, 1⟩]], _, _,
    moves_start ArtTree.init fun _ _ => trivial, rfl, rfl, by decide, rfl, rfl, rfl, rfl, by decide,
    rfl, rfl⟩

end LightQuery
