import LightQuery.Dataflow.Delivery
import LightQuery.Dataflow.Frame
import LightQuery.Index.Runs

/-!
# LightQuery.Dataflow.Simulation

A dataflow over the radix tree goes through the states of a dataflow over the
map.

On USER messages for operators the two take their steps together: they differ
in nothing but the index, and the tree refines the map.  What is delivered, in
which order, and that a run returns, then holds of the dataflow with the tree.
-/

namespace LightQuery

open State PrefixFamily

/-! ## the index -/

section Index

variable (mem : Nat → UInt8) (build : Build) {t : ArtTree Nat} {m : MapIndex Nat}

/-- A prefix is disabled in a tree that stores something and no key above it. -/
theorem Refines.radix_disable (h : Refines t m) {p : List UInt8} (hne : p ≠ [])
    (hroot : t.root ≠ .null) (hlive : ∀ b w, (b, w) ∈ m.live → ¬ loadKey b <+: p) :
    ∃ t', (radixIndex mem build).disable t p = .ok t' ∧ Refines t' (m.disable p) := by
  obtain ⟨t', ret, hrun, href, -⟩ := h.disable_spec (Past.lenient mem) build hroot
    (readsInside_of_ne_nil hne _) hlive
  refine ⟨t', ?_, href⟩
  simp only [radixIndex, hrun, bind, Except.bind]

/-- An address is stored that is comparable to no other key and to no mark. -/
theorem Refines.radix_insert (h : Refines t m) {a : List UInt8} (v : Nat)
    (hlive : ∀ b w, (b, w) ∈ m.live → b = a ∨ Incomparable (loadKey b) (loadKey a))
    (hmark : ∀ p ∈ m.disabled, Incomparable p (loadKey a)) :
    ∃ t', (radixIndex mem build).insert t a v = .ok t' ∧ Refines t' (m.insert a v) := by
  obtain ⟨t', hrun, href, -⟩ := h.insert_spec (Past.lenient mem) build v hlive hmark
  exact ⟨t', hrun, href⟩

/-- Two addresses of one length do not extend each other. -/
theorem incomparable_loadKey {a b : List UInt8} (hlen : a.length = b.length) (hne : a ≠ b) :
    Incomparable (loadKey a) (loadKey b) := by
  have hkey : (loadKey a).length = (loadKey b).length := by rw [length_loadKey, length_loadKey, hlen]
  exact ⟨fun h => hne (loadKey_inj.mp (h.eq_of_length hkey)),
    fun h => hne (loadKey_inj.mp (h.eq_of_length hkey.symm)).symm⟩

/-- Where all addresses have one length and no mark is longer, an absent one can be
stored. -/
theorem Refines.radix_insert_absent (h : Refines t m) {a : List UInt8} (v : Nat)
    (hcov : ¬ m.Covers a) (hlive : ∀ b w, (b, w) ∈ m.live → b.length = a.length)
    (hdis : ∀ p ∈ m.disabled, p.length ≤ a.length) :
    ∃ t', (radixIndex mem build).insert t a v = .ok t' ∧ Refines t' (m.insert a v) := by
  refine h.radix_insert mem build v (fun b w hb => ?_) fun p hp => ⟨fun hpa => ?_, fun hap => ?_⟩
  · by_cases hba : b = a
    · exact .inl hba
    · exact .inr (incomparable_loadKey (hlive b w hb) hba)
  · rcases prefix_loadKey.mp hpa with hpa | rfl
    · exact hcov ⟨p, hp, hpa⟩
    · have := hdis _ hp
      rw [length_loadKey] at this
      omega
  · have := hap.length_le
    have := hdis p hp
    rw [length_loadKey] at *
    omega

/-- A stored address can be disabled. -/
theorem Refines.radix_disable_live (h : Refines t m) {a : List UInt8} {v : Nat} (hne : a ≠ [])
    (hv : (a, v) ∈ m.live) :
    ∃ t', (radixIndex mem build).disable t a = .ok t' ∧ Refines t' (m.disable a) :=
  h.radix_disable mem build hne (h.root_ne_null hv) fun _ _ hb =>
    h.not_prefix_of_live hv (h.mem_live_iff.mp hb)

end Index

/-! ## operations -/

/-- Where the dataflow over the map succeeds, the one over the tree does so with
the same result. -/
def Simulates (r : Except Fault (State (ArtTree Nat))) (r' : Except Fault (State (MapIndex Nat))) :
    Prop :=
  ∀ m', r' = .ok m' → ∃ t, r = .ok (m'.withTree t) ∧ Refines t m'.actorTree

section Operations

variable {cfg : Config} {mem : Nat → UInt8} {build : Build} {t : ArtTree Nat}
  {m m' : State (MapIndex Nat)}

theorem simulates_error {r : Except Fault (State (ArtTree Nat))} (e : Fault) :
    Simulates r (.error e) := by
  intro m' h
  cases h

theorem simulates_ok (h : Refines t m.actorTree) : Simulates (.ok (m.withTree t)) (.ok m) := by
  intro m' hm
  cases hm
  exact ⟨t, rfl, h⟩

theorem TreeFree.simulates {f : ∀ σ : Type, State σ → Except Fault (State σ)} (hf : TreeFree f)
    (h : Refines t m.actorTree) : Simulates (f _ (m.withTree t)) (f _ m) := by
  intro m' hm
  refine ⟨t, ?_, ?_⟩
  · rw [hf, hm]
    rfl
  · rw [hf.actorTree_eq hm]
    exact h

theorem Simulates.bind {r : Except Fault (State (ArtTree Nat))}
    {r' : Except Fault (State (MapIndex Nat))} (hr : Simulates r r')
    {f : ∀ σ : Type, State σ → Except Fault (State σ)} (hf : TreeFree f) :
    Simulates (r >>= f _) (r' >>= f _) := by
  cases r' with
  | error e => exact simulates_error e
  | ok m =>
      obtain ⟨t, rfl, ht⟩ := hr m rfl
      exact hf.simulates ht

/-- `handle_child_termination` disables an address that the tree stores. -/
theorem handleChildTermination_simulates (h : Refines t m.actorTree) {addr : List UInt8}
    (hne : addr ≠ []) :
    Simulates (handleChildTermination (radixIndex mem build) (m.withTree t) addr)
      (handleChildTermination mapIndex m addr) := by
  have hlook : (radixIndex mem build).lookup t addr = .ok (m.actorTree.lookup addr) :=
    h.lookup_eq mem addr
  simp only [handleChildTermination, withTree_actorTree, hlook, mapIndex, bind, Except.bind]
  rcases hl : m.actorTree.lookup addr with ⟨search, child⟩
  simp only
  split
  · exact simulates_ok h
  · split
    · exact simulates_error _
    · next hnot hone =>
        cases child with
        | none => exact simulates_error _
        | some child =>
            have hlive := h.functional.get_eq_some_iff.mp (MapIndex.get_of_lookup hl)
            obtain ⟨t', hrun, ht'⟩ := h.radix_disable_live mem build hne hlive
            simp only [hrun]
            exact (treeFree_handleStopFromParent child).simulates
              (m := { m with
                numTerminatingChildren := m.numTerminatingChildren + 1
                actorTree := m.actorTree.disable addr }) ht'

/-- `process_mailbox` on a USER message. -/
theorem handleUser_simulates (h : Refines t m.actorTree) {msg : TagMessage}
    (hlive : ∀ b w, (b, w) ∈ m.actorTree.live → b.length = msg.addrLen)
    (hdis : ∀ p ∈ m.actorTree.disabled, p.length ≤ msg.addrLen) :
    Simulates (handleUser (radixIndex mem build) cfg (m.withTree t) msg)
      (handleUser mapIndex cfg m msg) := by
  have hlook : (radixIndex mem build).lookup t msg.address =
      .ok (m.actorTree.lookup msg.address) := h.lookup_eq mem msg.address
  simp only [handleUser, withTree_actorTree, hlook, mapIndex, bind, Except.bind]
  rcases hl : m.actorTree.lookup msg.address with ⟨search, childPtr⟩
  simp only
  split
  · cases childPtr with
    | none => exact simulates_error _
    | some child => exact (treeFree_deliver child msg).simulates h
  · split
    · next hzero =>
        subst hzero
        obtain ⟨hcov, -⟩ := MapIndex.of_lookup_eq_zero hl
        rcases dummyInsertSimple.get (fun i => msg.addrs (i + 1)) 0 with e | _ | code
        · exact simulates_error e
        · exact simulates_error _
        · simp only
          rcases newOperator cfg.stringToUnsignedInt msg.address code with e | _ | op
          · exact simulates_error e
          · exact simulates_error _
          · obtain ⟨t', hrun, ht'⟩ := h.radix_insert_absent mem build m.actors.length hcov
              (by simpa using hlive) (by simpa using hdis)
            have hlen : (m.withTree t).actors.length = m.actors.length := rfl
            simp only [hlen, hrun]
            exact (treeFree_deliver m.actors.length msg).simulates
              (m := { m with
                actors := m.actors ++ [{ address := msg.address, op := op }]
                actorTree := m.actorTree.insert msg.address m.actors.length }) ht'
    · split
      · exact simulates_ok h
      · exact simulates_error _

/-- `process_mailbox` on a message that it takes off. -/
theorem handleMessage_simulates (h : Refines t m.actorTree) {msg : TagMessage}
    (hmsg : msg.type = .user)
    (hlive : ∀ b w, (b, w) ∈ m.actorTree.live → b.length = msg.addrLen)
    (hdis : ∀ p ∈ m.actorTree.disabled, p.length ≤ msg.addrLen) :
    Simulates (handleMessage (radixIndex mem build) cfg (m.withTree t) msg)
      (handleMessage mapIndex cfg m msg) := by
  rw [handleMessage, handleMessage, hmsg]
  exact handleUser_simulates h hlive hdis

/-- The running actor handles a message. -/
theorem runMessage_simulates (h : Refines t m.actorTree) {child : Nat}
    (hne : ∀ a, m.deref child = .ok a → a.address ≠ []) (msg : TagMessage) :
    Simulates (runMessage (radixIndex mem build) cfg (m.withTree t) child msg)
      (runMessage mapIndex cfg m child msg) := by
  have hderef : (m.withTree t).deref child = m.deref child := rfl
  simp only [runMessage, hderef]
  cases ha : m.deref child with
  | error e => exact simulates_error e
  | ok a =>
      simp only [bind, Except.bind]
      split
      · split
        · split
          · exact simulates_ok h
          · exact simulates_error _
        · next data _ =>
            cases a.op.doWork cfg.getOutV data with
            | error e => exact simulates_error e
            | ok w =>
                have hw : Refines t (applyWork m child a data w).actorTree := by
                  rwa [applyWork_actorTree]
                simp only [applyWork_withTree]
                split
                · exact handleChildTermination_simulates hw (hne a ha)
                · exact simulates_ok hw
      · exact (handleChildTermination_simulates h (hne a ha)).bind (treeFree_finishRun child)
      · exact simulates_ok
          (m := { m with cout := m.cout ++ [(some child, .undefinedSystem)] }) h

/-- The running actor looks at its mailbox. -/
theorem runChild_simulates (h : Refines t m.actorTree) {child : Nat}
    (hne : ∀ a, m.deref child = .ok a → a.address ≠ []) :
    Simulates (runChild (radixIndex mem build) cfg (m.withTree t) child)
      (runChild mapIndex cfg m child) := by
  have hderef : (m.withTree t).deref child = m.deref child := rfl
  simp only [runChild, hderef]
  cases ha : m.deref child with
  | error e => exact simulates_error e
  | ok a =>
      simp only [bind, Except.bind]
      split
      · exact (treeFree_finishRun child).simulates h
      · next msg rest hbox =>
          have hreads : (m.withTree t).clockReads = m.clockReads := rfl
          simp only [hreads]
          -- the clock's answer is the same for both
          let r := notExpired cfg.clock a.executionCount m.clockReads
          show Simulates (if r.1 = true then _ else _) (if r.1 = true then _ else _)
          split
          · refine runMessage_simulates (m := State.put { m with clockReads := r.2.2 } child
              { a with executionCount := r.2.1, mailbox := rest }) h (fun b hb => ?_) msg
            rw [eq_of_deref_put hb]
            exact hne a ha
          · exact (treeFree_finishRun child).simulates (m := State.put
              { m with clockReads := r.2.2 } child { a with executionCount := r.2.1 }) h

/-- **A step over the map is a step over the tree**, where the message that is
handled is a USER message with an address as long as the stored ones. -/
theorem step_simulates_user (h : Refines t m.actorTree)
    (hmail : ∀ msg rest, m.pc = .mailbox → m.mailbox = msg :: rest → msg.type = .user ∧
      (∀ b w, (b, w) ∈ m.actorTree.live → b.length = msg.addrLen) ∧
      ∀ p ∈ m.actorTree.disabled, p.length ≤ msg.addrLen)
    (hne : ∀ (i : Nat) (a : Actor), m.actors[i]? = some a → a.address ≠ []) :
    Simulates (step (radixIndex mem build) cfg (m.withTree t)) (step mapIndex cfg m) := by
  cases hpc : m.pc with
  | mailbox =>
      have hpc' : (m.withTree t).pc = .mailbox := hpc
      cases hbox : m.mailbox with
      | nil =>
          have hbox' : (m.withTree t).mailbox = [] := hbox
          rw [step_mailbox_nil hpc hbox, step_mailbox_nil hpc' hbox']
          exact simulates_ok (m := { m with pc := .tasks }) h
      | cons msg rest =>
          have hbox' : (m.withTree t).mailbox = msg :: rest := hbox
          rw [step_mailbox_cons hpc hbox, step_mailbox_cons hpc' hbox']
          obtain ⟨htype, hlive, hdis⟩ := hmail msg rest hpc hbox
          exact handleMessage_simulates (m := { m with mailbox := rest }) h htype hlive hdis
  | tasks =>
      have hpc' : (m.withTree t).pc = .tasks := hpc
      rw [step_tasks hpc, step_tasks hpc']
      exact (treeFree_nextTask cfg).simulates h
  | running child =>
      have hpc' : (m.withTree t).pc = .running child := hpc
      rw [step_running hpc, step_running hpc']
      exact runChild_simulates h fun a ha => hne child a (getElem?_of_deref ha)
  | returned =>
      have hpc' : (m.withTree t).pc = .returned := hpc
      rw [step, step, hpc, hpc']
      exact simulates_ok h

/-- The same on USER messages for operators. -/
theorem step_simulates (h : Refines t m.actorTree) (hinv : Inv cfg.limitCnt [] m)
    {initial : List TagMessage} (hdel : Delivered cfg initial m) :
    Simulates (step (radixIndex mem build) cfg (m.withTree t)) (step mapIndex cfg m) := by
  refine step_simulates_user h (fun msg rest _ hbox => ?_) fun i a ha hnil => ?_
  · have hto := hdel.mail msg (hbox ▸ List.mem_cons_self)
    have hlen : msg.addrLen = 4 := by
      rw [← msg.length_address, length_of_form hto.address]
    refine ⟨hto.type, fun b i hb => ?_, fun p hp => ?_⟩
    · obtain ⟨a, ha, -, rfl⟩ := hinv.holds_of_live hb
      rw [hlen, length_of_form (hdel.actor i a ha.1).form]
    · obtain ⟨i, a, ha, rfl, -⟩ := hdel.disabled p hp
      rw [hlen, length_of_form (hdel.actor i a ha).form]
  · have hlen := length_of_form (hdel.actor i a ha).form
    rw [hnil] at hlen
    cases hlen

end Operations

/-! ## runs -/

section Runs

variable {cfg : Config} {msgs : List TagMessage} {s : State (ArtTree Nat)} {m : State (MapIndex Nat)}

/-- The dataflow over the tree follows the one over the map. -/
structure Follows (cfg : Config) (msgs : List TagMessage) (s : State (ArtTree Nat))
    (m : State (MapIndex Nat)) : Prop where
  tree : Refines s.actorTree m.actorTree
  rest : s = m.withTree s.actorTree
  inv : Inv cfg.limitCnt [] m
  delivered : Delivered cfg msgs m

theorem Follows.returned_iff (h : Follows cfg msgs s m) : Returned s ↔ Returned m := by
  rw [h.rest]
  exact Iff.rfl

theorem follows_start (h : ∀ msg ∈ msgs, msg.ToOperator) :
    Follows cfg msgs (State.start ArtTree.init msgs) (State.start MapIndex.empty msgs) where
  tree := by
    rw [start_eq, start_eq]
    exact refines_init
  rest := by
    rw [start_eq, start_eq]
    rfl
  inv := inv_start fun msg hmsg => .inl (h msg hmsg)
  delivered := delivered_start h

variable (mem : Nat → UInt8) (build : Build)

/-- **Step lemma**: as long as the one has not returned, both take a step. -/
theorem Follows.step (h : Follows cfg msgs s m) (hm : ¬ Returned m) :
    ∃ s' m', step (radixIndex mem build) cfg s = .ok s' ∧ step mapIndex cfg m = .ok m' ∧
      Follows cfg msgs s' m' := by
  obtain ⟨m', hstep, hcase⟩ := step_cases h.inv hm
  have hsim : Simulates (LightQuery.step (radixIndex mem build) cfg (m.withTree s.actorTree))
      (LightQuery.step mapIndex cfg m) := step_simulates h.tree h.inv h.delivered
  obtain ⟨t, hrun, ht⟩ := hsim m' hstep
  rw [← h.rest] at hrun
  exact ⟨_, m', hrun, hstep, ht, rfl, hcase.inv h.inv, hcase.delivered h.inv h.delivered⟩

/-- **Run lemma**: what is reached over the tree is reached over the map. -/
theorem follows_of_steps (h : ∀ msg ∈ msgs, msg.ToOperator)
    (hsteps : Machine.Steps Returned (step (radixIndex mem build) cfg)
      (State.start ArtTree.init msgs) s) :
    ∃ m, Machine.Steps Returned (step mapIndex cfg) (State.start MapIndex.empty msgs) m ∧
      Follows cfg msgs s m := by
  refine hsteps.simulate (R := fun m s => Follows cfg msgs s m) ?_ (follows_start h)
  rintro m s s' hfol ⟨hs, hstep⟩
  have hm : ¬ Returned m := mt hfol.returned_iff.mpr hs
  obtain ⟨t, m', hrun, hmap, hfol'⟩ := hfol.step mem build hm
  obtain rfl : s' = t := Except.ok.inj (hstep.symm.trans hrun)
  exact ⟨m', ⟨hm, hmap⟩, hfol'⟩

/-- A run over the tree returns. -/
theorem exists_returns (cfg : Config) (h : ∀ msg ∈ msgs, msg.ToOperator) :
    ∃ s, Machine.Returns Returned (step (radixIndex mem build) cfg)
      (State.start ArtTree.init msgs) s := by
  obtain ⟨m, hsteps, hm⟩ := (run_returns cfg fun msg hmsg => .inl (h msg hmsg)).1
  have hfollow : ∃ s, Machine.Steps Returned (step (radixIndex mem build) cfg)
      (State.start ArtTree.init msgs) s ∧ Follows cfg msgs s m := by
    refine hsteps.simulate (R := fun s m => Follows cfg msgs s m) ?_ (follows_start h)
    rintro s m m' hfol ⟨hm, hstep⟩
    obtain ⟨s', t, hrun, hmap, hfol'⟩ := hfol.step mem build hm
    obtain rfl : m' = t := Except.ok.inj (hstep.symm.trans hmap)
    exact ⟨s', ⟨mt hfol.returned_iff.mp hm, hrun⟩, hfol'⟩
  obtain ⟨s, hs, hfol⟩ := hfollow
  exact ⟨s, hs, hfol.returned_iff.mpr hm⟩

end Runs

end LightQuery
