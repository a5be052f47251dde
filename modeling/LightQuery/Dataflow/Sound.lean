import LightQuery.Dataflow.Cancellation

/-!
# LightQuery.Dataflow.Sound

The invariant of the actor tree under messages of any kind: every stored address
leads to an actor that is there and does not terminate.

Steps of the actors keep it (`Sound.runChild`); what `process_mailbox` does to
it is in `LightQuery.Dataflow.Dispatch`.
-/

namespace LightQuery

open State PrefixFamily

/-! ## live actors -/

section Live

variable {σ : Type} {s s' : State σ} {i j : Nat} {a b : Actor} {addr : List UInt8}

/-- The pointer is to an actor of this address, which does not terminate. -/
def State.LiveAt (s : State σ) (i : Nat) (addr : List UInt8) : Prop :=
  ∃ a, s.Holds i a ∧ a.terminating = false ∧ a.address = addr

/-- Every actor that does not terminate stays so. -/
def KeepsLive (s s' : State σ) : Prop := ∀ i addr, s.LiveAt i addr → s'.LiveAt i addr

theorem holds_of_deref (h : s.deref i = .ok a) : s.Holds i a := by
  refine ⟨getElem?_of_deref h, ?_⟩
  rw [deref, getElem?_of_deref h] at h
  by_contra hdel
  simp [hdel] at h

theorem KeepsLive.of_actors (h : s'.actors = s.actors) : KeepsLive s s' := by
  rintro i addr ⟨a, hi, ht, haddr⟩
  exact ⟨a, ⟨h ▸ hi.1, hi.2⟩, ht, haddr⟩

/-- One actor changes, and does not terminate if it did not before. -/
theorem KeepsLive.of_set (hi : s.Holds i a) (hactors : s'.actors = s.actors.set i b)
    (hb : a.terminating = false →
      b.deleted = false ∧ b.terminating = false ∧ b.address = a.address) : KeepsLive s s' := by
  rintro j addr ⟨c, hj, ht, haddr⟩
  by_cases hji : j = i
  · subst hji
    obtain rfl : c = a := Option.some.inj (hj.1.symm.trans hi.1)
    obtain ⟨hdel, hterm, haddr'⟩ := hb ht
    refine ⟨b, ⟨?_, hdel⟩, hterm, haddr'.trans haddr⟩
    rw [hactors, List.getElem?_set_self hi.lt]
  · refine ⟨c, ⟨?_, hj.2⟩, ht, haddr⟩
    rw [hactors, List.getElem?_set_ne (Ne.symm hji)]
    exact hj.1

/-- The end of a run deletes an actor only when it terminates. -/
theorem keepsLive_finishRun (h : finishRun s i = .ok s') : KeepsLive s s' := by
  cases ha : s.deref i with
  | error e => simp [finishRun, ha, bind, Except.bind] at h
  | ok a =>
      have hi := holds_of_deref ha
      cases ht : a.terminating with
      | true =>
          rw [finishRun_delete hi ht] at h
          cases h
          refine .of_set hi rfl fun hfalse => ?_
          rw [ht] at hfalse
          cases hfalse
      | false =>
          by_cases hbox : a.mailbox = []
          · rw [finishRun_idle hi ht hbox] at h
            cases h
            exact .of_set hi rfl fun _ => ⟨hi.2, ht, rfl⟩
          · rw [finishRun_requeue hi ht hbox] at h
            cases h
            exact .of_set hi rfl fun _ => ⟨hi.2, ht, rfl⟩

theorem keepsLive_nextTask {cfg : Config} (h : nextTask cfg s = .ok s') : KeepsLive s s' := by
  rw [nextTask] at h
  split at h
  · cases h
    exact .of_actors rfl
  · next child queue _ =>
      simp only at h
      split at h
      · cases ha : State.deref { s with
            executionCount := (notExpired cfg.clock s.executionCount s.clockReads).2.1
            clockReads := (notExpired cfg.clock s.executionCount s.clockReads).2.2 } child with
        | error e => simp [ha, bind, Except.bind] at h
        | ok a =>
            have hi : s.Holds child a := holds_of_deref ha
            simp only [ha, bind, Except.bind] at h
            cases h
            exact .of_set hi rfl fun ht => ⟨hi.2, ht, rfl⟩
      · cases h
        exact .of_actors rfl

/-- A stop takes nothing but its actor. -/
theorem liveAt_handleStopFromParent (h : s.handleStopFromParent i = .ok s') (hji : j ≠ i)
    (hj : s.LiveAt j addr) : s'.LiveAt j addr := by
  cases ha : s.deref i with
  | error e => simp [handleStopFromParent, ha, bind, Except.bind] at h
  | ok a =>
      have hi := holds_of_deref ha
      obtain ⟨c, hc, ht, haddr⟩ := hj
      cases hterm : a.terminating with
      | true =>
          simp only [handleStopFromParent, ha, hterm, bind, Except.bind, if_true] at h
          cases h
          exact ⟨c, hc, ht, haddr⟩
      | false =>
          rw [handleStopFromParent_eq hi hterm] at h
          cases h
          refine ⟨c, ⟨?_, hc.2⟩, ht, haddr⟩
          rw [wake_actors, List.getElem?_set_ne (Ne.symm hji)]
          exact hc.1

end Live

/-! ## the invariant -/

/-- The tree refines a map whose addresses lead to live actors. -/
structure Sound (s : State (ArtTree Nat)) (m : MapIndex Nat) : Prop where
  tree : Refines s.actorTree m
  live : ∀ addr i, (addr, i) ∈ m.live → s.LiveAt i addr

section Invariant

variable {cfg : Config} {mem : Nat → UInt8} {build : Build} {s s' : State (ArtTree Nat)}
  {m : MapIndex Nat} {i : Nat}

theorem sound_init : Sound { actorTree := ArtTree.init } MapIndex.empty where
  tree := refines_init
  live addr i hi := by cases hi

theorem Sound.congr (h : Sound s m) (htree : s'.actorTree = s.actorTree)
    (hlive : KeepsLive s s') : Sound s' m where
  tree := by
    rw [htree]
    exact h.tree
  live addr i hi := hlive i addr (h.live addr i hi)

/-- A prefix can be disabled once the actors below it are stopped. -/
theorem Sound.cut (mem : Nat → UInt8) (build : Build) (h : Sound s m) {p : List UInt8}
    (hroot : s.actorTree.root ≠ .null) (hin : ReadsInside [] p s.actorTree.root)
    (hkey : ∀ q v, (q, some v) ∈ entries s.actorTree.root → q <+: p → q = p) :
    ∃ t, (radixIndex mem build).disable s.actorTree p = .ok t ∧
      ∀ s' : State (ArtTree Nat), s'.actorTree = t →
        (∀ addr i, (addr, i) ∈ m.live → ¬ p <+: loadKey addr → s'.LiveAt i addr) →
        Sound s' (m.cut p) := by
  obtain ⟨t, ret, hrun, href, -⟩ := h.tree.cut_spec (Past.lenient mem) build hroot hin
    fun b w hb => hkey _ w (h.tree.mem_live_iff.mp hb)
  refine ⟨t, by simp only [radixIndex, hrun, bind, Except.bind], fun s' htree hlive => ?_⟩
  refine ⟨htree ▸ href, fun addr i hi => ?_⟩
  obtain ⟨hmem, hnot⟩ := List.mem_filter.mp hi
  exact hlive addr i hmem (by simpa using hnot)

/-- The stop of an actor that asks for it. -/
theorem Sound.childTermination (h : Sound s m) {addr : List UInt8}
    (hin : ReadsInside [] addr s.actorTree.root)
    (hrun : handleChildTermination (radixIndex mem build) s addr = .ok s') :
    ∃ m', Sound s' m' := by
  have hlook : (radixIndex mem build).lookup s.actorTree addr = .ok (m.lookup addr) :=
    h.tree.lookup_eq mem addr
  simp only [handleChildTermination, hlook, bind, Except.bind] at hrun
  rcases hl : m.lookup addr with ⟨search, childPtr⟩
  simp only [hl] at hrun hlook
  split at hrun
  · cases hrun
    exact ⟨m, h⟩
  · split at hrun
    · cases hrun
    · cases childPtr with
      | none => cases hrun
      | some child =>
          have hcan := cancels_of_lookup hlook h.tree
          obtain ⟨t, hdis, hcut⟩ := h.cut mem build hcan.1 hin hcan.2
          simp only [hdis] at hrun
          refine ⟨_, hcut s' ((treeFree_handleStopFromParent child).actorTree_eq hrun)
            fun b i hb hnot => ?_⟩
          refine liveAt_handleStopFromParent hrun ?_ (h.live b i hb)
          -- the stopped actor has the address that is disabled
          rintro rfl
          have hmem := h.tree.functional.get_eq_some_iff.mp (MapIndex.get_of_lookup hl)
          obtain ⟨a, hi, -, haddr⟩ := h.live b i hb
          obtain ⟨c, hi', -, haddr'⟩ := h.live addr i hmem
          obtain rfl : a = c := Option.some.inj (hi.1.symm.trans hi'.1)
          rw [← haddr, haddr'] at hnot
          exact hnot (prefix_loadKey.mpr (.inl List.prefix_rfl))

/-- The running actor handles a message. -/
theorem Sound.runMessage (h : Sound s m) {msg : TagMessage}
    (hin : ∀ a, s.deref i = .ok a → ReadsInside [] a.address s.actorTree.root)
    (hrun : runMessage (radixIndex mem build) cfg s i msg = .ok s') : ∃ m', Sound s' m' := by
  simp only [LightQuery.runMessage, bind, Except.bind] at hrun
  cases ha : s.deref i with
  | error e => simp [ha] at hrun
  | ok a =>
      have hi := holds_of_deref ha
      simp only [ha] at hrun
      split at hrun
      · split at hrun
        · split at hrun
          · cases hrun
            exact ⟨m, h⟩
          · cases hrun
        · next data _ =>
            cases hwork : a.op.doWork cfg.getOutV data with
            | error e => simp [hwork] at hrun
            | ok w =>
                simp only [hwork] at hrun
                have htree : (applyWork s i a data w).actorTree = s.actorTree :=
                  applyWork_actorTree s i a data w
                have hwork : Sound (applyWork s i a data w) m := by
                  refine h.congr htree (.of_set hi (by rw [applyWork_eq]) fun ht => ?_)
                  exact ⟨hi.2, ht, rfl⟩
                split at hrun
                · exact hwork.childTermination (htree ▸ hin a ha) hrun
                · cases hrun
                  exact ⟨m, hwork⟩
      · cases hterm : handleChildTermination (radixIndex mem build) s a.address with
        | error e => simp [hterm] at hrun
        | ok s₁ =>
            simp only [hterm] at hrun
            obtain ⟨m', h'⟩ := h.childTermination (hin a ha) hterm
            exact ⟨m', h'.congr ((treeFree_finishRun i).actorTree_eq hrun)
              (keepsLive_finishRun hrun)⟩
      · cases hrun
        exact ⟨m, h.congr rfl (.of_actors rfl)⟩

/-- The running actor looks at its mailbox. -/
theorem Sound.runChild (h : Sound s m)
    (hin : ∀ a, s.deref i = .ok a → ReadsInside [] a.address s.actorTree.root)
    (hrun : runChild (radixIndex mem build) cfg s i = .ok s') : ∃ m', Sound s' m' := by
  simp only [LightQuery.runChild, bind, Except.bind] at hrun
  cases ha : s.deref i with
  | error e => simp [ha] at hrun
  | ok a =>
      have hi := holds_of_deref ha
      simp only [ha] at hrun
      split at hrun
      · exact ⟨m, h.congr ((treeFree_finishRun i).actorTree_eq hrun) (keepsLive_finishRun hrun)⟩
      · next msg rest _ =>
          have hput : ∀ count reads box, Sound (State.put { s with clockReads := reads } i
              { a with executionCount := count, mailbox := box }) m := fun count reads box =>
            h.congr rfl (.of_set hi rfl fun ht => ⟨hi.2, ht, rfl⟩)
          split at hrun
          · refine (hput _ _ rest).runMessage (fun b hb => ?_) hrun
            rw [eq_of_deref_put hb]
            exact hin a ha
          · exact ⟨m, (hput _ _ a.mailbox).congr ((treeFree_finishRun i).actorTree_eq hrun)
              (keepsLive_finishRun hrun)⟩

end Invariant

end LightQuery
