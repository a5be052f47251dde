import LightQuery.Dataflow.Field
import LightQuery.Dataflow.Sound

/-!
# LightQuery.Dataflow.Dispatch

What `process_mailbox` does with a message of any type, length and address.

`Sound` holds along every run whose tree is `InOrder`, and in each of its states
the next message is handled inside its address field and reaches an actor or is
discarded if and only if it `Decodes` (`dispatch_safe_iff`).
-/

namespace LightQuery

open State PrefixFamily Relation

/-! ## USER messages -/

/-- Neither is the address stored nor is there a mark above it. -/
def Absent (t : ArtTree Nat) (addr : List UInt8) : Prop :=
  (∀ v, (loadKey addr, some v) ∉ entries t.root) ∧
    ∀ q, (q, none) ∈ entries t.root → ¬ q <+: addr

theorem absent_iff {t : ArtTree Nat} {m : MapIndex Nat} (h : Refines t m) {addr : List UInt8} :
    Absent t addr ↔ ¬ m.Covers addr ∧ m.get addr = none := by
  rw [h.covers_iff, MapIndex.get_eq_none_iff, Absent, and_comm]
  refine and_congr ⟨fun hno => ?_, fun hno q hq hqa => hno ⟨q, hq, hqa⟩⟩
    (forall_congr' fun v => not_congr h.mem_live_iff.symm)
  rintro ⟨q, hq, hqa⟩
  exact hno q hq hqa

/-- The operator id has a code, and the address of OUT has room for an id. -/
def Resolves (msg : TagMessage) : Prop :=
  loadInt16 (msg.addrs 3) (msg.addrs 4) = 0 ∧ 2 ≤ msg.addrLen ∨
    loadInt16 (msg.addrs 3) (msg.addrs 4) = 1

/-- Where the operator id resolves an operator is created. -/
theorem Resolves.newOperator {msg : TagMessage} (h : Resolves msg)
    (stringToUnsignedInt : String → UInt32) :
    ∃ code op, simpleCode (loadInt16 (msg.addrs 3) (msg.addrs 4)) = .ok (some code) ∧
      newOperator stringToUnsignedInt msg.address code = .ok (some op) := by
  rcases h with ⟨hid, hlen⟩ | hid
  · obtain ⟨base, hbase⟩ :
        ∃ base, OperatorBase.new msg.address 1 msg.address.length = .ok base := by
      have hmin : ¬ min msg.address.length msg.address.length < 2 := by
        rw [Nat.min_self, msg.length_address]
        omega
      exact ⟨_, by rw [OperatorBase.new, if_neg (by decide), if_neg hmin]⟩
    refine ⟨codeOut, .out ⟨base, "knows", ⟨.userData, []⟩, maxTime⟩, by rw [hid]; rfl, ?_⟩
    simp only [LightQuery.newOperator, codeOut, hbase, bind, Except.bind]
  · exact ⟨codeLimit, _, by rw [hid]; rfl, rfl⟩

/-- Where it does not, none is. -/
theorem not_newOperator {msg : TagMessage} (h : ¬ Resolves msg)
    (stringToUnsignedInt : String → UInt32) {code : Code}
    (hcode : simpleCode (loadInt16 (msg.addrs 3) (msg.addrs 4)) = .ok (some code)) :
    newOperator stringToUnsignedInt msg.address code = .error .assertScopeLen := by
  rw [Resolves, not_or, not_and] at h
  rw [simpleCode] at hcode
  split at hcode
  · next hid =>
      cases hcode
      have hmin : min msg.address.length msg.address.length < 2 := by
        rw [Nat.min_self, msg.length_address]
        exact Nat.lt_of_not_le (h.1 hid)
      rw [newOperator]
      simp only [codeOut, OperatorBase.new, hmin, if_true, bind, Except.bind]
      rfl
  · next hid =>
      rw [if_neg h.2] at hcode
      cases hcode

/-- Mailboxes stay as they are or are emptied. -/
def NoneReceives {σ : Type} (s s' : State σ) : Prop :=
  ∀ (i : Nat) (b : Actor), s'.actors[i]? = some b →
    ∃ a, s.actors[i]? = some a ∧ (b.mailbox = a.mailbox ∨ b.mailbox = [])

theorem NoneReceives.trans {σ : Type} {s s' s'' : State σ} (h : NoneReceives s s')
    (h' : NoneReceives s' s'') : NoneReceives s s'' := by
  intro i c hc
  obtain ⟨b, hb, hbc⟩ := h' i c hc
  obtain ⟨a, ha, hab⟩ := h i b hb
  refine ⟨a, ha, ?_⟩
  rcases hbc with hbc | hbc
  · rwa [hbc]
  · exact .inr hbc

/-- What happens to a message that is handled: an actor of its address, old or
new, gets it behind the messages that it has, or no actor gets a message. -/
inductive Handled {σ : Type} (s s' : State σ) (msg : TagMessage) : Prop
  | delivered (i : Nat) (a b : Actor) (hi : s.Holds i a) (ha : a.address = msg.address)
      (hi' : s'.Holds i b) (hb : b.address = msg.address) (hbox : b.mailbox = a.mailbox ++ [msg])
  | created (b : Actor) (hi' : s'.Holds s.actors.length b) (hb : b.address = msg.address)
      (hbox : b.mailbox = [msg])
  | discarded (h : NoneReceives s s')

theorem deliver_of_user {σ : Type} {s : State σ} {i : Nat} {a : Actor} (hi : s.Holds i a)
    {msg : TagMessage} (hmsg : msg.type = .user) :
    deliver s i msg = .ok (s.wake i { a with mailbox := a.mailbox ++ [msg] }) := by
  have huser : MessageType.user.toNat ≤ MessageType.flowControl.toNat := by decide
  rw [deliver, hmsg, if_pos huser, childEnqueMessage_eq hi]

section User

variable {cfg : Config} (mem : Nat → UInt8) (build : Build) {s : State (ArtTree Nat)}
  {m : MapIndex Nat} {msg : TagMessage}

theorem Sound.lookup (h : Sound s m) (addr : List UInt8) :
    (radixIndex mem build).lookup s.actorTree addr = .ok (m.lookup addr) :=
  h.tree.lookup_eq mem addr

/-- An address that is stored: its actor gets the message. -/
theorem Sound.deliver (h : Sound s m) (hmsg : msg.type = .user) {i : Nat}
    (hcov : ¬ m.Covers msg.address) (hget : m.get msg.address = some i) :
    ∃ s', handleUser (radixIndex mem build) cfg s msg = .ok s' ∧ Sound s' m ∧
      Handled s s' msg := by
  obtain ⟨a, hi, ht, haddr⟩ := h.live _ _ (h.tree.functional.get_eq_some_iff.mp hget)
  have hkeep : KeepsLive s (s.wake i { a with mailbox := a.mailbox ++ [msg] }) :=
    .of_set hi rfl fun ht => ⟨hi.2, ht, rfl⟩
  have hwake : (s.wake i { a with mailbox := a.mailbox ++ [msg] }).Holds i
      { a with mailbox := a.mailbox ++ [msg], isActive := true } :=
    hi.put (b := { a with mailbox := a.mailbox ++ [msg], isActive := true }) hi.2
  refine ⟨s.wake i { a with mailbox := a.mailbox ++ [msg] }, ?_, h.congr rfl hkeep,
    .delivered i a _ hi haddr hwake haddr rfl⟩
  simp only [handleUser, h.lookup, MapIndex.lookup, hcov, hget, bind, Except.bind, if_false,
    if_true]
  exact deliver_of_user hi hmsg

/-- An address under a mark: the message is dropped. -/
theorem Sound.drop (h : Sound s m) (hcov : m.Covers msg.address) :
    handleUser (radixIndex mem build) cfg s msg = .ok s := by
  simp [handleUser, h.lookup, MapIndex.lookup, hcov, bind, Except.bind]

/-- An absent address whose operator id resolves: a new actor gets the
message. -/
theorem Sound.create (h : Sound s m) (hmsg : msg.type = .user) (hcov : ¬ m.Covers msg.address)
    (hget : m.get msg.address = none) (hres : Resolves msg)
    (hkey : ∀ e ∈ entries s.actorTree.root,
      e.1 = loadKey msg.address ∨ Incomparable e.1 (loadKey msg.address)) :
    ∃ s' m', handleUser (radixIndex mem build) cfg s msg = .ok s' ∧ Sound s' m' ∧
      Handled s s' msg := by
  obtain ⟨code, op, hcode, hop⟩ := hres.newOperator cfg.stringToUnsignedInt
  obtain ⟨t, m', hins, href, hlive⟩ :=
    h.tree.insert_over_mark (Past.lenient mem) build s.actors.length hkey
  let a : Actor := { address := msg.address, op := op }
  let s₀ : State (ArtTree Nat) := { s with actors := s.actors ++ [a], actorTree := t }
  have hnew : s₀.Holds s.actors.length a := ⟨by simp [s₀], rfl⟩
  have hwake : (s₀.wake s.actors.length { a with mailbox := [msg] }).Holds s.actors.length
      { a with mailbox := [msg], isActive := true } :=
    hnew.put (b := { a with mailbox := [msg], isActive := true }) rfl
  refine ⟨s₀.wake s.actors.length { a with mailbox := [msg] }, m', ?_, ⟨href, ?_⟩,
    .created _ hwake rfl rfl⟩
  · simp only [handleUser, h.lookup, MapIndex.lookup, hcov, hget, get_simple, hcode, hop, bind,
      Except.bind, if_false]
    rw [if_neg (by decide), if_pos trivial]
    simp only [radixIndex, hins]
    exact deliver_of_user hnew hmsg
  · intro addr i hi
    rw [hlive, MapIndex.insert, List.mem_cons] at hi
    rcases hi with hi | hi
    · obtain ⟨rfl, rfl⟩ := Prod.mk.inj hi
      exact ⟨_, hwake, rfl, rfl⟩
    · obtain ⟨c, hc, ht, haddr⟩ := h.live addr i (List.mem_filter.mp hi).1
      have hold : s₀.LiveAt i addr := ⟨c, ⟨by
        simp only [s₀]
        rw [List.getElem?_append_left hc.lt]
        exact hc.1, hc.2⟩, ht, haddr⟩
      have hkeep : KeepsLive s₀ (s₀.wake s.actors.length { a with mailbox := [msg] }) :=
        .of_set hnew rfl fun _ => ⟨rfl, rfl, rfl⟩
      exact hkeep i addr hold

/-- An absent address whose operator id does not resolve. -/
theorem Sound.unresolved (h : Sound s m) (hcov : ¬ m.Covers msg.address)
    (hget : m.get msg.address = none) (hres : ¬ Resolves msg) :
    ∃ e, handleUser (radixIndex mem build) cfg s msg = .error e := by
  simp only [handleUser, h.lookup, MapIndex.lookup, hcov, hget, get_simple, bind, Except.bind,
    if_false]
  rw [if_neg (by decide), if_pos trivial]
  cases hcode : simpleCode (loadInt16 (msg.addrs 3) (msg.addrs 4)) with
  | error e => exact ⟨e, rfl⟩
  | ok code =>
      cases code with
      | none => exact ⟨_, rfl⟩
      | some code =>
          simp only [not_newOperator hres cfg.stringToUnsignedInt hcode]
          exact ⟨_, rfl⟩

/-- **USER messages**: where the operator id of an absent address resolves, the
message is handled and the invariant kept. -/
theorem Sound.handleUser (h : Sound s m) (hmsg : msg.type = .user)
    (hkey : Absent s.actorTree msg.address → ∀ e ∈ entries s.actorTree.root,
      e.1 = loadKey msg.address ∨ Incomparable e.1 (loadKey msg.address))
    (hres : Absent s.actorTree msg.address → Resolves msg) :
    ∃ s' m', handleUser (radixIndex mem build) cfg s msg = .ok s' ∧ Sound s' m' ∧
      Handled s s' msg := by
  by_cases hcov : m.Covers msg.address
  · exact ⟨s, m, h.drop mem build hcov, h, .discarded fun i a ha => ⟨a, ha, .inl rfl⟩⟩
  · cases hget : m.get msg.address with
    | some i =>
        obtain ⟨s', hrun, hs', hhandled⟩ := h.deliver mem build hmsg hcov hget
        exact ⟨s', m, hrun, hs', hhandled⟩
    | none =>
        have habs := (absent_iff h.tree).mpr ⟨hcov, hget⟩
        exact h.create mem build hmsg hcov hget (hres habs) (hkey habs)

/-- Where it does not resolve, the handler fails. -/
theorem Sound.resolves (h : Sound s m) {s' : State (ArtTree Nat)}
    (hrun : LightQuery.handleUser (radixIndex mem build) cfg s msg = .ok s')
    (habs : Absent s.actorTree msg.address) : Resolves msg := by
  by_contra hres
  obtain ⟨hcov, hget⟩ := (absent_iff h.tree).mp habs
  obtain ⟨e, herr⟩ : ∃ e, LightQuery.handleUser (radixIndex mem build) cfg s msg = .error e :=
    h.unresolved mem build hcov hget hres
  rw [herr] at hrun
  cases hrun

end User

/-! ## CANCEL_SCOPE messages -/

section Cancel

variable {σ : Type} {s : State σ} {i : Nat} {a : Actor}

/-- One child is stopped. -/
theorem stopFunc_spec (hi : s.Holds i a) : ∃ s', stopFunc s i = .ok s' ∧
    (∀ j addr, j ≠ i → s.LiveAt j addr → s'.LiveAt j addr) ∧
    (∀ j, (∃ b, s.Holds j b) → ∃ c, s'.Holds j c) ∧ NoneReceives s s' := by
  have hi' : State.Holds { s with numTerminatingChildren := s.numTerminatingChildren + 1 } i a := hi
  cases ht : a.terminating with
  | true =>
      have hrun : stopFunc s i =
          .ok { s with numTerminatingChildren := s.numTerminatingChildren + 1 } := by
        simp only [stopFunc, handleStopFromParent, hi'.deref, ht, bind, Except.bind, if_true]
      exact ⟨_, hrun, fun j addr hji hj => liveAt_handleStopFromParent hrun hji hj, fun j hj => hj,
        fun j b hb => ⟨b, hb, .inl rfl⟩⟩
  | false =>
      have hrun : stopFunc s i = .ok _ := handleStopFromParent_eq hi' ht
      refine ⟨_, hrun, fun j addr hji hj => liveAt_handleStopFromParent hrun hji hj, ?_, ?_⟩
      · rintro j ⟨b, hj⟩
        by_cases hji : j = i
        · rw [hji]
          exact ⟨_, hi.put (b := { a with terminating := true, mailbox := [], isActive := true })
            hi.2⟩
        · refine ⟨b, ?_, hj.2⟩
          rw [wake_actors, List.getElem?_set_ne (Ne.symm hji)]
          exact hj.1
      · intro j b hb
        by_cases hji : j = i
        · rw [hji, wake_actors, List.getElem?_set_self hi.lt] at hb
          refine ⟨a, hji ▸ hi.1, .inr ?_⟩
          rw [← Option.some.inj hb]
        · rw [wake_actors, List.getElem?_set_ne (Ne.symm hji)] at hb
          exact ⟨b, hb, .inl rfl⟩

/-- The children are stopped one after the other. -/
theorem foldlM_stopFunc_spec {targets : List Nat} (h : ∀ i ∈ targets, ∃ a, s.Holds i a) :
    ∃ s', targets.foldlM stopFunc s = .ok s' ∧
      (∀ j addr, j ∉ targets → s.LiveAt j addr → s'.LiveAt j addr) ∧ NoneReceives s s' := by
  induction targets generalizing s with
  | nil => exact ⟨s, rfl, fun _ _ _ hj => hj, fun j b hb => ⟨b, hb, .inl rfl⟩⟩
  | cons i targets ih =>
      obtain ⟨a, hi⟩ := h i List.mem_cons_self
      obtain ⟨s₁, hrun, hlive, hholds, hnone⟩ := stopFunc_spec hi
      obtain ⟨s', hrest, hlive', hnone'⟩ :=
        ih fun j hj => hholds j (h j (List.mem_cons_of_mem _ hj))
      refine ⟨s', ?_, fun j addr hj hl => ?_, hnone.trans hnone'⟩
      · rw [List.foldlM_cons, hrun]
        exact hrest
      · rw [List.mem_cons, not_or] at hj
        exact hlive' j addr hj.2 (hlive j addr hj.1 hl)

end Cancel

/-- The leaves that the iteration over a scope visits are those below it. -/
theorem iterPrefixApply_spec (mem : Nat → UInt8) (build : Build) {t : ArtTree Nat}
    {m : MapIndex Nat} (h : Refines t m) {p : List UInt8}
    (hno : ¬ ∃ path y, Skims p [] t.root path y ∧ Misread p path y) :
    ∃ targets, (radixIndex mem build).iterPrefixApply t p = .ok targets ∧
      ∀ i, i ∈ targets ↔ ∃ addr, (addr, i) ∈ m.live ∧ p <+: loadKey addr := by
  rcases h.wf with hnull | hwf
  · refine ⟨[], ?_, fun i => iff_of_false List.not_mem_nil ?_⟩
    · simp [radixIndex, RadixTreeIndex.iterPrefixApply, artIterActivePrefix, hnull, iterLoop]
    · rintro ⟨addr, hi, -⟩
      exact h.root_ne_null hi hnull
  · obtain ⟨targets, hrun, hperm⟩ := (iterExact_iff hwf (Nat.zero_le _)).mpr hno
    refine ⟨targets, iterLoop_of_strict _ hwf hrun, fun i => ?_⟩
    rw [hperm.mem_iff, live, List.mem_filterMap]
    constructor
    · rintro ⟨⟨q, o⟩, he, rfl⟩
      obtain ⟨hmem, hp⟩ := mem_below.mp he
      obtain ⟨addr, rfl, hlive⟩ := h.exists_of_live hmem
      exact ⟨addr, hlive, hp⟩
    · rintro ⟨addr, hlive, hp⟩
      exact ⟨(loadKey addr, some i), mem_below.mpr ⟨h.mem_live_iff.mp hlive, hp⟩, rfl⟩

/-- **CANCEL_SCOPE messages**: the handler stops the actors below the scope and
disables it. -/
theorem Sound.handleScopeCancellation (mem : Nat → UInt8) (build : Build)
    {s : State (ArtTree Nat)} {m : MapIndex Nat} (h : Sound s m) {p : List UInt8} (hne : p ≠ [])
    (hkey : ∀ q v, (q, some v) ∈ entries s.actorTree.root → q <+: p → q = p)
    (hno : ¬ ∃ path y, Skims p [] s.actorTree.root path y ∧ Misread p path y) :
    ∃ s' m', handleScopeCancellation (radixIndex mem build) s p = .ok s' ∧ Sound s' m' ∧
      NoneReceives s s' := by
  obtain ⟨targets, hiter, htargets⟩ := iterPrefixApply_spec mem build h.tree hno
  have hheld : ∀ i ∈ targets, ∃ a, s.Holds i a := fun i hi => by
    obtain ⟨addr, hmem, -⟩ := (htargets i).mp hi
    obtain ⟨a, ha, -⟩ := h.live addr i hmem
    exact ⟨a, ha⟩
  obtain ⟨s₁, hfold, hlive, hnone⟩ := foldlM_stopFunc_spec hheld
  have htree : s₁.actorTree = s.actorTree :=
    (treeFree_foldlM_stopFunc targets).actorTree_eq hfold
  by_cases hroot : s.actorTree.root = .null
  · -- there is nothing to stop, and no mark is left
    have hdis : (radixIndex mem build).disable s.actorTree p = .ok s.actorTree := by
      simp [radixIndex, RadixTreeIndex.disable, artDisable_of_null _ _ hroot, bind, Except.bind]
    refine ⟨{ s₁ with actorTree := s.actorTree }, m, ?_, ⟨h.tree, fun addr i hi => ?_⟩, hnone⟩
    · simp only [LightQuery.handleScopeCancellation, hiter, hfold, htree, hdis, bind, Except.bind]
    · exact absurd hroot (h.tree.root_ne_null hi)
  · obtain ⟨t, hdis, hcut⟩ := h.cut mem build hroot (readsInside_of_ne_nil hne _) hkey
    refine ⟨{ s₁ with actorTree := t }, m.cut p, ?_, hcut _ rfl fun addr i hi hnot => ?_, hnone⟩
    · simp only [LightQuery.handleScopeCancellation, hiter, hfold, htree, hdis, bind, Except.bind]
    · refine hlive i addr (fun hmem => ?_) (h.live addr i hi)
      obtain ⟨b, hb, hp⟩ := (htargets i).mp hmem
      obtain ⟨a, ha, -, haddr⟩ := h.live addr i hi
      obtain ⟨c, hc, -, haddr'⟩ := h.live b i hb
      obtain rfl : a = c := Option.some.inj (ha.1.symm.trans hc.1)
      rw [← haddr, haddr'] at hnot
      exact hnot hp

/-! ## messages of any type -/

/-- The tree is in order for a message: an absent address is comparable to no
key but a mark of its own, and a scope that is cancelled extends no stored key
and misleads no iteration. -/
structure Indexed (cfg : Config) (t : ArtTree Nat) (msg : TagMessage) : Prop where
  user : msg.type = .user → Absent t msg.address → ∀ e ∈ entries t.root,
    e.1 = loadKey msg.address ∨ Incomparable e.1 (loadKey msg.address)
  key : msg.type = .cancelScope → cfg.addrLen < msg.addrLen →
    ∀ q v, (q, some v) ∈ entries t.root → q <+: msg.address → q = msg.address
  scope : msg.type = .cancelScope → cfg.addrLen < msg.addrLen →
    ¬ ∃ path y, Skims msg.address [] t.root path y ∧ Misread msg.address path y

/-- The message can be decoded: an address that is read fits the address field,
and the operator id of an absent one resolves. -/
structure Decodes (cfg : Config) (t : ArtTree Nat) (msg : TagMessage) : Prop where
  fits : ReadsAddress cfg msg → msg.addrLen < maxAddrLen
  resolves : msg.type = .user → Absent t msg.address → Resolves msg

section Messages

variable {cfg : Config} {mem : Nat → UInt8} {build : Build} {s s' : State (ArtTree Nat)}
  {m : MapIndex Nat} {msg : TagMessage} {rest : List TagMessage}

/-- **Message lemma**: a message whose operator id resolves is handled, and the
invariant is kept. -/
theorem Sound.handleMessage (mem : Nat → UInt8) (build : Build) (h : Sound s m)
    (hidx : Indexed cfg s.actorTree msg)
    (hres : msg.type = .user → Absent s.actorTree msg.address → Resolves msg) :
    ∃ s' m', handleMessage (radixIndex mem build) cfg s msg = .ok s' ∧ Sound s' m' ∧
      Handled s s' msg := by
  rw [LightQuery.handleMessage]
  cases hmsg : msg.type with
  | user => exact h.handleUser mem build hmsg (hidx.user hmsg) (hres hmsg)
  | cancelScope =>
      by_cases hlen : cfg.addrLen < msg.addrLen
      · have hne : msg.address ≠ [] := by
          rw [← List.length_pos_iff, msg.length_address]
          omega
        obtain ⟨s', m', hrun, hs', hnone⟩ := h.handleScopeCancellation mem build hne
          (hidx.key hmsg hlen) (hidx.scope hmsg hlen)
        simp only [gt_iff_lt, hlen, if_true]
        exact ⟨s', m', hrun, hs', .discarded hnone⟩
      · simp only [gt_iff_lt, hlen, if_false]
        exact ⟨s, m, rfl, h, .discarded fun i a ha => ⟨a, ha, .inl rfl⟩⟩
  | _ => exact ⟨_, m, rfl, h.congr rfl (.of_actors rfl), .discarded fun i a ha => ⟨a, ha, .inl rfl⟩⟩

/-- A message that is handled resolves. -/
theorem Sound.resolves_of_handled (h : Sound s m)
    (hrun : LightQuery.handleMessage (radixIndex mem build) cfg s msg = .ok s')
    (hmsg : msg.type = .user) (habs : Absent s.actorTree msg.address) : Resolves msg := by
  rw [LightQuery.handleMessage, hmsg] at hrun
  exact h.resolves mem build hrun habs

/-- A message less in the mailbox. -/
theorem Sound.pop (h : Sound s m) (rest : List TagMessage) :
    Sound { s with mailbox := rest } m := h.congr rfl (.of_actors rfl)

end Messages

/-! ## runs -/

/-- The tree is in order for the next step: for the message that is handled, and
for the disabling of a running actor's address. -/
structure InOrder (cfg : Config) (s : State (ArtTree Nat)) : Prop where
  message : ∀ msg rest, s.pc = .mailbox → s.mailbox = msg :: rest → Indexed cfg s.actorTree msg
  running : ∀ i a, s.pc = .running i → s.actors[i]? = some a →
    ReadsInside [] a.address s.actorTree.root

/-- What happens to a dataflow whose tree is in order: any messages come in at
any time, and stray reads return anything. -/
def InOrderMove (build : Build) (cfg : Config) (s s' : State (ArtTree Nat)) : Prop :=
  ∃ mem, Move (radixIndex mem build) cfg (fun _ => True) (InOrder cfg) s s'

section Runs

variable {cfg : Config} {mem : Nat → UInt8} {build : Build} {s s' : State (ArtTree Nat)}
  {m : MapIndex Nat} {msg : TagMessage} {rest : List TagMessage}

/-- **Step lemma**: a step keeps the invariant. -/
theorem Sound.step (h : Sound s m) (hs : InOrder cfg s)
    (hstep : step (radixIndex mem build) cfg s = .ok s') : ∃ m', Sound s' m' := by
  cases hpc : s.pc with
  | mailbox =>
      cases hbox : s.mailbox with
      | nil =>
          rw [step_mailbox_nil hpc hbox] at hstep
          cases hstep
          exact ⟨m, h.congr rfl (.of_actors rfl)⟩
      | cons msg rest =>
          rw [step_mailbox_cons hpc hbox] at hstep
          obtain ⟨s₁, m', hrun, hs₁, -⟩ := (h.pop rest).handleMessage mem build
            (hs.message msg rest hpc hbox) ((h.pop rest).resolves_of_handled hstep)
          obtain rfl : s' = s₁ := Except.ok.inj (hstep.symm.trans hrun)
          exact ⟨m', hs₁⟩
  | tasks =>
      rw [step_tasks hpc] at hstep
      exact ⟨m, h.congr ((treeFree_nextTask cfg).actorTree_eq hstep) (keepsLive_nextTask hstep)⟩
  | running i =>
      rw [step_running hpc] at hstep
      exact h.runChild (fun a ha => hs.running i a hpc (getElem?_of_deref ha)) hstep
  | returned =>
      rw [LightQuery.step, hpc] at hstep
      cases hstep
      exact ⟨m, h⟩

/-- **Run lemma**: the invariant holds along every run in order. -/
theorem sound_of_moves
    (h : ReflTransGen (InOrderMove build cfg) { actorTree := ArtTree.init } s) :
    ∃ m, Sound s m := by
  induction h with
  | refl => exact ⟨_, sound_init⟩
  | tail _ hmove ih =>
      obtain ⟨m, h⟩ := ih
      obtain ⟨mem, hmove⟩ := hmove
      cases hmove with
      | enqueue msg => exact ⟨m, h.congr rfl (.of_actors rfl)⟩
      | step _ _ hs hstep => exact h.step hs hstep
      | call => exact ⟨m, h.congr rfl (.of_actors rfl)⟩

/-- The step that takes the message off reads nothing outside its address field
and ends with the message handled. -/
def DispatchesSafely (index : ActorIndex (ArtTree Nat)) (cfg : Config) (s : State (ArtTree Nat))
    (msg : TagMessage) (rest : List TagMessage) : Prop :=
  ∃ s', step index cfg s = .ok s' ∧
    handleMessageIn Past.strict index cfg { s with mailbox := rest } msg = .ok s' ∧
    Handled s s' msg

/-- **Dispatch is safe** in every state of a run in order, if and only if the
message can be decoded. -/
theorem dispatch_safe_iff
    (hreach : ReflTransGen (InOrderMove build cfg) { actorTree := ArtTree.init } s)
    (hpc : s.pc = .mailbox) (hbox : s.mailbox = msg :: rest)
    (hidx : Indexed cfg s.actorTree msg) (mem : Nat → UInt8) :
    DispatchesSafely (radixIndex mem build) cfg s msg rest ↔ Decodes cfg s.actorTree msg := by
  obtain ⟨m, h⟩ := sound_of_moves hreach
  constructor
  · rintro ⟨s', -, hrun, -⟩
    obtain ⟨hfits, hrun⟩ := handleMessageIn_strict_iff.mp hrun
    exact ⟨hfits, (h.pop rest).resolves_of_handled hrun⟩
  · intro hdec
    obtain ⟨s', m', hrun, -, hhandled⟩ :=
      (h.pop rest).handleMessage mem build hidx hdec.resolves
    refine ⟨s', by rw [step_mailbox_cons hpc hbox, hrun],
      handleMessageIn_strict_iff.mpr ⟨hdec.fits, hrun⟩, ?_⟩
    cases hhandled with
    | delivered i a b hi ha hi' hb hbox => exact .delivered i a b hi ha hi' hb hbox
    | created b hi' hb hbox => exact .created b hi' hb hbox
    | discarded hnone => exact .discarded hnone

end Runs

/-- A USER message and the cancellation of its scope: the hypotheses of
`dispatch_safe_iff` can be met, and its condition too. -/
theorem dispatch_safe_iff_chain : ∃ s : State (ArtTree Nat), s.actors.length = 1 ∧
    DispatchesSafely (radixIndex (fun _ => 0) .sse2) chain s (cancellation [7, 0, 0]) [] := by
  obtain ⟨s, hfirst, hbox, hpc, hroot, hlen⟩ :
      ∃ s, step (radixIndex (fun _ => 0) .sse2) chain (State.start ArtTree.init
          [nodesFor [⟨1, 1⟩], cancellation [7, 0, 0]]) = .ok s ∧
        s.mailbox = [cancellation [7, 0, 0]] ∧ s.pc = .mailbox ∧
        s.actorTree.root = .leaf (makeLeaf [7, 0, 0, 0, 0] (some 0)) ∧ s.actors.length = 1 :=
    ⟨_, rfl, rfl, rfl, rfl, rfl⟩
  have hstart : InOrder chain (State.start ArtTree.init
      [nodesFor [⟨1, 1⟩], cancellation [7, 0, 0]]) := by
    refine ⟨fun msg rest _ hmsg => ?_, fun i a hr => (by cases hr)⟩
    obtain ⟨rfl, -⟩ := List.cons.inj hmsg
    exact ⟨fun _ _ e he => (by cases he), fun hcancel => (by cases hcancel),
      fun hcancel => (by cases hcancel)⟩
  have hidx : Indexed chain s.actorTree (cancellation [7, 0, 0]) := by
    refine ⟨fun huser => (by cases huser), fun _ _ q v hq hqp => ?_, fun _ _ => ?_⟩
    · rw [hroot] at hq
      obtain ⟨rfl, -⟩ := Prod.mk.inj (List.mem_singleton.mp hq)
      exact absurd hqp.length_le (by decide)
    · rw [hroot]
      rintro ⟨path, y, hskims, hmisread⟩
      cases hskims
      exact hmisread
  have hdec : Decodes chain s.actorTree (cancellation [7, 0, 0]) :=
    ⟨fun _ => by decide, fun huser => (by cases huser)⟩
  have hreach : ReflTransGen (InOrderMove .sse2 chain) { actorTree := ArtTree.init } s := by
    refine (ReflTransGen.mono (fun _ _ h => ⟨fun _ => 0, h⟩) _ _
      (moves_start ArtTree.init fun _ _ => trivial)).tail
      ⟨fun _ => 0, .step s (fun h => by cases h) hstart hfirst⟩
  exact ⟨s, hlen, (dispatch_safe_iff hreach hpc hbox hidx _).mpr hdec⟩

/-- A USER message for operator 5 in a new dataflow: the simple tree has two
operators. -/
theorem dispatch_out_of_range : ¬ ∀ (s : State (ArtTree Nat)) (msg : TagMessage)
    (rest : List TagMessage),
    ReflTransGen (Move (radixIndex (fun _ => 0) .sse2) chain (fun _ => True) fun _ => True)
      { actorTree := ArtTree.init } s →
    s.pc = .mailbox → s.mailbox = msg :: rest →
    DispatchesSafely (radixIndex (fun _ => 0) .sse2) chain s msg rest := by
  intro hall
  obtain ⟨s', hstep, -⟩ := hall
    (State.start ArtTree.init [⟨.user, TagMessage.writeAddrs [7, 0, 5, 0], some ⟨.eos, []⟩⟩]) _ []
    (moves_start ArtTree.init fun _ _ => trivial) rfl rfl
  have herr : step (radixIndex (fun _ => 0) .sse2) chain (State.start ArtTree.init
      [⟨.user, TagMessage.writeAddrs [7, 0, 5, 0], some ⟨.eos, []⟩⟩]) = .error .opCodeIndex := rfl
  rw [herr] at hstep
  cases hstep

end LightQuery
