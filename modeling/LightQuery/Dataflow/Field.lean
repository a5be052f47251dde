import LightQuery.Dataflow.Addresses
import LightQuery.Dataflow.State

/-!
# LightQuery.Dataflow.Field

`process_mailbox` with reads that may leave the address field of its message.

The handlers of `LightQuery.Dataflow.State` see the memory behind the field.
Here they are given once more over the field alone, with `past` for what is
behind it: with that memory they are the same (`handleMessageIn_lenient`), and
they stay inside the field if and only if the length byte fits
(`handleMessageIn_strict_iff`).
-/

namespace LightQuery

/-- The bytes of the address field. -/
def TagMessage.field (msg : TagMessage) : List UInt8 := (List.range maxAddrLen).map msg.addrs

@[simp] theorem TagMessage.length_field (msg : TagMessage) : msg.field.length = maxAddrLen := by
  simp [TagMessage.field]

theorem TagMessage.getElem?_field (msg : TagMessage) {i : Nat} (hi : i < maxAddrLen) :
    msg.field[i]? = some (msg.addrs i) := by
  simp [TagMessage.field, hi]

/-! ## the handlers -/

section Handlers

variable {σ : Type} (past : Past) (index : ActorIndex σ) (cfg : Config)

/-- The USER case of `process_mailbox`. -/
def handleUserIn (s : State σ) (msg : TagMessage) : Except Fault (State σ) := do
  let addr ← readBytes past msg.field 1 msg.addrLen
  let (search, childPtr) ← index.lookup s.actorTree addr
  if search = 1 then
    match childPtr with
    | some child => deliver s child msg
    | none => .error .nullChild
  else if search = 0 then
    match ← dummyInsertSimple.getIn (fun i => past (i + 1)) (msg.field.drop 1) 0 with
    | none => .error .nullCode
    | some code =>
        match ← newOperator cfg.stringToUnsignedInt addr code with
        | none => .error .nullChild
        | some op => do
            let child := s.actors.length
            let tree ← index.insert s.actorTree addr child
            deliver { s with actors := s.actors ++ [{ address := addr, op := op }],
                             actorTree := tree } child msg
  else if search = -1 then .ok s
  else .error .nullChild

/-- The loop of `process_mailbox` on the message that it takes off. -/
def handleMessageIn (s : State σ) (msg : TagMessage) : Except Fault (State σ) :=
  match msg.type with
  | .user => handleUserIn past index cfg s msg
  | .cancelScope =>
      if msg.addrLen > cfg.addrLen then do
        let p ← readBytes past msg.field 1 msg.addrLen
        handleScopeCancellation index s p
      else .ok s
  | _ => .ok { s with cout := s.cout ++ [(none, .undefinedType)] }

end Handlers

/-! ## the code of an operator id -/

/-- The code of an operator id in the simple tree. -/
def simpleCode (id : Int16) : Except Fault (Option Code) :=
  if id = 0 then .ok (some codeOut)
  else if id = 1 then .ok (some codeLimit)
  else .error .opCodeIndex

/-- The simple tree at the operator id of the address. -/
theorem getIn_simple (past : Past) {addr : List UInt8} {lo hi : UInt8} (hlo : addr[2]? = some lo)
    (hhi : addr[3]? = some hi) :
    dummyInsertSimple.getIn past addr 0 = simpleCode (loadInt16 lo hi) := by
  simp only [dummyInsertSimple, OpNode.getIn, readByte, hlo, hhi, bind, Except.bind,
    OpNode.getInAt_eq]
  rw [simpleCode]
  generalize loadInt16 lo hi = id
  by_cases hzero : id = 0
  · rw [hzero]
    rfl
  · by_cases hone : id = 1
    · rw [hone]
      rfl
    · have hzero' : id.toInt ≠ 0 := fun h => hzero (Int16.toInt_inj.mp h)
      have hone' : id.toInt ≠ 1 := fun h => hone (Int16.toInt_inj.mp h)
      rw [if_neg hzero, if_neg hone]
      split
      · rfl
      · have hlen : [OpNode.mk 4 [] (some codeOut), .mk 4 [] (some codeLimit)].length ≤
            id.toInt.toNat := by
          simp only [List.length_cons, List.length_nil]
          omega
        rw [List.getElem?_eq_none hlen]

/-- The walk stays inside the field, whatever the length byte is. -/
theorem getIn_field (past : Past) (msg : TagMessage) :
    dummyInsertSimple.getIn past (msg.field.drop 1) 0 =
      simpleCode (loadInt16 (msg.addrs 3) (msg.addrs 4)) := by
  refine getIn_simple past ?_ ?_
  · rw [List.getElem?_drop, msg.getElem?_field (by decide)]
  · rw [List.getElem?_drop, msg.getElem?_field (by decide)]

theorem get_simple (msg : TagMessage) :
    dummyInsertSimple.get (fun i => msg.addrs (i + 1)) 0 =
      simpleCode (loadInt16 (msg.addrs 3) (msg.addrs 4)) := by
  have hmem : (fun i => ((msg.field.drop 1)[i]?).getD (msg.addrs (i + 1))) =
      fun i => msg.addrs (i + 1) := by
    funext i
    rw [List.getElem?_drop, Nat.add_comm]
    by_cases hi : i + 1 < maxAddrLen
    · rw [msg.getElem?_field hi]
      rfl
    · rw [List.getElem?_eq_none (by rw [msg.length_field]; omega)]
      rfl
  rw [← hmem, ← OpNode.getIn_lenient, getIn_field]

/-! ## reads of the address -/

/-- A message whose handling reads the address. -/
def ReadsAddress (cfg : Config) (msg : TagMessage) : Prop :=
  msg.type = .user ∨ msg.type = .cancelScope ∧ cfg.addrLen < msg.addrLen

/-- An address that fits is read from the field. -/
theorem readBytes_field (past : Past) {msg : TagMessage} (h : msg.addrLen < maxAddrLen) :
    readBytes past msg.field 1 msg.addrLen = .ok msg.address := by
  rw [readBytes_eq past msg.field 1 msg.addrLen (by rw [msg.length_field]; omega)]
  refine congrArg Except.ok (List.ext_getElem (by simp [maxAddrLen] at h ⊢; omega) ?_)
  intro i h₁ h₂
  simp [TagMessage.field, TagMessage.address]

/-- With the memory behind the field any address is read. -/
theorem readBytes_field_lenient (msg : TagMessage) :
    readBytes (Past.lenient msg.addrs) msg.field 1 msg.addrLen = .ok msg.address := by
  have hread : ∀ i, readByte (Past.lenient msg.addrs) msg.field i = .ok (msg.addrs i) := by
    intro i
    rw [readByte_lenient]
    by_cases hi : i < maxAddrLen
    · rw [msg.getElem?_field hi]
      rfl
    · rw [List.getElem?_eq_none (by rw [msg.length_field]; omega)]
      rfl
  have hbytes : ∀ off n, readBytes (Past.lenient msg.addrs) msg.field off n =
      .ok ((List.range n).map fun i => msg.addrs (i + off)) := by
    intro off n
    induction n generalizing off with
    | zero => rfl
    | succ n ih =>
        rw [readBytes, hread, ih, List.range_succ_eq_map]
        simp [bind, Except.bind, Function.comp_def, Nat.add_assoc, Nat.add_comm 1 off]
  exact hbytes 1 msg.addrLen

/-- An address that is read from the field fits. -/
theorem lt_of_readBytes_field {msg : TagMessage} {addr : List UInt8}
    (h : readBytes Past.strict msg.field 1 msg.addrLen = .ok addr) :
    msg.addrLen < maxAddrLen := by
  rcases Nat.eq_zero_or_pos msg.addrLen with hzero | hpos
  · rw [hzero]
    decide
  · have := le_of_readBytes_strict hpos h
    rw [msg.length_field] at this
    omega

section Handlers

variable {σ : Type} {index : ActorIndex σ} {cfg : Config} {s s' : State σ} {msg : TagMessage}

/-- What the reads of the address yield decides what the handlers do. -/
theorem handleMessageIn_of_read {past : Past}
    (h : ReadsAddress cfg msg → readBytes past msg.field 1 msg.addrLen = .ok msg.address) :
    handleMessageIn past index cfg s msg = handleMessage index cfg s msg := by
  rw [handleMessageIn, handleMessage]
  cases hmsg : msg.type with
  | user =>
      have hwalk : dummyInsertSimple.getIn (fun i => past (i + 1)) (msg.field.drop 1) 0 =
          dummyInsertSimple.get (fun i => msg.addrs (i + 1)) 0 := by
        rw [getIn_field, get_simple]
      unfold handleUserIn handleUser
      rewrite [h (.inl hmsg), hwalk]
      rfl
  | cancelScope =>
      by_cases hlen : cfg.addrLen < msg.addrLen
      · simp only [gt_iff_lt, hlen, if_true, h (.inr ⟨hmsg, hlen⟩), bind, Except.bind]
      · simp only [gt_iff_lt, hlen, if_false]
  | _ => rfl

/-- **The handlers see the memory behind the field.** -/
theorem handleMessageIn_lenient :
    handleMessageIn (Past.lenient msg.addrs) index cfg s msg = handleMessage index cfg s msg :=
  handleMessageIn_of_read fun _ => readBytes_field_lenient msg

/-- **The handlers stay inside the field** if and only if the address fits. -/
theorem handleMessageIn_strict_iff :
    handleMessageIn Past.strict index cfg s msg = .ok s' ↔
      (ReadsAddress cfg msg → msg.addrLen < maxAddrLen) ∧
        handleMessage index cfg s msg = .ok s' := by
  by_cases hfits : ReadsAddress cfg msg → msg.addrLen < maxAddrLen
  · rw [handleMessageIn_of_read fun h => readBytes_field Past.strict (hfits h)]
    exact ⟨fun h => ⟨hfits, h⟩, fun h => h.2⟩
  · refine iff_of_false (fun h => hfits fun hreads => ?_) fun h => hfits h.1
    cases hread : readBytes Past.strict msg.field 1 msg.addrLen with
    | ok addr => exact lt_of_readBytes_field hread
    | error e =>
        rw [handleMessageIn] at h
        rcases hreads with hmsg | ⟨hmsg, hlen⟩
        · simp [hmsg, handleUserIn, hread, bind, Except.bind] at h
        · simp [hmsg, hlen, hread, bind, Except.bind] at h

end Handlers

end LightQuery
