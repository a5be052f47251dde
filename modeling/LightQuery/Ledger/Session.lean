import LightQuery.Art.IterPrefix
import LightQuery.Ledger.Removal

/-!
# LightQuery.Ledger.Session

Whole lives of an index, over all its methods.

A session lists the calls from the constructor on, `remove_prefix` and the
reading ones too, with the tree, the actions on the heap and the blocks that
nothing points to any more.  Updates keep to the address format; a
`remove_prefix` may be given any prefix, and counts as a step where it returns.
In every session the tree is well formed, and the live blocks are those of the
tree and of the leaks: the key buffers of `loadKey` and `loadPrefix`, which no
method frees, and the root leaves that `remove_prefix` dropped.
-/

namespace LightQuery

open Heap PrefixFamily

variable {V : Type}

/-! ## calls -/

/-- A call of a method of `radix_tree_index`. -/
inductive IndexCall (V : Type) where
  | update (op : IndexOp V)
  | removePrefix (p : List UInt8)
  | get (key : List UInt8)
  | contains (key : List UInt8)
  | lookup (key : List UInt8)
  | iterPrefixApply (p : List UInt8)
  | iterApply
  | getSize

namespace IndexCall

/-- The index after a call. -/
def exec (past : Past) (build : Build) (t : ArtTree V) : IndexCall V → Except Fault (ArtTree V)
  | .update op => op.exec past build t
  | .removePrefix p => do
      let (t, _) ← RadixTreeIndex.removePrefix past t p
      .ok t
  | .get key => do
      let _ ← RadixTreeIndex.get past t key
      .ok t
  | .contains key => do
      let _ ← RadixTreeIndex.contains past t key
      .ok t
  | .lookup key => do
      let _ ← RadixTreeIndex.lookup past t key
      .ok t
  | .iterPrefixApply p => do
      let _ ← RadixTreeIndex.iterPrefixApply past t p
      .ok t
  | .iterApply | .getSize => .ok t

/-- The array that `loadKey` or `loadPrefix` makes for the call. -/
def buffer : IndexCall V → List Block
  | .update (.insert key _) | .update (.removeKey key) | .get key | .contains key | .lookup key =>
      [.buffer (loadKey key).length]
  | .update (.disable p) | .removePrefix p | .iterPrefixApply p => [.buffer p.length]
  | .iterApply | .getSize => []

/-- What the call allocates and frees below the tree. -/
def treeActions (past : Past) (t : ArtTree V) : IndexCall V → Except Fault (List (Action Block))
  | .update (.insert key _) => insertActions past (loadKey key) t.root 0
  | .update (.disable p) => if t.root.isNull then .ok [] else disableActions past p t.root 0
  | .update (.removeKey key) => deleteActions past t (loadKey key)
  | .removePrefix p => deletePrefixActions past t p
  | _ => .ok []

/-- What the call allocates and frees. -/
def actions (past : Past) (t : ArtTree V) (call : IndexCall V) :
    Except Fault (List (Action Block)) := do
  let as ← call.treeActions past t
  .ok (call.buffer.map .alloc ++ as)

/-- The blocks that nothing points to after the call. -/
def leaks (t : ArtTree V) (call : IndexCall V) : List Block :=
  call.buffer ++
    match call with
    | .removePrefix p => deletePrefixLeaks t p
    | _ => []

/-- The update that a call makes. -/
def update? : IndexCall V → Option (IndexOp V)
  | .update op => some op
  | _ => none

end IndexCall

/-- `radix_tree_index()`. -/
def constructActions : List (Action Block) := [.alloc .tree]

/-- `~radix_tree_index()`: `destroy_art_tree(_tree)`, then `delete _tree`. -/
def destructActions (t : ArtTree V) : List (Action Block) :=
  destroyActions t.root ++ [.free .tree]

/-- The updates among the calls. -/
def updates (calls : List (IndexCall V)) : List (IndexOp V) := calls.filterMap IndexCall.update?

/-! ## one call -/

theorem insert_actions {past : Past} {build : Build} {t t' : ArtTree V} (hwf : t.WF)
    {key : List UInt8} {value : Option V}
    (hrun : RadixTreeIndex.insert past build t key value = .ok t') :
    ∃ as, insertActions past (loadKey key) t.root 0 = .ok as ∧
      Turns as (blocks t.root) (blocks t'.root) := by
  obtain ⟨r, hr, hrun⟩ := exists_of_bind_ok hrun
  obtain ⟨s, hs, hr⟩ := exists_of_bind_ok hr
  cases hr
  cases hrun
  rcases hwf with hnull | hwf
  · rw [hnull] at hs ⊢
    cases hs
    exact ⟨_, rfl, .alloc .nil⟩
  · obtain ⟨as, has, hturn, -⟩ := insert_turns hwf hs
    exact ⟨as, has, hturn⟩

theorem disable_actions {past : Past} {build : Build} {t t' : ArtTree V} (hwf : t.WF)
    {p : List UInt8} {ret : Int} (hrun : RadixTreeIndex.disable past build t p = .ok (t', ret)) :
    ∃ as, (if t.root.isNull then .ok [] else disableActions past p t.root 0) = .ok as ∧
      Turns as (blocks t.root) (blocks t'.root) := by
  rw [RadixTreeIndex.disable, artDisable] at hrun
  split at hrun
  · next hnull =>
      cases hrun
      exact ⟨[], by rw [if_pos hnull], .nil⟩
  · next hnull =>
      obtain ⟨r, hr, hrun⟩ := exists_of_bind_ok hrun
      cases hrun
      rcases hwf with h | hwf
      · rw [h] at hnull
        exact absurd rfl hnull
      · obtain ⟨as, has, hturn, -⟩ := disable_turns hwf hr
        exact ⟨as, by rw [if_neg hnull, has], hturn⟩

/-- What the tree does, with the key buffer that stays behind. -/
theorem buffered {past : Past} {t t' : ArtTree V} {call : IndexCall V} {as : List (Action Block)}
    {E : List Block} (has : call.treeActions past t = .ok as)
    (hturn : Turns as (blocks t.root) (blocks t'.root ++ E)) :
    ∃ bs, call.actions past t = .ok bs ∧
      Turns bs (blocks t.root) (blocks t'.root ++ (call.buffer ++ E)) := by
  refine ⟨call.buffer.map .alloc ++ as, by rw [IndexCall.actions, has]; rfl, ?_⟩
  have hbuffer := (Turns.allocs call.buffer (blocks t.root)).congr (List.Perm.refl _)
    List.perm_append_comm
  refine (hbuffer.append (hturn.frame call.buffer)).congr (List.Perm.refl _) ?_
  rw [List.append_assoc]
  exact List.perm_append_comm.append_left _

/-- **Every call that returns accounts for its blocks.** -/
theorem call_turns {past : Past} {build : Build} {t t' : ArtTree V} (hwf : t.WF)
    {c : IndexCall V} (hrun : c.exec past build t = .ok t') :
    ∃ as, c.actions past t = .ok as ∧
      Turns as (blocks t.root) (blocks t'.root ++ c.leaks t) := by
  -- a call that only reads allocates its buffer
  have hread : t' = t → c.treeActions past t = .ok [] →
      ∃ as, c.actions past t = .ok as ∧
        Turns as (blocks t.root) (blocks t'.root ++ (c.buffer ++ [])) := by
    rintro rfl has
    exact buffered has (by rw [List.append_nil]; exact .nil)
  cases c with
  | update op =>
      cases op with
      | insert key value =>
          obtain ⟨as, has, hturn⟩ := insert_actions hwf hrun
          exact buffered has (by rwa [List.append_nil])
      | disable p =>
          obtain ⟨r, hr, hrun⟩ := exists_of_bind_ok hrun
          cases hrun
          obtain ⟨as, has, hturn⟩ := disable_actions hwf hr
          exact buffered has (by rwa [List.append_nil])
      | removeKey key =>
          obtain ⟨r, hr, hrun⟩ := exists_of_bind_ok hrun
          cases hrun
          obtain ⟨as, has, hturn⟩ := delete_turns hwf hr
          exact buffered has (by rwa [List.append_nil])
  | removePrefix p =>
      obtain ⟨r, hr, hrun⟩ := exists_of_bind_ok hrun
      cases hrun
      obtain ⟨as, has, hturn⟩ := deletePrefix_turns hwf hr
      exact buffered has hturn
  | get key | contains key | lookup key | iterPrefixApply p =>
      obtain ⟨r, -, hrun⟩ := exists_of_bind_ok hrun
      cases hrun
      exact hread rfl rfl
  | iterApply | getSize =>
      cases hrun
      exact hread rfl rfl

/-! ## sessions -/

/-- The sessions of an index whose updates keep to the address format: the
calls, newest first, the tree, the actions since the constructor and the leaked
blocks. -/
inductive Session (build : Build) : List (IndexCall V) → ArtTree V → List (Action Block) →
    List Block → Prop
  | construct : Session build [] ArtTree.init constructActions []
  | call {calls : List (IndexCall V)} {t t' : ArtTree V} {as bs : List (Action Block)}
      {leaked : List Block} {c : IndexCall V} (mem : Nat → UInt8)
      (h : Session build calls t as leaked)
      (hformat : ∀ op, c.update? = some op → FormatStep (updates calls) t op)
      (hexec : c.exec (Past.lenient mem) build t = .ok t')
      (hactions : c.actions (Past.lenient mem) t = .ok bs) :
      Session build (c :: calls) t' (as ++ bs) (c.leaks t ++ leaked)

/-- A prefix removal keeps the entries traced. -/
theorem Traced.removePrefix {ops : List (IndexOp V)} {t t' : ArtTree V} (h : Traced ops t)
    {past : Past} {p : List UInt8} {ret : Nat}
    (hrun : RadixTreeIndex.removePrefix past t p = .ok (t', ret)) : Traced ops t' := by
  obtain ⟨hwf, -, hkeep | ⟨q, hperm, -⟩⟩ := artDeletePrefix_spec h.wf hrun
  · exact hkeep.1 ▸ h
  · exact ⟨hwf, fun e he => h.trace e (mem_prune.mp (hperm.mem_iff.mp he)).1⟩

/-- A call keeps the entries traced. -/
theorem Traced.call {build : Build} {calls : List (IndexCall V)} {t t' : ArtTree V}
    (h : Traced (updates calls) t) {c : IndexCall V} {mem : Nat → UInt8}
    (hformat : ∀ op, c.update? = some op → FormatStep (updates calls) t op)
    (hexec : c.exec (Past.lenient mem) build t = .ok t') : Traced (updates (c :: calls)) t' := by
  cases c with
  | update op =>
      obtain ⟨t'', hrun, htr⟩ := formatStep_spec h (hformat op rfl) mem
      have : t'' = t' := Except.ok.inj (hrun.symm.trans hexec)
      exact this ▸ htr
  | removePrefix p =>
      obtain ⟨r, hr, hexec⟩ := exists_of_bind_ok hexec
      cases hexec
      exact h.removePrefix hr
  | get key | contains key | lookup key | iterPrefixApply p =>
      obtain ⟨r, -, hexec⟩ := exists_of_bind_ok hexec
      cases hexec
      exact h
  | iterApply | getSize =>
      cases hexec
      exact h

/-- A call leaks key buffers and leaves only. -/
theorem isInner_of_mem_leaks (t : ArtTree V) (c : IndexCall V) {b : Block} (hb : b ∈ c.leaks t) :
    b.isInner = false := by
  rcases List.mem_append.mp hb with hb | hb
  · cases c with
    | update op => cases op <;> rw [List.mem_singleton.mp hb] <;> rfl
    | iterApply | getSize => cases hb
    | _ => rw [List.mem_singleton.mp hb]; rfl
  · cases c with
    | removePrefix p =>
        dsimp only at hb
        unfold deletePrefixLeaks at hb
        split at hb
        · split at hb
          · rw [List.mem_singleton.mp hb]; rfl
          · cases hb
        · cases hb
    | _ => cases hb

namespace Session

variable {build : Build} {calls : List (IndexCall V)} {t : ArtTree V} {as : List (Action Block)}
  {leaked : List Block}

theorem traced (h : Session build calls t as leaked) : Traced (updates calls) t := by
  induction h with
  | construct => exact .init
  | call mem h hformat hexec hactions ih => exact ih.call hformat hexec

/-- Every node keeps the representation invariant. -/
theorem nodeInvariant (h : Session build calls t as leaked) {depth : Nat} {n : Header}
    {keys : Nat → UInt8} {children : Nat → ArtNode V}
    (hnode : Below t.root depth (.node n keys children)) : NodeInvariant depth n keys children := by
  rcases h.traced.wf with hnull | hwf
  · rw [hnull] at hnode
    cases hnode.of_null
  · obtain ⟨q, hq, hwf⟩ := hwf.atDepth hnode
    rw [List.length_nil, Nat.zero_add] at hq
    exact hq ▸ hwf.nodeInvariant

/-- The live blocks are those of the tree and the leaked ones. -/
theorem turns (h : Session build calls t as leaked) :
    Turns as [] (.tree :: blocks t.root ++ leaked) := by
  induction h with
  | construct => exact .alloc .nil
  | @call calls t t' as bs leaked c mem h hformat hexec hactions ih =>
      obtain ⟨bs', hbs', hturn⟩ := call_turns h.traced.wf hexec
      obtain rfl : bs' = bs := Except.ok.inj (hbs'.symm.trans hactions)
      refine ih.append ((hturn.frame (.tree :: leaked)).congr List.perm_middle ?_)
      rw [List.append_assoc]
      exact (List.perm_middle.append_left _).trans List.perm_middle

/-- No inner node is leaked. -/
theorem leaked_isInner (h : Session build calls t as leaked) : ∀ b ∈ leaked, b.isInner = false := by
  induction h with
  | construct => simp
  | @call calls t t' as bs leaked c mem h hformat hexec hactions ih =>
      intro b hb
      rcases List.mem_append.mp hb with hb | hb
      · exact isInner_of_mem_leaks t c hb
      · exact ih b hb

end Session

theorem updates_map (ops : List (IndexOp V)) : updates (ops.map IndexCall.update) = ops := by
  induction ops with
  | nil => rfl
  | cons op ops ih => exact congrArg (op :: ·) ih

/-- A run of updates is a session. -/
theorem Session.of_run {build : Build} {ops : List (IndexOp V)} {t : ArtTree V}
    (h : Run build FormatStep ops t) :
    ∃ as leaked, Session build (ops.map IndexCall.update) t as leaked := by
  induction h with
  | init => exact ⟨_, _, .construct⟩
  | @step ops t t' op mem h hop hexec ih =>
      obtain ⟨as, leaked, ih⟩ := ih
      obtain ⟨bs, hbs, -⟩ := call_turns (c := .update op) ih.traced.wf hexec
      refine ⟨as ++ bs, _, ih.call mem ?_ hexec hbs⟩
      rintro op' ⟨⟩
      rwa [updates_map]

/-- The tree, the actions and the leaks that the calls make of a new index; a
call that faults is left out. -/
def replaySession (mem : Nat → UInt8) (build : Build) :
    List (IndexCall V) → ArtTree V × List (Action Block) × List Block
  | [] => (ArtTree.init, constructActions, [])
  | c :: calls =>
      let (t, as, leaked) := replaySession mem build calls
      match c.exec (Past.lenient mem) build t, c.actions (Past.lenient mem) t with
      | .ok t', .ok bs => (t', as ++ bs, c.leaks t ++ leaked)
      | _, _ => (t, as, leaked)

/-- The calls make a session of a new index. -/
def Replays (mem : Nat → UInt8) (build : Build) (calls : List (IndexCall V)) : Prop :=
  Session build calls (replaySession mem build calls).1 (replaySession mem build calls).2.1
    (replaySession mem build calls).2.2

/-- One more call that returns makes one more session. -/
theorem Replays.call {mem : Nat → UInt8} {build : Build} {calls : List (IndexCall V)}
    (h : Replays mem build calls) (c : IndexCall V)
    (hformat : ∀ op, c.update? = some op →
      FormatStep (updates calls) (replaySession mem build calls).1 op)
    (hok : (c.exec (Past.lenient mem) build (replaySession mem build calls).1).isOk = true) :
    Replays mem build (c :: calls) := by
  cases hexec : c.exec (Past.lenient mem) build (replaySession mem build calls).1 with
  | error e => rw [hexec] at hok; cases hok
  | ok t' =>
      cases hactions : c.actions (Past.lenient mem) (replaySession mem build calls).1 with
      | error e =>
          obtain ⟨bs, hbs, -⟩ := call_turns h.traced.wf hexec
          rw [hactions] at hbs
          cases hbs
      | ok bs =>
          have hreplay : replaySession mem build (c :: calls) = (t',
              (replaySession mem build calls).2.1 ++ bs,
              c.leaks (replaySession mem build calls).1 ++ (replaySession mem build calls).2.2) := by
            simp only [replaySession, hexec, hactions]
          unfold Replays
          rw [hreplay]
          exact .call mem h hformat hexec hactions

/-- Three keys are inserted. -/
def threeCalls : List (IndexCall Nat) :=
  [.update (.insert [4] (some 30)), .update (.insert [1, 3] (some 20)),
    .update (.insert [1, 2] (some 10))]

theorem replays_threeCalls : Replays (fun _ => 7) .sse2 threeCalls := by
  have h0 : Replays (fun _ => 7) .sse2 ([] : List (IndexCall Nat)) := .construct
  have h1 := h0.call (.update (.insert [1, 2] (some 10)))
    (by rintro op ⟨⟩; exact ⟨⟨by simp [updates], by simp [updates]⟩, by simp [updates]⟩)
    (by decide +kernel)
  have h2 := h1.call (.update (.insert [1, 3] (some 20)))
    (by
      rintro op ⟨⟩
      exact ⟨⟨by simp [updates, IndexCall.update?, Incomparable, loadKey],
        by simp [updates, IndexCall.update?]⟩, by simp [updates, IndexCall.update?]⟩)
    (by decide +kernel)
  refine h2.call (.update (.insert [4] (some 30))) ?_ (by decide +kernel)
  rintro op ⟨⟩
  refine ⟨⟨fun k v hk => ?_, by simp [updates, IndexCall.update?]⟩,
    by simp [updates, IndexCall.update?]⟩
  change _ ∈ [IndexOp.insert [1, 3] (some 20), IndexOp.insert [1, 2] (some 10)] at hk
  simp only [List.mem_cons, IndexOp.insert.injEq, List.not_mem_nil, or_false] at hk
  rcases hk with ⟨rfl, -⟩ | ⟨rfl, -⟩ <;> simp [Incomparable, loadKey]

/-- … one is looked up, and a prefix is removed. -/
def fiveCalls : List (IndexCall Nat) := .removePrefix [1] :: .lookup [4] :: threeCalls

theorem replays_fiveCalls : Replays (fun _ => 7) .sse2 fiveCalls :=
  (replays_threeCalls.call (.lookup [4]) (by rintro op ⟨⟩) (by decide +kernel)).call
    (.removePrefix [1]) (by rintro op ⟨⟩) (by decide +kernel)

/-- **Memory over whole sessions.**  Whatever methods are called, with updates in
the address format, no block is freed of whose kind and size none is live, the
live blocks are those of the tree and the key buffers and root leaves that
leaked, and the destructor frees all but these. -/
theorem heap_of_session {build : Build} {calls : List (IndexCall V)} {t : ArtTree V}
    {as : List (Action Block)} {leaked : List Block} (h : Session build calls t as leaked) :
    Turns as [] (.tree :: blocks t.root ++ leaked) ∧
      Turns (as ++ destructActions t) [] leaked ∧ ∀ b ∈ leaked, b.isInner = false := by
  refine ⟨h.turns, h.turns.append ?_, h.leaked_isInner⟩
  have htree := (destroy_turns t.root).frame (.tree :: leaked)
  have hall := htree.append (.free .nil : Turns [.free .tree] (.tree :: leaked) leaked)
  exact hall.congr List.perm_middle (List.Perm.refl _)

/-- The hypothesis of `heap_of_session` can be met: after the five calls and the
destructor the five key buffers are left. -/
theorem heap_of_session_five_calls :
    Turns ((replaySession (fun _ => 7) .sse2 fiveCalls).2.1 ++
        destructActions (replaySession (fun _ => 7) .sse2 fiveCalls).1) []
      [.buffer 1, .buffer 2, .buffer 2, .buffer 3, .buffer 3] := by
  have h := (heap_of_session replays_fiveCalls).2.1
  have hleaked : (replaySession (fun _ => 7) .sse2 fiveCalls).2.2 =
      [.buffer 1, .buffer 2, .buffer 2, .buffer 3, .buffer 3] := by decide +kernel
  rwa [hleaked] at h

/-- **Space over whole sessions.**  The inner nodes of a tree that is not empty
are fewer than its leaves and take at most 56 bytes a leaf, less 56; so all its
blocks together take 72 bytes a leaf and the bytes of the keys, less 56. -/
theorem space_of_session {build : Build} {calls : List (IndexCall V)} {t : ArtTree V}
    {as : List (Action Block)} {leaked : List Block} (h : Session build calls t as leaked)
    (hroot : t.root ≠ .null) :
    innerNodes t.root + 1 ≤ (leaves t.root).length ∧
      innerBytes t.root + 56 ≤ 56 * (leaves t.root).length ∧
      blockBytes t.root + 56 ≤ ((leaves t.root).map fun l => 72 + l.key.length).sum := by
  have hwf := h.traced.wf.resolve_left hroot
  have hinner := hwf.inner_bytes_le
  refine ⟨hwf.inner_nodes_lt, hinner, ?_⟩
  have hleaf : ((leaves t.root).map fun l => (Block.leaf l.key.length).size).sum +
      56 * (leaves t.root).length ≤ ((leaves t.root).map fun l => 72 + l.key.length).sum := by
    refine sum_add_le_sum fun l _ => ?_
    rw [Block.size, show structSize [(8, 8), (4, 4), (0, 1)] = 16 by decide]
    omega
  rw [blockBytes_eq]
  omega

/-- The hypotheses of `space_of_session` can be met: two NODE4 nodes over three
leaves reach its bounds. -/
theorem space_of_session_three_calls :
    innerBytes (replaySession (fun _ => 7) .sse2 threeCalls).1.root = 112 ∧
      innerBytes (replaySession (fun _ => 7) .sse2 threeCalls).1.root + 56 ≤ 56 * 3 := by
  have h := (space_of_session replays_threeCalls (ne_null_of_isNull (by decide +kernel))).2.1
  have hleaves : (leaves (replaySession (fun _ => 7) .sse2 threeCalls).1.root).length = 3 := by
    decide +kernel
  rw [hleaves] at h
  exact ⟨by decide +kernel, h⟩

/-- **The tree over whole sessions.**  Every node keeps the representation
invariant; every update in the address format returns, whatever lies past its
key; and a `remove_prefix` that returns removes the entries below one path, or
nothing, and counts them. -/
theorem safe_of_session {build : Build} {calls : List (IndexCall V)} {t : ArtTree V}
    {as : List (Action Block)} {leaked : List Block} (h : Session build calls t as leaked) :
    (∀ {depth : Nat} {n : Header} {keys : Nat → UInt8} {children : Nat → ArtNode V},
      Below t.root depth (.node n keys children) → NodeInvariant depth n keys children) ∧
    (∀ op, FormatStep (updates calls) t op → ∀ mem, ∃ t' bs,
      op.exec (Past.lenient mem) build t = .ok t' ∧
        (IndexCall.update op).actions (Past.lenient mem) t = .ok bs) ∧
    ∀ mem p t' ret, RadixTreeIndex.removePrefix (Past.lenient mem) t p = .ok (t', ret) →
      t'.size = t.size - ret ∧ (t' = t ∧ ret = 0 ∨
        ∃ q, (entries t'.root).Perm (prune (entries t.root) q) ∧
          ret = (below (entries t.root) q).length ∧ 0 < ret) := by
  have htr := h.traced
  refine ⟨h.nodeInvariant, fun op hop mem => ?_, fun mem p t' ret hrun => ?_⟩
  · obtain ⟨t', hexec, -⟩ := formatStep_spec htr hop mem
    obtain ⟨bs, hbs, -⟩ := call_turns (c := .update op) htr.wf hexec
    exact ⟨t', bs, hexec, hbs⟩
  · exact (artDeletePrefix_spec htr.wf hrun).2

/-- The hypothesis of `safe_of_session` can be met: a prefix that ends in the
compressed path of a child removes both its leaves. -/
theorem safe_of_session_three_calls : ∃ t' ret q,
    RadixTreeIndex.removePrefix (Past.lenient fun _ => 7)
        (replaySession (fun _ => 7) .sse2 threeCalls).1 [1] = .ok (t', ret) ∧ ret = 2 ∧
      (entries t'.root).Perm
        (prune (entries (replaySession (fun _ => 7) .sse2 threeCalls).1.root) q) := by
  have hret : ((RadixTreeIndex.removePrefix (Past.lenient fun _ => 7)
      (replaySession (fun _ => 7) .sse2 threeCalls).1 [1]).map Prod.snd).toOption = some 2 := by
    decide +kernel
  cases hrun : RadixTreeIndex.removePrefix (Past.lenient fun _ => 7)
      (replaySession (fun _ => 7) .sse2 threeCalls).1 [1] with
  | error e => rw [hrun] at hret; cases hret
  | ok r =>
      obtain ⟨-, hkeep | ⟨q, hperm, -⟩⟩ :=
        (safe_of_session replays_threeCalls).2.2 (fun _ => 7) [1] r.1 r.2 hrun
      · rw [hrun] at hret
        have h2 : r.2 = 2 := Option.some.inj hret
        rw [hkeep.2] at h2
        cases h2
      · rw [hrun] at hret
        exact ⟨r.1, r.2, q, rfl, Option.some.inj hret, hperm⟩

/-- **Prefix iteration over whole sessions.**  With a callback that leaves out the
disabled tags `art_iter_prefix` is `art_iter_active_prefix`, faults included.
With any callback it hands over every entry below the prefix once, tags too, in
the order of the tree and until the callback stops it, if and only if no node
misleads it; and only a prefix that is not comparable with any entry is misled. -/
theorem prefix_iteration_of_session {build : Build} {calls : List (IndexCall V)} {t : ArtTree V}
    {as : List (Action Block)} {leaked : List Block} (h : Session build calls t as leaked)
    (p : List UInt8) :
    (∀ (past : Past) (σ : Type) (f : σ → V → σ) (data : σ),
      artIterPrefix past (active f) t p data =
        (artIterActivePrefix past t p).map fun vs => (0, vs.foldl f data)) ∧
    (IterPrefixExact p t ↔ ¬ ∃ path y, Skims p [] t.root path y ∧ Misled p path y) ∧
    ((∃ e ∈ entries t.root, p <+: e.1 ∨ e.1 <+: p) → IterPrefixExact p t) := by
  have hwf := h.traced.wf
  refine ⟨fun past σ f data => artIterPrefix_active past f t p data, iterPrefixExact_iff hwf p, ?_⟩
  rintro ⟨e, he, hcmp⟩
  exact iterPrefixExact_of_comparable hwf he hcmp

/-- The hypothesis of `prefix_iteration_of_session` can be met: the callback is
given the two keys below a prefix. -/
theorem prefix_iteration_of_session_three_calls :
    artIterPrefix Past.strict record (replaySession (fun _ => 7) .sse2 threeCalls).1 [1] [] =
      .ok (0, [([1, 2, 0], some 10), ([1, 3, 0], some 20)]) := by
  have hexact := (prefix_iteration_of_session replays_threeCalls [1]).2.2
    ⟨([1, 2, 0], some 10), by decide +kernel, .inl (by decide)⟩
  rw [hexact _ record [], feed_record]
  decide +kernel

end LightQuery
