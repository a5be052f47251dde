import LightQuery.Art.Delete

/-!
# LightQuery.Art.Overrun

Where the descents of `art_search`, `art_lookup` and `art_delete` leave the
searched key.

All three compare at most ten bytes of a compressed path and go on behind the
whole of it, so a key that ends inside the path is read past its end when its
bytes agree with those that are compared (`Overruns`).
-/

namespace LightQuery

open CArray CommonPrefix PrefixFamily

variable {V : Type} {n : Header} {keys : Nat → UInt8} {children : Nat → ArtNode V}

/-- The descent for `key` comes to a node whose stored path bytes agree with
the key, and the key does not reach behind the compressed path. -/
def Overruns (key : List UInt8) : ArtNode V → (depth : Nat) → Prop
  | .null, _ => False
  | .leaf _, _ => False
  | .node n keys children, depth => n.stored <+: key.drop depth ∧
      (key.length ≤ depth + n.partialLen ∨
        ∃ b i, key[depth + n.partialLen]? = some b ∧ Slot n keys children b i ∧
          Overruns key (children i) (depth + n.partialLen + 1))

/-- At a node whose path agrees with a longer key, the next byte decides. -/
theorem overruns_slot (hl : Layout n keys children) {key : List UInt8} {depth : Nat}
    (hpass : n.stored <+: key.drop depth) {b : UInt8}
    (hb : key[depth + n.partialLen]? = some b) {i : Nat} (hi : Slot n keys children b i) :
    Overruns key (.node n keys children) depth ↔
      Overruns key (children i) (depth + n.partialLen + 1) := by
  rw [Overruns]
  constructor
  · rintro ⟨-, hend | ⟨b', j, hb', hj, hover⟩⟩
    · rw [List.getElem?_eq_none hend] at hb
      cases hb
    · rw [hb] at hb'
      obtain rfl := Option.some.inj hb'
      rwa [hl.slot hi hj]
  · exact fun hover => ⟨hpass, .inr ⟨b, i, hb, hi, hover⟩⟩

theorem not_overruns_of_no_slot {key : List UInt8} {depth : Nat} {b : UInt8}
    (hb : key[depth + n.partialLen]? = some b) (hno : ∀ i, ¬ Slot n keys children b i) :
    ¬ Overruns key (.node n keys children) depth := by
  rintro ⟨-, hend | ⟨b', j, hb', hj, -⟩⟩
  · rw [List.getElem?_eq_none hend] at hb
    cases hb
  · rw [hb] at hb'
    obtain rfl := Option.some.inj hb'
    exact hno j hj

/-- **The descent to a leaf stays inside the key** exactly where it overruns no
node. -/
theorem findLeaf_inside_iff {key path : List UInt8} {x : ArtNode V} (h : WF path x) (depth : Nat) :
    (∃ r, findLeaf Past.strict key x depth = .ok r) ↔ ¬ Overruns key x depth := by
  induction h generalizing depth with
  | leaf hlen hpath => exact iff_of_true ⟨_, rfl⟩ id
  | @node path n keys children c hl htwo hlen hstored hchild ih =>
      rw [findLeaf, prefixPasses_eq]
      by_cases hpass : n.stored <+: key.drop depth
      · simp only [bind, Except.bind, hpass, decide_true, if_true]
        cases hb : key[depth + n.partialLen]? with
        | none =>
            rw [readByte, hb]
            refine iff_of_false (by simp [Past.strict]) fun hno => hno ⟨hpass, .inl ?_⟩
            exact List.getElem?_eq_none_iff.mp hb
        | some b =>
            simp only [readByte, hb]
            cases hf : findChild n keys children b with
            | none =>
                refine iff_of_true ⟨_, rfl⟩ (not_overruns_of_no_slot hb fun i hi => ?_)
                rw [hl.findChild_eq_some_iff.mpr hi] at hf
                cases hf
            | some i =>
                have hi := hl.findChild_eq_some_iff.mp hf
                rw [overruns_slot hl hpass hb hi]
                exact ih b i hi _
      · simp only [bind, Except.bind, hpass, decide_false, Bool.false_eq_true, if_false]
        exact iff_of_true ⟨_, rfl⟩ fun hover => hpass hover.1

/-- `recursive_delete` leaves the key at the same nodes. -/
theorem recursiveDelete_inside_iff {key path : List UInt8} {x : ArtNode V} (h : WF path x)
    (depth : Nat) :
    (∃ r, recursiveDelete Past.strict key x depth = .ok r) ↔ ¬ Overruns key x depth := by
  induction h generalizing depth with
  | leaf hlen hpath =>
      refine iff_of_true ?_ id
      rw [recursiveDelete, leafMatches_eq _ hlen]
      simp only [bind, Except.bind]
      split <;> exact ⟨_, rfl⟩
  | @node path n keys children c hl htwo hlen hstored hchild ih =>
      rw [recursiveDelete, prefixPasses_eq]
      by_cases hpass : n.stored <+: key.drop depth
      · simp only [bind, Except.bind, hpass, decide_true, if_true]
        cases hb : key[depth + n.partialLen]? with
        | none =>
            rw [readByte, hb]
            refine iff_of_false (by simp [Past.strict]) fun hno => hno ⟨hpass, .inl ?_⟩
            exact List.getElem?_eq_none_iff.mp hb
        | some b =>
            simp only [readByte, hb]
            cases hf : findChild n keys children b with
            | none =>
                refine iff_of_true ⟨_, rfl⟩ (not_overruns_of_no_slot hb fun i hi => ?_)
                rw [hl.findChild_eq_some_iff.mpr hi] at hf
                cases hf
            | some i =>
                have hi := hl.findChild_eq_some_iff.mp hf
                rw [overruns_slot hl hpass hb hi, ← ih b i hi]
                simp only
                split
                · -- a leaf below the slot is compared and removed here
                  next l hcl =>
                    have hwf := hchild b i hi
                    rw [hcl] at hwf ⊢
                    cases hwf with
                    | leaf hbuf hpath =>
                        simp only [recursiveDelete, leafMatches_eq _ hbuf, bind, Except.bind]
                        split <;> exact iff_of_true ⟨_, rfl⟩ ⟨_, rfl⟩
                · cases recursiveDelete Past.strict key (children i)
                    (depth + n.partialLen + 1) with
                  | error e => exact iff_of_false (by simp) (by simp)
                  | ok r => exact iff_of_true ⟨_, rfl⟩ ⟨_, rfl⟩
      · simp only [bind, Except.bind, hpass, decide_false, Bool.false_eq_true, if_false]
        exact iff_of_true ⟨_, rfl⟩ fun hover => hpass hover.1

/-- The three descents read only bytes of the key. -/
structure DescentsInside (t : ArtTree V) (key : List UInt8) : Prop where
  search : ∃ r, artSearch Past.strict t key = .ok r
  lookup : ∃ r, artLookup Past.strict t key = .ok r
  delete : ∃ r, artDelete Past.strict t key = .ok r

/-- Checking the leaf at the end of a descent reads inside the key. -/
theorem bind_findLeaf_iff {key path : List UInt8} {x : ArtNode V} (h : WF path x) (depth : Nat)
    {β : Type} (f : Option (ArtLeaf V) → Except Fault β) (hnone : ∃ r, f none = .ok r)
    (hsome : ∀ l, l.keyLen ≤ l.key.length → ∃ r, f (some l) = .ok r) :
    (∃ r, (findLeaf Past.strict key x depth).bind f = .ok r) ↔ ¬ Overruns key x depth := by
  rw [← findLeaf_inside_iff h]
  cases hfind : findLeaf Past.strict key x depth with
  | error e => exact iff_of_false (by simp [Except.bind]) (by simp)
  | ok r =>
      refine iff_of_true ?_ ⟨_, rfl⟩
      cases r with
      | none => exact hnone
      | some l => exact hsome l (findLeaf_mem h hfind).2

/-- **The three descents leave the key together**, and exactly where the
searched key overruns a node. -/
theorem descentsInside_iff {t : ArtTree V} (h : t.WF) (key : List UInt8) :
    DescentsInside t key ↔ ¬ Overruns key t.root 0 := by
  rcases h with hnull | h
  · obtain ⟨root, size⟩ := t
    have hroot : root = .null := hnull
    subst hroot
    exact iff_of_true ⟨⟨_, rfl⟩, ⟨_, rfl⟩, ⟨_, rfl⟩⟩ id
  · have hsearch : (∃ r, artSearch Past.strict t key = .ok r) ↔ ¬ Overruns key t.root 0 := by
      rw [artSearch, searchLoop_eq]
      refine bind_findLeaf_iff h 0 _ ⟨_, rfl⟩ fun l hbuf => ?_
      simp only [leafMatches_eq _ hbuf]
      exact ⟨_, rfl⟩
    have hlookup : (∃ r, artLookup Past.strict t key = .ok r) ↔ ¬ Overruns key t.root 0 := by
      rw [artLookup, lookupLoop_eq]
      refine bind_findLeaf_iff h 0 _ ⟨_, rfl⟩ fun l hbuf => ?_
      simp only [activeLeafPrefixMatches_eq _ hbuf]
      exact ⟨_, rfl⟩
    have hdelete : (∃ r, artDelete Past.strict t key = .ok r) ↔ ¬ Overruns key t.root 0 := by
      rw [← recursiveDelete_inside_iff h, artDelete]
      cases recursiveDelete Past.strict key t.root 0 with
      | error e => exact iff_of_false (by simp [bind, Except.bind]) (by simp)
      | ok r =>
          obtain ⟨x, l⟩ := r
          cases l <;> exact iff_of_true ⟨_, rfl⟩ ⟨_, rfl⟩
    exact ⟨fun hin => hsearch.mp hin.search,
      fun hno => ⟨hsearch.mpr hno, hlookup.mpr hno, hdelete.mpr hno⟩⟩

/-- **Only a path of more than ten bytes is overrun** by a key that no key of
the tree extends: the key leaves the path behind the bytes that are compared. -/
theorem long_path_of_overruns {key path : List UInt8} {x : ArtNode V} (h : WF path x)
    (hpk : path <+: key) (hno : ∀ e ∈ entries x, key <+: e.1 → key = e.1)
    (hover : Overruns key x path.length) :
    ∃ q c : List UInt8, path <+: q ∧ q <+: key ∧ maxPrefixLen < c.length ∧
      c.take maxPrefixLen <+: key.drop q.length ∧ ¬ c <+: key.drop q.length ∧
      ∃ e ∈ entries x, q ++ c <+: e.1 := by
  induction h with
  | leaf hlen hpath => exact absurd hover id
  | @node path n keys children c hl htwo hlen hstored hchild ih =>
      have hwf : WF path (.node n keys children) := .node c hl htwo hlen hstored hchild
      have hpaths := WF.compressed hl hchild
      obtain ⟨e, he⟩ := List.exists_mem_of_ne_nil _ hwf.entries_ne_nil
      have hpass := hover.1
      rw [hstored] at hpass
      by_cases hc : c <+: key.drop path.length
      · obtain ⟨s, rfl⟩ := hpk
        rw [List.drop_left] at hc
        obtain ⟨s, rfl⟩ := hc
        cases s with
        | nil =>
            -- the key is the path to the node, and every key below goes on
            obtain ⟨b, i, hi, hex⟩ := (mem_entries_node hl.toMatching).mp he
            have hlt := ((hchild b i hi).starts_with e hex).length_le
            have heq := hno e he (by rw [List.append_nil]; exact hpaths e he)
            rw [← heq] at hlt
            simp only [List.length_append, List.length_singleton, List.length_nil] at hlt
            omega
        | cons b s =>
            have hb : (path ++ (c ++ b :: s))[path.length + n.partialLen]? = some b := by
              rw [← hlen, List.getElem?_append_right (Nat.le_add_right _ _),
                Nat.add_sub_cancel_left, List.getElem?_append_right (Nat.le_refl _), Nat.sub_self]
              rfl
            obtain ⟨-, hend | ⟨b', i, hb', hi, hrec⟩⟩ := hover
            · rw [List.getElem?_eq_none hend] at hb
              cases hb
            · rw [hb] at hb'
              obtain rfl := Option.some.inj hb'
              have hdepth : path.length + n.partialLen + 1 = (path ++ c ++ [b]).length := by
                rw [List.length_append, List.length_append, List.length_singleton, hlen]
              rw [hdepth] at hrec
              obtain ⟨q, c', hq, hqk, hlong, hten, hleft, e, he, hqe⟩ :=
                ih b i hi ⟨s, by simp⟩ (fun e he => hno e
                  ((mem_entries_node hl.toMatching).mpr ⟨b, i, hi, he⟩)) hrec
              refine ⟨q, c', List.IsPrefix.trans ?_ hq, hqk, hlong, hten, hleft, e,
                (mem_entries_node hl.toMatching).mpr ⟨b, i, hi, he⟩, hqe⟩
              rw [List.append_assoc]
              exact List.prefix_append _ _
      · refine ⟨path, c, List.prefix_rfl, hpk, ?_, hpass, hc, e, he, hpaths e he⟩
        by_contra hshort
        rw [List.take_of_length_le (by omega)] at hpass
        exact hc hpass

end LightQuery
