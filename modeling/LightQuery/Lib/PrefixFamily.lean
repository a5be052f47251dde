import Mathlib.Data.List.Infix
import Mathlib.Data.List.Nodup
import Mathlib.Data.List.Pairwise
import Mathlib.Data.List.Perm.Basic

/-!
# Lib.PrefixFamily

Families of entries whose keys are lists, none a prefix of another.

A prefix-free family is what a radix tree stores: at most one key of it is a
prefix of any given list, so a descent along the list can end at no other
entry.  `graft` is the one update such a family needs: it drops every entry
below a key and puts one entry there.  Insertion of a new key, replacement of
an old one and the disabling of a whole prefix are grafts.
-/

namespace PrefixFamily

variable {α β : Type}

/-- Neither list is a prefix of the other. -/
def Incomparable (xs ys : List α) : Prop := ¬ xs <+: ys ∧ ¬ ys <+: xs

theorem Incomparable.symm {xs ys : List α} (h : Incomparable xs ys) : Incomparable ys xs :=
  ⟨h.2, h.1⟩

/-- Two lists that differ after a common front are incomparable, and so is
everything below them. -/
theorem incomparable_of_branch {p xs ys : List α} {a b : α} (hab : a ≠ b)
    (hx : p ++ [a] <+: xs) (hy : p ++ [b] <+: ys) : Incomparable xs ys := by
  obtain ⟨s, rfl⟩ := hx
  obtain ⟨t, rfl⟩ := hy
  simp only [Incomparable, List.append_assoc, List.singleton_append, List.prefix_append_right_inj,
    List.cons_prefix_cons]
  exact ⟨fun h => hab h.1, fun h => hab h.1.symm⟩

/-- A list that is incomparable to a prefix is incomparable to the whole. -/
theorem Incomparable.extend {xs ys zs : List α} (h : Incomparable xs ys) (hz : ys <+: zs) :
    Incomparable xs zs := by
  refine ⟨fun hx => ?_, fun hx => h.2 (hz.trans hx)⟩
  rcases List.prefix_or_prefix_of_prefix hx hz with h' | h'
  · exact h.1 h'
  · exact h.2 h'

/-- No key of the family is a prefix of another one. -/
def PrefixFree (F : List (List α × β)) : Prop := F.Pairwise fun x y => Incomparable x.1 y.1

theorem PrefixFree.perm {F G : List (List α × β)} (h : PrefixFree F) (hp : F.Perm G) :
    PrefixFree G :=
  hp.pairwise h fun {_ _} h => h.symm

/-- At most one key of a prefix-free family is a prefix of a given list. -/
theorem PrefixFree.eq_of_below {F : List (List α × β)} (h : PrefixFree F) {x y : List α × β}
    (hx : x ∈ F) (hy : y ∈ F) {k : List α} (hxk : x.1 <+: k) (hyk : y.1 <+: k) : x = y := by
  by_contra hne
  have : Std.Symm fun x y : List α × β => Incomparable x.1 y.1 := ⟨fun _ _ h => h.symm⟩
  have hinc : Incomparable x.1 y.1 := List.Pairwise.forall h hx hy hne
  rcases List.prefix_or_prefix_of_prefix hxk hyk with h' | h'
  · exact hinc.1 h'
  · exact hinc.2 h'

/-- Comparable keys of a prefix-free family belong to the same entry. -/
theorem PrefixFree.eq_of_le {F : List (List α × β)} (h : PrefixFree F) {x y : List α × β}
    (hx : x ∈ F) (hy : y ∈ F) (hxy : x.1 <+: y.1) : x = y :=
  h.eq_of_below hx hy hxy List.prefix_rfl

theorem PrefixFree.nodup {F : List (List α × β)} (h : PrefixFree F) : F.Nodup :=
  h.imp fun {x y} h (hxy : x = y) => h.1 (hxy ▸ List.prefix_rfl)

variable [DecidableEq α]

/-- Drop everything below `k`. -/
def prune (F : List (List α × β)) (k : List α) : List (List α × β) :=
  F.filter fun e => !decide (k <+: e.1)

theorem mem_prune {F : List (List α × β)} {k : List α} {e : List α × β} :
    e ∈ prune F k ↔ e ∈ F ∧ ¬ k <+: e.1 := by
  simp [prune]

theorem prune_perm {F G : List (List α × β)} (h : F.Perm G) (k : List α) :
    (prune F k).Perm (prune G k) :=
  h.filter _

theorem prune_append (F G : List (List α × β)) (k : List α) :
    prune (F ++ G) k = prune F k ++ prune G k :=
  List.filter_append ..

theorem prune_eq_self {F : List (List α × β)} {k : List α} (h : ∀ e ∈ F, ¬ k <+: e.1) :
    prune F k = F :=
  List.filter_eq_self.mpr fun e he => by simpa using h e he

theorem prune_eq_nil {F : List (List α × β)} {k : List α} (h : ∀ e ∈ F, k <+: e.1) :
    prune F k = [] :=
  List.filter_eq_nil_iff.mpr fun e he => by simpa using h e he

/-- Drop everything below `k` and put one entry there. -/
def graft (F : List (List α × β)) (k : List α) (v : β) : List (List α × β) :=
  (k, v) :: prune F k

theorem mem_graft {F : List (List α × β)} {k : List α} {v : β} {e : List α × β} :
    e ∈ graft F k v ↔ e = (k, v) ∨ (e ∈ F ∧ ¬ k <+: e.1) := by
  simp [graft, mem_prune]

/-- Where nothing is below the key, a graft adds an entry. -/
theorem graft_eq_cons {F : List (List α × β)} {k : List α} (h : ∀ e ∈ F, ¬ k <+: e.1) (v : β) :
    graft F k v = (k, v) :: F := by
  rw [graft, prune_eq_self h]

/-- A graft above a whole family leaves only the new entry. -/
theorem graft_eq_singleton {F : List (List α × β)} {k : List α} (h : ∀ e ∈ F, k <+: e.1) (v : β) :
    graft F k v = [(k, v)] := by
  rw [graft, prune_eq_nil h]

theorem graft_perm {F G : List (List α × β)} (h : F.Perm G) (k : List α) (v : β) :
    (graft F k v).Perm (graft G k v) :=
  (prune_perm h k).cons _

/-- A graft keeps a family prefix-free unless it goes below one of its keys. -/
theorem PrefixFree.graft {F : List (List α × β)} (h : PrefixFree F) {k : List α}
    (hk : ∀ e ∈ F, e.1 <+: k → e.1 = k) (v : β) : PrefixFree (graft F k v) := by
  refine List.pairwise_cons.mpr ⟨fun e he => ?_, h.filter _⟩
  rw [mem_prune] at he
  exact ⟨he.2, fun hek => he.2 (hk e he.1 hek ▸ List.prefix_rfl)⟩

/-- Entries at or below `k`. -/
def below (F : List (List α × β)) (k : List α) : List (List α × β) :=
  F.filter fun e => decide (k <+: e.1)

theorem below_perm {F G : List (List α × β)} (h : F.Perm G) (k : List α) :
    (below F k).Perm (below G k) :=
  h.filter _

theorem below_append (F G : List (List α × β)) (k : List α) :
    below (F ++ G) k = below F k ++ below G k :=
  List.filter_append ..

theorem below_eq_self {F : List (List α × β)} {k : List α} (h : ∀ e ∈ F, k <+: e.1) :
    below F k = F :=
  List.filter_eq_self.mpr fun e he => by simpa using h e he

theorem below_eq_nil {F : List (List α × β)} {k : List α} (h : ∀ e ∈ F, ¬ k <+: e.1) :
    below F k = [] :=
  List.filter_eq_nil_iff.mpr fun e he => by simpa using h e he

theorem mem_below {F : List (List α × β)} {k : List α} {e : List α × β} :
    e ∈ below F k ↔ e ∈ F ∧ k <+: e.1 := by
  simp [below]

/-- Nothing is pruned where nothing is below the key. -/
theorem prune_eq_self_of_below {F : List (List α × β)} {k : List α} (h : below F k = []) :
    prune F k = F := by
  refine prune_eq_self fun e he hke => ?_
  have := mem_below.mpr ⟨he, hke⟩
  rw [h] at this
  cases this

/-- A graft inside one block of a family leaves the other blocks alone. -/
theorem graft_append_perm {F G : List (List α × β)} {k : List α} {v : β}
    (hG : ∀ e ∈ G, ¬ k <+: e.1) : (graft F k v ++ G).Perm (graft (F ++ G) k v) := by
  refine List.Perm.of_eq ?_
  rw [graft, graft, prune_append, prune_eq_self hG, List.cons_append]

/-! ## locating a list in a family -/

/-- The entry whose key is a prefix of `k`. -/
def locate (F : List (List α × β)) (k : List α) : Option (List α × β) :=
  F.find? fun e => decide (e.1 <+: k)

theorem PrefixFree.locate_eq_some_iff {F : List (List α × β)} (h : PrefixFree F) {k : List α}
    {e : List α × β} : locate F k = some e ↔ e ∈ F ∧ e.1 <+: k := by
  constructor
  · intro he
    exact ⟨List.mem_of_find?_eq_some he, by simpa using List.find?_some he⟩
  · rintro ⟨he, hk⟩
    cases hf : locate F k with
    | none =>
        have := List.find?_eq_none.mp hf e he
        simp [hk] at this
    | some e' =>
        have hk' : e'.1 <+: k := by simpa using List.find?_some hf
        rw [h.eq_of_below (List.mem_of_find?_eq_some hf) he hk' hk]

theorem locate_eq_none_iff {F : List (List α × β)} {k : List α} :
    locate F k = none ↔ ∀ e ∈ F, ¬ e.1 <+: k := by
  simp [locate, List.find?_eq_none]

theorem PrefixFree.locate_perm {F G : List (List α × β)} (h : PrefixFree F) (hp : F.Perm G)
    (k : List α) : locate F k = locate G k := by
  apply Option.ext
  intro e
  rw [h.locate_eq_some_iff, (h.perm hp).locate_eq_some_iff, hp.mem_iff]

/-- Pruning takes away the answers below its key. -/
theorem PrefixFree.locate_prune {F : List (List α × β)} (h : PrefixFree F) (p k : List α) :
    locate (prune F p) k = (locate F k).filter fun e => !decide (p <+: e.1) := by
  have hp : PrefixFree (prune F p) := h.filter _
  apply Option.ext
  intro e
  rw [hp.locate_eq_some_iff, mem_prune, Option.filter_eq_some_iff, h.locate_eq_some_iff]
  simp only [Bool.not_eq_true', decide_eq_false_iff_not]
  tauto

end PrefixFamily
