import Mathlib.Algebra.GroupWithZero.Nat
import Mathlib.Logic.Function.Basic
import Mathlib.Data.List.Range
import Mathlib.Data.List.Perm.Basic
import Mathlib.Data.List.Nodup

/-!
# Lib.CArray

C arrays as functions of the index, and finite families indexed by a list.

A C array is a function from indices: a store is `Function.update`, and
`memmove` and `memcpy` are `memmove` below (on values the two agree).
`firstIndex` is the scan `for (i = 0; i < n; i++) if (p(i)) break;`, and
`lastIndex` the one that counts down from `n - 1`.  The second half is about
`flatMap` over a duplicate-free index list: changing the family at one index
changes the flattening by one block.
-/

namespace CArray

variable {α β γ : Type}

/-! ## block moves and scans -/

/-- `memmove(dst + dOff, src + sOff, n)`: the array `dst` afterwards. -/
def memmove (dst : Nat → α) (dOff : Nat) (src : Nat → α) (sOff n : Nat) : Nat → α :=
  fun i => if dOff ≤ i ∧ i < dOff + n then src (sOff + (i - dOff)) else dst i

/-- A copy of the front of an array. -/
theorem memmove_front (dst src : Nat → α) {n i : Nat} (h : i < n) :
    memmove dst 0 src 0 n i = src i := by
  rw [memmove, if_pos ⟨Nat.zero_le i, by omega⟩]
  simp

/-- The exit index of `for (i = 0; i < n; i++) if (p(i)) break;`. -/
def firstIndex (n : Nat) (p : Nat → Bool) : Nat := ((List.range n).find? p).getD n

theorem firstIndex_le (n : Nat) (p : Nat → Bool) : firstIndex n p ≤ n := by
  unfold firstIndex
  cases h : (List.range n).find? p with
  | none => simp
  | some i =>
      have := List.mem_range.mp (List.mem_of_find?_eq_some h)
      simpa using this.le

/-- Where some index qualifies, the scan stops at one. -/
theorem firstIndex_spec {n : Nat} {p : Nat → Bool} (h : ∃ i < n, p i = true) :
    firstIndex n p < n ∧ p (firstIndex n p) = true := by
  obtain ⟨i, hi, hp⟩ := h
  unfold firstIndex
  cases hf : (List.range n).find? p with
  | none =>
      have := List.find?_eq_none.mp hf i (List.mem_range.mpr hi)
      contradiction
  | some j =>
      exact ⟨List.mem_range.mp (List.mem_of_find?_eq_some hf), List.find?_some hf⟩

theorem firstIndex_not {n i : Nat} {p : Nat → Bool} (h : i < firstIndex n p) : p i = false := by
  unfold firstIndex at h
  cases hf : (List.range n).find? p with
  | none =>
      rw [hf] at h
      exact Bool.eq_false_iff.mpr (List.find?_eq_none.mp hf i (List.mem_range.mpr h))
  | some j =>
      rw [hf] at h
      have := (List.find?_range_eq_some.mp hf).2.2 i h
      simpa using this

theorem firstIndex_hit {n : Nat} {p : Nat → Bool} (h : firstIndex n p < n) :
    p (firstIndex n p) = true := by
  unfold firstIndex at h ⊢
  cases hf : (List.range n).find? p with
  | none => rw [hf] at h; exact absurd h (Nat.lt_irrefl n)
  | some j => exact List.find?_some hf

/-- The scan stops at the index with no hit before it. -/
theorem firstIndex_eq {n idx : Nat} {p : Nat → Bool} (hle : idx ≤ n)
    (hbefore : ∀ i < idx, p i = false) (hat : idx < n → p idx = true) : firstIndex n p = idx := by
  rcases Nat.lt_trichotomy (firstIndex n p) idx with hlt | heq | hgt
  · have := firstIndex_hit (Nat.lt_of_lt_of_le hlt hle)
    rw [hbefore _ hlt] at this
    cases this
  · exact heq
  · have := firstIndex_not hgt
    rw [hat (Nat.lt_of_lt_of_le hgt (firstIndex_le n p))] at this
    cases this

theorem head?_filter_range {n : Nat} {p : Nat → Bool} (h : ∃ i < n, p i = true) :
    ((List.range n).filter p).head? = some (firstIndex n p) := by
  obtain ⟨hlt, hp⟩ := firstIndex_spec h
  rw [List.head?_filter]
  unfold firstIndex at hlt ⊢
  cases hf : (List.range n).find? p with
  | none => rw [hf] at hlt; exact absurd hlt (Nat.lt_irrefl n)
  | some j => rfl

/-- The exit index of `i = n - 1; while (!p(i)) i--;`. -/
def lastIndex : (n : Nat) → (p : Nat → Bool) → Nat
  | 0, _ => 0
  | n + 1, p => if p n then n else lastIndex n p

theorem getLast?_filter_range {n : Nat} {p : Nat → Bool} (h : ∃ i < n, p i = true) :
    ((List.range n).filter p).getLast? = some (lastIndex n p) := by
  induction n with
  | zero => obtain ⟨i, hi, -⟩ := h; omega
  | succ n ih =>
      rw [List.range_succ, List.filter_append, lastIndex]
      by_cases hp : p n = true
      · simp [hp]
      · obtain ⟨i, hi, hpi⟩ := h
        have hne : i ≠ n := by rintro rfl; exact hp hpi
        simp [hp, ih ⟨i, by omega, hpi⟩]

/-- Make room at `idx` in the first `n` elements and store `x` there. -/
def insertAt (a : Nat → α) (idx : Nat) (x : α) (n : Nat) : Nat → α :=
  Function.update (memmove a (idx + 1) a idx (n - idx)) idx x

/-- Close the gap left by the element at `pos` of the first `n`. -/
def eraseAt (a : Nat → α) (pos n : Nat) : Nat → α :=
  memmove a pos a (pos + 1) (n - 1 - pos)

theorem insertAt_lt (a : Nat → α) {idx : Nat} (x : α) (n : Nat) {i : Nat} (h : i < idx) :
    insertAt a idx x n i = a i := by
  have hne : i ≠ idx := by omega
  simp only [insertAt, memmove, Function.update_of_ne hne]
  rw [if_neg (by omega)]

@[simp] theorem insertAt_self (a : Nat → α) (idx : Nat) (x : α) (n : Nat) :
    insertAt a idx x n idx = x := by
  simp [insertAt]

theorem insertAt_succ (a : Nat → α) {idx : Nat} (x : α) {n i : Nat} (h : idx ≤ i) (hn : i < n) :
    insertAt a idx x n (i + 1) = a i := by
  have hne : i + 1 ≠ idx := by omega
  simp only [insertAt, memmove, Function.update_of_ne hne]
  rw [if_pos (by omega)]
  congr 1
  omega

theorem eraseAt_lt (a : Nat → α) {pos n i : Nat} (h : i < pos) : eraseAt a pos n i = a i := by
  simp only [eraseAt, memmove]
  rw [if_neg (by omega)]

theorem eraseAt_ge (a : Nat → α) {pos n i : Nat} (h : pos ≤ i) (hn : i + 1 < n) :
    eraseAt a pos n i = a (i + 1) := by
  simp only [eraseAt, memmove]
  rw [if_pos (by omega)]
  congr 1
  omega

/-! ## loops that fill an array -/

/-- A loop of stores leaves the indices it does not hit. -/
theorem foldl_update_of_ne {l : List α} {k : α → Nat} {v : α → β} {init : Nat → β} {i : Nat}
    (h : ∀ a ∈ l, k a ≠ i) :
    l.foldl (fun m a => Function.update m (k a) (v a)) init i = init i := by
  induction l generalizing init with
  | nil => rfl
  | cons a l ih =>
      rw [List.foldl_cons, ih fun b hb => h b (List.mem_cons_of_mem _ hb),
        Function.update_of_ne (h a (List.mem_cons_self ..)).symm]

/-- A loop of stores to distinct indices makes every one of them. -/
theorem foldl_update_of_mem {l : List α} {k : α → Nat} {v : α → β} {init : Nat → β}
    (hl : (l.map k).Nodup) {a : α} (ha : a ∈ l) :
    l.foldl (fun m a => Function.update m (k a) (v a)) init (k a) = v a := by
  induction l generalizing init with
  | nil => cases ha
  | cons b l ih =>
      rw [List.map_cons, List.nodup_cons] at hl
      rw [List.foldl_cons]
      rcases List.mem_cons.mp ha with rfl | hmem
      · have hne : ∀ b ∈ l, k b ≠ k a := fun b hb h => hl.1 (List.mem_map.mpr ⟨b, hb, h⟩)
        rw [foldl_update_of_ne hne, Function.update_self]
      · exact ih hl.2 hmem

/-! ## flattening a family -/

theorem flatMap_filterMap (l : List α) (f : α → Option β) (g : β → List γ) :
    (l.filterMap f).flatMap g = l.flatMap fun a => (f a).elim [] g := by
  induction l with
  | nil => rfl
  | cons a l ih =>
      cases hf : f a with
      | none => rw [List.filterMap_cons_none hf, List.flatMap_cons, ih, hf]; rfl
      | some b =>
          rw [List.filterMap_cons_some hf, List.flatMap_cons, List.flatMap_cons, ih, hf]; rfl

variable [DecidableEq α]

/-- One index's block can be moved to the front. -/
theorem flatMap_perm_update {l : List α} (hl : l.Nodup) {a : α} (ha : a ∈ l)
    (f : α → List β) : (l.flatMap f).Perm (f a ++ l.flatMap (Function.update f a [])) := by
  induction l with
  | nil => cases ha
  | cons b l ih =>
      obtain ⟨hb, hl'⟩ := List.nodup_cons.mp hl
      rw [List.flatMap_cons, List.flatMap_cons]
      by_cases hab : b = a
      · subst hab
        rw [Function.update_self, List.nil_append]
        have hl'' : l.flatMap (Function.update f b []) = l.flatMap f :=
          List.flatMap_congr fun c hc =>
            Function.update_of_ne (fun h : c = b => hb (h ▸ hc)) [] f
        rw [hl'']
      · rw [Function.update_of_ne hab]
        have hmem : a ∈ l := (List.mem_cons.mp ha).resolve_left (Ne.symm hab)
        refine ((ih hl' hmem).append_left (f b)).trans ?_
        rw [← List.append_assoc, ← List.append_assoc]
        exact List.perm_append_comm.append_right _

/-- Selecting one more index selects one more element. -/
theorem length_filter_of_update {l : List α} (hl : l.Nodup) {a : α} (ha : a ∈ l) {p q : α → Bool}
    (hp : p a = false) (hq : q a = true) (h : ∀ b, b ≠ a → q b = p b) :
    (l.filter q).length = (l.filter p).length + 1 := by
  induction l with
  | nil => cases ha
  | cons b l ih =>
      obtain ⟨hb, hl'⟩ := List.nodup_cons.mp hl
      by_cases hab : b = a
      · subst hab
        rw [List.filter_cons_of_pos hq, List.filter_cons_of_neg (by simp [hp]), List.length_cons]
        have hpq : l.filter q = l.filter p :=
          List.filter_congr fun c hc => h c fun hcb => hb (hcb ▸ hc)
        rw [hpq]
      · have hmem : a ∈ l := (List.mem_cons.mp ha).resolve_left (Ne.symm hab)
        have := ih hl' hmem
        cases hpb : p b with
        | true =>
            rw [List.filter_cons_of_pos hpb, List.filter_cons_of_pos (by rw [h b hab, hpb]),
              List.length_cons, List.length_cons, this]
        | false =>
            have hqb : ¬ q b = true := by rw [h b hab, hpb]; exact Bool.false_ne_true
            rw [List.filter_cons_of_neg hqb, List.filter_cons_of_neg (by simp [hpb]), this]

omit [DecidableEq α] in
/-- A sum over an array in which one element is exchanged. -/
theorem sum_map_set (f : α → Nat) {l : List α} {i : Nat} {x : α} (h : l[i]? = some x) (y : α) :
    ((l.set i y).map f).sum + f x = (l.map f).sum + f y := by
  induction l generalizing i with
  | nil => cases h
  | cons z l ih =>
      cases i with
      | zero =>
          obtain rfl : z = x := by simpa using h
          simp only [List.set_cons_zero, List.map_cons, List.sum_cons]
          omega
      | succ i =>
          have := ih (i := i) (by simpa using h)
          simp only [List.set_cons_succ, List.map_cons, List.sum_cons]
          omega

end CArray
