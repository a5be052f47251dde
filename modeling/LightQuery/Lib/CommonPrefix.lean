import Mathlib.Data.List.Infix
import Mathlib.Data.List.Basic

/-!
# Lib.CommonPrefix

Common prefixes of lists, and the loop that measures them.

`lcp xs ys` is the length of the longest common prefix; the lemmas relate it
to the prefix order `<+:`, to truncation and to a shared front.  `mismatch`
is the comparison loop of a C program over two arrays whose reads may fault,
and `mismatch_eq` says that it computes `lcp` wherever both reads succeed.
Nothing here depends on what the lists hold.
-/

namespace CommonPrefix

variable {α ε : Type} [DecidableEq α]

/-! ## the longest common prefix -/

/-- Length of the longest common prefix of two lists. -/
def lcp : List α → List α → Nat
  | x :: xs, y :: ys => if x = y then lcp xs ys + 1 else 0
  | _, _ => 0

@[simp] theorem lcp_nil_left (ys : List α) : lcp [] ys = 0 := by simp [lcp]

@[simp] theorem lcp_nil_right (xs : List α) : lcp xs [] = 0 := by cases xs <;> simp [lcp]

theorem lcp_cons (x y : α) (xs ys : List α) :
    lcp (x :: xs) (y :: ys) = if x = y then lcp xs ys + 1 else 0 := rfl

theorem lcp_comm (xs ys : List α) : lcp xs ys = lcp ys xs := by
  induction xs generalizing ys with
  | nil => simp
  | cons x xs ih =>
      cases ys with
      | nil => simp
      | cons y ys =>
          rw [lcp_cons, lcp_cons, ih ys]
          by_cases h : x = y
          · rw [if_pos h, if_pos h.symm]
          · rw [if_neg h, if_neg (Ne.symm h)]

theorem lcp_le_left (xs ys : List α) : lcp xs ys ≤ xs.length := by
  induction xs generalizing ys with
  | nil => simp
  | cons x xs ih =>
      cases ys with
      | nil => simp
      | cons y ys =>
          rw [lcp_cons]
          have h := ih ys
          split
          · simpa using h
          · simp

theorem lcp_le_right (xs ys : List α) : lcp xs ys ≤ ys.length := by
  rw [lcp_comm]; exact lcp_le_left ys xs

/-- The whole left list is shared exactly when it is a prefix of the right one. -/
theorem lcp_eq_length_iff {xs ys : List α} : lcp xs ys = xs.length ↔ xs <+: ys := by
  induction xs generalizing ys with
  | nil => simp
  | cons x xs ih =>
      cases ys with
      | nil => simp
      | cons y ys =>
          rw [lcp_cons, List.cons_prefix_cons, ← ih]
          split <;> simp_all

theorem length_le_lcp_iff {xs ys : List α} : xs.length ≤ lcp xs ys ↔ xs <+: ys := by
  rw [← lcp_eq_length_iff]
  have := lcp_le_left xs ys
  omega

/-- A shared front is counted in full. -/
theorem lcp_append_append (p xs ys : List α) :
    lcp (p ++ xs) (p ++ ys) = p.length + lcp xs ys := by
  induction p with
  | nil => simp
  | cons a p ih =>
      rw [List.cons_append, List.cons_append, lcp_cons, if_pos rfl, ih, List.length_cons]
      omega

/-- Truncating one list truncates the common prefix. -/
theorem lcp_take_left (xs ys : List α) (n : Nat) : lcp (xs.take n) ys = min n (lcp xs ys) := by
  induction xs generalizing ys n with
  | nil => simp
  | cons x xs ih =>
      cases n with
      | zero => simp
      | succ n =>
          cases ys with
          | nil => simp
          | cons y ys =>
              rw [List.take_succ_cons, lcp_cons, lcp_cons, ih ys n]
              split <;> omega

theorem lcp_take_right (xs ys : List α) (n : Nat) : lcp xs (ys.take n) = min n (lcp xs ys) := by
  rw [lcp_comm, lcp_take_left, lcp_comm]

/-- How far a list has to agree for a front of it to be a prefix. -/
theorem take_prefix_iff_le_lcp {xs ys : List α} {n : Nat} :
    xs.take n <+: ys ↔ min n xs.length ≤ lcp ys xs := by
  have hle := lcp_le_right ys xs
  rw [← length_le_lcp_iff, lcp_take_left, List.length_take, lcp_comm]
  omega

/-- The common prefix of a prefix is the common prefix, cut to its length. -/
theorem lcp_of_prefix {xs zs : List α} (h : xs <+: zs) (ys : List α) :
    lcp xs ys = min xs.length (lcp zs ys) := by
  obtain ⟨t, rfl⟩ := h
  have := lcp_take_left (xs ++ t) ys xs.length
  rwa [List.take_left] at this

/-- The two lists agree on the common prefix. -/
theorem getElem?_eq_of_lt_lcp {xs ys : List α} {i : Nat} (h : i < lcp xs ys) :
    xs[i]? = ys[i]? := by
  induction xs generalizing ys i with
  | nil => simp at h
  | cons x xs ih =>
      cases ys with
      | nil => simp at h
      | cons y ys =>
          rw [lcp_cons] at h
          by_cases hxy : x = y
          · rw [if_pos hxy] at h
            cases i with
            | zero => simp [hxy]
            | succ i => simpa using ih (by omega)
          · rw [if_neg hxy] at h; omega

/-- The two lists differ right after the common prefix. -/
theorem getElem_lcp_ne {xs ys : List α} (hx : lcp xs ys < xs.length)
    (hy : lcp xs ys < ys.length) : xs[lcp xs ys] ≠ ys[lcp xs ys] := by
  induction xs generalizing ys with
  | nil => simp at hx
  | cons x xs ih =>
      cases ys with
      | nil => simp at hy
      | cons y ys =>
          by_cases hxy : x = y
          · have hl : lcp (x :: xs) (y :: ys) = lcp xs ys + 1 := by rw [lcp_cons, if_pos hxy]
            have h1 : lcp xs ys < xs.length := by rw [hl] at hx; simpa using hx
            have h2 : lcp xs ys < ys.length := by rw [hl] at hy; simpa using hy
            simpa [hl] using ih h1 h2
          · have hl : lcp (x :: xs) (y :: ys) = 0 := by rw [lcp_cons, if_neg hxy]
            simpa [hl] using hxy

/-- Truncation at the common prefix gives the same list on both sides. -/
theorem take_lcp (xs ys : List α) : xs.take (lcp xs ys) = ys.take (lcp xs ys) := by
  apply List.ext_getElem?
  intro i
  rw [List.getElem?_take, List.getElem?_take]
  split
  · exact getElem?_eq_of_lt_lcp ‹_›
  · rfl

theorem take_lcp_prefix_left (xs ys : List α) : xs.take (lcp xs ys) <+: xs :=
  List.take_prefix _ _

/-! ## the comparison loop -/

/-- `for (; idx < max; idx++) if (a[idx] != b[idx]) break;` with `n = max - idx`
iterations left; the value is `idx` at the exit.  A faulting read ends the loop. -/
def mismatch (a b : Nat → Except ε α) : (idx n : Nat) → Except ε Nat
  | idx, 0 => .ok idx
  | idx, n + 1 => do
      let x ← a idx
      let y ← b idx
      if x ≠ y then .ok idx else mismatch a b (idx + 1) n

/-- Where both sides read the elements of two lists, the loop counts their
common prefix. -/
theorem mismatch_eq {a b : Nat → Except ε α} (xs ys : List α) {idx n : Nat}
    (hxs : n ≤ xs.length) (hys : n ≤ ys.length)
    (ha : ∀ (i : Nat) (h : i < n), a (idx + i) = .ok xs[i])
    (hb : ∀ (i : Nat) (h : i < n), b (idx + i) = .ok ys[i]) :
    mismatch a b idx n = .ok (idx + min n (lcp xs ys)) := by
  induction n generalizing idx xs ys with
  | zero => simp [mismatch]
  | succ n ih =>
      cases xs with
      | nil => simp at hxs
      | cons x xs =>
          cases ys with
          | nil => simp at hys
          | cons y ys =>
              have hx : a idx = .ok x := ha 0 (by omega)
              have hy : b idx = .ok y := hb 0 (by omega)
              rw [mismatch, hx, hy, lcp_cons]
              by_cases hxy : x = y
              · have hxs' : n ≤ xs.length := by simpa using hxs
                have hys' : n ≤ ys.length := by simpa using hys
                have ha' (i : Nat) (hi : i < n) : a (idx + 1 + i) = .ok xs[i] := by
                  have := ha (i + 1) (by omega)
                  simpa [Nat.add_assoc, Nat.add_comm 1] using this
                have hb' (i : Nat) (hi : i < n) : b (idx + 1 + i) = .ok ys[i] := by
                  have := hb (i + 1) (by omega)
                  simpa [Nat.add_assoc, Nat.add_comm 1] using this
                have hrec := ih xs ys hxs' hys' ha' hb'
                simp only [bind, Except.bind, hxy, ne_eq, not_true_eq_false, if_false, if_true]
                rw [hrec]
                congr 1
                omega
              · simp [bind, Except.bind, hxy]

end CommonPrefix
