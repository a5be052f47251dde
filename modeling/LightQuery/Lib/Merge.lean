import Mathlib.Data.List.Infix

/-!
# LightQuery.Lib.Merge

Two streams that are written into one.

`Merge xs ys zs` says that `zs` has the elements of both lists, those of each in
their order.  The lists grow at their ends, as a mailbox does that several
senders write to.
-/

variable {α : Type*}

/-- `zs` is `xs` and `ys`, each in its order. -/
inductive Merge : List α → List α → List α → Prop
  | nil : Merge [] [] []
  | left {xs ys zs : List α} (h : Merge xs ys zs) (x : α) : Merge (xs ++ [x]) ys (zs ++ [x])
  | right {xs ys zs : List α} (h : Merge xs ys zs) (y : α) : Merge xs (ys ++ [y]) (zs ++ [y])

namespace Merge

variable {xs ys zs : List α}

/-- The first stream goes on. -/
theorem append_left (h : Merge xs ys zs) (l : List α) : Merge (xs ++ l) ys (zs ++ l) := by
  induction l using List.reverseRecOn with
  | nil => simpa using h
  | append_singleton l x ih =>
      rw [← List.append_assoc, ← List.append_assoc]
      exact ih.left x

/-- The second stream goes on. -/
theorem append_right (h : Merge xs ys zs) (l : List α) : Merge xs (ys ++ l) (zs ++ l) := by
  induction l using List.reverseRecOn with
  | nil => simpa using h
  | append_singleton l y ih =>
      rw [← List.append_assoc, ← List.append_assoc]
      exact ih.right y

/-- A stream alone is not changed. -/
theorem eq_of_nil (h : Merge [] ys zs) : zs = ys := by
  generalize hxs : ([] : List α) = xs at h
  induction h with
  | nil => rfl
  | left h x ih => simp at hxs
  | right h y ih => rw [ih hxs]

end Merge
