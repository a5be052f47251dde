import Mathlib.Data.List.Perm.Basic

/-!
# LightQuery.Lib.Heap

Allocation and deallocation as actions on the live blocks of a heap.

A block is whatever tells it from others for the purpose of accounting.  A
block can only be freed while it is live, so a sequence of actions that can be
performed frees nothing twice.  `Turns as before after` says that the actions
can be performed on the blocks before and leave the blocks after; it composes,
and it holds next to any other blocks (`Turns.frame`).
-/

namespace Heap

variable {β : Type*}

/-- A call of the allocator. -/
inductive Action (β : Type*) where
  | alloc (b : β)
  | free (b : β)

variable [DecidableEq β]

/-- The live blocks after the actions; none where a block is freed that is not
live. -/
def perform : List (Action β) → List β → Option (List β)
  | [], live => some live
  | .alloc b :: as, live => perform as (b :: live)
  | .free b :: as, live => if b ∈ live then perform as (live.erase b) else none

/-- The actions can be performed on the blocks before, and leave the blocks
after. -/
def Turns (as : List (Action β)) (before after : List β) : Prop :=
  ∃ live, perform as before = some live ∧ live.Perm after

variable {as bs : List (Action β)} {A B C : List β} {b : β}

theorem perform_append_actions (as bs : List (Action β)) (live : List β) :
    perform (as ++ bs) live = (perform as live).bind (perform bs) := by
  induction as generalizing live with
  | nil => rfl
  | cons a as ih =>
      cases a with
      | alloc b => exact ih _
      | free b =>
          simp only [List.cons_append, perform]
          split
          · exact ih _
          · rfl

/-- The order of the live blocks does not matter. -/
theorem perform_perm {live live' r : List β} (hp : live.Perm live')
    (h : perform as live = some r) : ∃ r', perform as live' = some r' ∧ r.Perm r' := by
  induction as generalizing live live' with
  | nil => exact ⟨live', rfl, Option.some.inj h ▸ hp⟩
  | cons a as ih =>
      cases a with
      | alloc b => exact ih (hp.cons b) h
      | free b =>
          rw [perform] at h
          split at h
          · next hb =>
              obtain ⟨r', hr', hperm⟩ := ih (hp.erase b) h
              exact ⟨r', by rw [perform, if_pos (hp.mem_iff.mp hb), hr'], hperm⟩
          · cases h

/-- Other blocks are left alone. -/
theorem perform_append_live {live r : List β} (h : perform as live = some r) (C : List β) :
    perform as (live ++ C) = some (r ++ C) := by
  induction as generalizing live with
  | nil => rw [← Option.some.inj h]; rfl
  | cons a as ih =>
      cases a with
      | alloc b => exact ih h
      | free b =>
          rw [perform] at h
          split at h
          · next hb =>
              rw [perform, if_pos (List.mem_append_left C hb), List.erase_append_left C hb]
              exact ih h
          · cases h

namespace Turns

theorem nil : Turns [] A A := ⟨A, rfl, List.Perm.refl A⟩

/-- What turns blocks into others does so in any order of the blocks. -/
theorem congr {A' B' : List β} (h : Turns as A B) (hA : A.Perm A') (hB : B.Perm B') :
    Turns as A' B' := by
  obtain ⟨r, hr, hperm⟩ := h
  obtain ⟨r', hr', hrr⟩ := perform_perm hA hr
  exact ⟨r', hr', hrr.symm.trans (hperm.trans hB)⟩

theorem of_perm (h : A.Perm B) : Turns [] A B := nil.congr (List.Perm.refl A) h

/-- A block is allocated first. -/
theorem alloc (h : Turns as (b :: A) B) : Turns (.alloc b :: as) A B := h

/-- A live block is freed first. -/
theorem free (h : Turns as A B) : Turns (.free b :: as) (b :: A) B := by
  obtain ⟨r, hr, hperm⟩ := h
  exact ⟨r, by rw [perform, if_pos List.mem_cons_self, List.erase_cons_head, hr], hperm⟩

/-- One sequence after the other. -/
theorem append (h : Turns as A B) (h' : Turns bs B C) : Turns (as ++ bs) A C := by
  obtain ⟨r, hr, hperm⟩ := h
  obtain ⟨r', hr', hperm'⟩ := h'.congr hperm.symm (List.Perm.refl C)
  exact ⟨r', by rw [perform_append_actions, hr]; exact hr', hperm'⟩

/-- **Frame rule**: other blocks may be live. -/
theorem frame (h : Turns as A B) (C : List β) : Turns as (A ++ C) (B ++ C) := by
  obtain ⟨r, hr, hperm⟩ := h
  exact ⟨r ++ C, perform_append_live hr C, hperm.append_right C⟩

/-- Blocks are allocated one after the other. -/
theorem allocs (A B : List β) : Turns (A.map .alloc) B (A ++ B) := by
  induction A generalizing B with
  | nil => exact nil
  | cons b A ih => exact ((ih (b :: B)).congr (List.Perm.refl _) List.perm_middle).alloc

/-- Blocks are freed one after the other. -/
theorem frees (A : List β) : Turns (A.map .free) A [] := by
  induction A with
  | nil => exact nil
  | cons b A ih => exact ih.free

/-- One block is replaced by a new one. -/
theorem exchange (a b : β) : Turns [.alloc b, .free a] [a] [b] :=
  (nil.free.congr (List.Perm.swap b a []) (List.Perm.refl _)).alloc

/-- A list of groups of blocks is freed group by group. -/
theorem flatMap {α : Type*} {l : List α} {f : α → List (Action β)} {g : α → List β}
    (h : ∀ a ∈ l, Turns (f a) (g a) []) : Turns (l.flatMap f) (l.flatMap g) [] := by
  induction l with
  | nil => exact nil
  | cons a l ih =>
      have ha := (h a List.mem_cons_self).frame (l.flatMap g)
      exact ha.append (ih fun b hb => h b (List.mem_cons_of_mem a hb))

end Turns

end Heap
