import Mathlib.Logic.Relation
import Mathlib.Order.WellFounded
import Mathlib.Order.RelClasses

/-!
# LightQuery.Lib.Machine

Runs of a deterministic machine whose steps may fault.

A machine is a step function and the states in which it has halted.  `Steps`
are its runs; an invariant is proved for a step and holds along every run, a
measure that drops with every step makes every run halt, and a machine that
follows another one step for step halts where the other does.
-/

namespace Machine

variable {S T ε δ : Type*}

/-- A step from a state that has not halted. -/
def Next (halted : S → Prop) (step : S → Except ε S) (s s' : S) : Prop :=
  ¬ halted s ∧ step s = .ok s'

/-- Any number of steps. -/
abbrev Steps (halted : S → Prop) (step : S → Except ε S) : S → S → Prop :=
  Relation.ReflTransGen (Next halted step)

/-- A run that ends in a halted state. -/
def Returns (halted : S → Prop) (step : S → Except ε S) (s s' : S) : Prop :=
  Steps halted step s s' ∧ halted s'

/-- `n` steps as a function, for the evaluation of runs; a halted state stays. -/
def iterate (halted : S → Prop) [DecidablePred halted] (step : S → Except ε S) :
    Nat → S → Except ε S
  | 0, s => .ok s
  | n + 1, s =>
      if halted s then .ok s
      else match step s with
        | .ok s' => iterate halted step n s'
        | .error e => .error e

variable {halted : S → Prop} {step : S → Except ε S}

theorem steps_of_iterate [DecidablePred halted] {n : Nat} {s s' : S}
    (h : iterate halted step n s = .ok s') : Steps halted step s s' := by
  induction n generalizing s with
  | zero =>
      have : s = s' := by simpa [iterate] using h
      exact this ▸ .refl
  | succ n ih =>
      rw [iterate] at h
      split at h
      · have : s = s' := by simpa using h
        exact this ▸ .refl
      · next hs =>
          split at h
          · next t ht => exact .head ⟨hs, ht⟩ (ih h)
          · cases h

/-- A result is found by evaluation. -/
theorem exists_ok_of_any {r : Except ε S} {p : S → Bool} (h : r.toOption.any p = true) :
    ∃ s, r = .ok s ∧ p s = true := by
  cases r with
  | error e => cases h
  | ok s => exact ⟨s, rfl, h⟩

/-- A run is found by evaluation. -/
theorem exists_steps_of_iterate [DecidablePred halted] {n : Nat} {s : S} {p : S → Bool}
    (h : (iterate halted step n s).toOption.any p = true) :
    ∃ s', Steps halted step s s' ∧ p s' = true := by
  obtain ⟨s', hrun, hp⟩ := exists_ok_of_any h
  exact ⟨s', steps_of_iterate hrun, hp⟩

/-- **Invariant rule**: what the first state has and every step keeps holds
along every run. -/
theorem Steps.invariant {I : S → Prop} {s s' : S} (h : Steps halted step s s') (hs : I s)
    (hstep : ∀ a b, I a → Next halted step a b → I b) : I s' := by
  induction h with
  | refl => exact hs
  | tail _ hnext ih => exact hstep _ _ ih hnext

/-- **Termination rule**: where an invariant lets every state step on and every
step drop a well-founded measure, the run returns. -/
theorem returns_of_measure {M : Type*} [LT M] [WellFoundedLT M] {I : S → Prop} (μ : S → M)
    (hstep : ∀ s, I s → ¬ halted s → ∃ s', step s = .ok s' ∧ I s' ∧ μ s' < μ s) (s : S)
    (hs : I s) : ∃ s', Returns halted step s s' := by
  induction h : μ s using WellFoundedLT.induction generalizing s with
  | ind m ih =>
      by_cases hh : halted s
      · exact ⟨s, .refl, hh⟩
      · obtain ⟨t, ht, hinv, hlt⟩ := hstep s hs hh
        obtain ⟨s', hsteps, hhalt⟩ := ih (μ t) (h ▸ hlt) t hinv rfl
        exact ⟨s', .head ⟨hh, ht⟩ hsteps, hhalt⟩

/-- **Simulation rule**: a machine that can follow every step of another one
follows its runs. -/
theorem Steps.simulate {halted' : T → Prop} {step' : T → Except δ T} {R : S → T → Prop} {t t' : T}
    (h : Steps halted' step' t t')
    (hstep : ∀ s a b, R s a → Next halted' step' a b → ∃ s', Next halted step s s' ∧ R s' b)
    {s : S} (hs : R s t) : ∃ s', Steps halted step s s' ∧ R s' t' := by
  induction h with
  | refl => exact ⟨s, .refl, hs⟩
  | tail _ hnext ih =>
      obtain ⟨u, hu, hR⟩ := ih
      obtain ⟨s', hs', hR'⟩ := hstep u _ _ hR hnext
      exact ⟨s', hu.tail hs', hR'⟩

end Machine
