import LightQuery.Lib.Machine
import LightQuery.Memory
import Mathlib.Data.List.DropRight
import Mathlib.Data.Nat.Digits.Defs

/-!
# LightQuery.Dataflow.Parameter

`string_to_unsigned_int`: the parameter of LIMIT.

The string is read from its end.  The loop's index is unsigned, so that its
test `i >= 0` always holds and only a character that is no digit ends the loop
(`parses_iff`); what stands before a string of digits decides whether the loop
ends there (`parses_of_stray`).
-/

namespace LightQuery

/-- `isdigit`. -/
def isdigit (c : UInt8) : Bool := 48 ≤ c && c ≤ 57

/-- `while (k--) { temp *= 10; }`. -/
def timesTen (temp : UInt32) : (k : Nat) → UInt32
  | 0 => temp
  | k + 1 => timesTen (temp * 10) k

theorem timesTen_eq (n k : Nat) : timesTen (.ofNat n) k = .ofNat (10 ^ k * n) := by
  induction k generalizing n with
  | zero => simp [timesTen]
  | succ k ih =>
      have hten : UInt32.ofNat n * 10 = .ofNat (10 * n) := by
        rw [Nat.mul_comm, UInt32.ofNat_mul]
        rfl
      rw [timesTen, hten, ih, ← Nat.mul_assoc, ← Nat.pow_succ]

/-- `string_to_unsigned_int` before a round of its loop, or behind the loop. -/
structure ParseState where
  i : UInt64
  result : UInt32
  done : Bool
deriving DecidableEq, Repr

namespace ParseState

/-- `auto i = str.size() - 1`. -/
def start (str : List UInt8) : ParseState := ⟨.ofNat str.length - 1, 0, false⟩

/-- The loop was left. -/
def Done (s : ParseState) : Prop := s.done = true

/-- A round of the loop. -/
def step (past : Past) (str : List UInt8) (s : ParseState) : Except Fault ParseState :=
  if s.i ≥ 0 then do
    let k := (UInt64.ofNat str.length - s.i - 1).toUInt32
    let c ← readByte past str s.i.toNat
    if isdigit c then
      let temp := timesTen (c - 48).toUInt32 k.toNat
      .ok ⟨s.i - 1, s.result + temp, false⟩
    else .ok { s with done := true }
  else .ok { s with done := true }

end ParseState

open ParseState Machine

/-- The decimal value, modulo `2 ^ 32`, of the digits that a string ends with. -/
def trailingValue (str : List UInt8) : UInt32 :=
  .ofNat (Nat.ofDigits 10 ((str.rtakeWhile isdigit).reverse.map fun c => c.toNat - 48))

/-- The parser returns the value. -/
def Parses (past : Past) (str : List UInt8) : Prop :=
  ∃ s, Returns Done (step past str) (start str) s ∧ s.result = trailingValue str

/-- The state after the digits `ds`, the last one first. -/
def afterDigits (str ds : List UInt8) : ParseState :=
  ⟨.ofNat str.length - 1 - .ofNat ds.length,
    .ofNat (Nat.ofDigits 10 (ds.map fun c => c.toNat - 48)), false⟩

section Run

variable {past : Past} {str ds rest : List UInt8} {c : UInt8}

/-- The index of the character before `j` others. -/
theorem toNat_index {n j : Nat} (hn : n < 2 ^ 32) (hj : j < n) :
    (UInt64.ofNat n - 1 - UInt64.ofNat j).toNat = n - 1 - j := by
  have hone : UInt64.ofNat n - 1 = UInt64.ofNat (n - 1) := by
    rw [UInt64.ofNat_sub (by omega)]
    rfl
  rw [hone, ← UInt64.ofNat_sub (by omega), UInt64.toNat_ofNat']
  omega

/-- The place of the digit before `j` others. -/
theorem place_eq {n j : Nat} (hj : j < 2 ^ 32) :
    (UInt64.ofNat n - (UInt64.ofNat n - 1 - UInt64.ofNat j) - 1).toUInt32.toNat = j := by
  have hplace : UInt64.ofNat n - (UInt64.ofNat n - 1 - UInt64.ofNat j) - 1 = UInt64.ofNat j := by
    grind
  rw [hplace]
  simp
  omega

theorem readByte_index (hlen : str.length < 2 ^ 32) (hrev : str.reverse = ds ++ c :: rest) :
    readByte past str (afterDigits str ds).i.toNat = .ok c := by
  have hj : ds.length < str.length := by
    have := congrArg List.length hrev
    simp at this
    omega
  have hget : str[str.length - 1 - ds.length]? = some c := by
    have := congrArg (·[ds.length]?) hrev
    rw [List.getElem?_reverse hj] at this
    simpa using this
  rw [afterDigits, toNat_index hlen hj, readByte, hget]

/-- A digit is added at its place. -/
theorem step_digit (hlen : str.length < 2 ^ 32) (hrev : str.reverse = ds ++ c :: rest)
    (hc : isdigit c = true) :
    step past str (afterDigits str ds) = .ok (afterDigits str (ds ++ [c])) := by
  have hj : ds.length < 2 ^ 32 := by
    have := congrArg List.length hrev
    simp at this
    omega
  have hdigit : (c - 48).toUInt32 = .ofNat (c.toNat - 48) := by
    have hle : 48 ≤ c := by simp [isdigit] at hc; exact hc.1
    rw [← UInt32.toNat_inj, UInt8.toNat_toUInt32, UInt8.toNat_sub_of_le _ _ hle]
    simp
    have := c.toNat_lt
    omega
  rw [step, if_pos (by simp), readByte_index hlen hrev]
  simp only [bind, Except.bind, hc, if_true, afterDigits, place_eq hj, hdigit, timesTen_eq]
  congr 2
  · rw [List.length_append, List.length_singleton, UInt64.ofNat_add]
    grind
  · rw [List.map_append, Nat.ofDigits_append, List.map_singleton, Nat.ofDigits_singleton,
      List.length_map, UInt32.ofNat_add]

/-- The loop is left at a character that is no digit. -/
theorem step_other (hread : readByte past str (afterDigits str ds).i.toNat = .ok c)
    (hc : ¬ isdigit c = true) :
    step past str (afterDigits str ds) = .ok { afterDigits str ds with done := true } := by
  rw [step, if_pos (by simp), hread]
  simp only [bind, Except.bind, if_neg hc]

/-- The rounds for the digits at the end. -/
theorem steps_digits (hlen : str.length < 2 ^ 32) (hrev : str.reverse = ds ++ rest)
    (hds : ∀ d ∈ ds, isdigit d = true) :
    Steps Done (step past str) (start str) (afterDigits str ds) := by
  induction ds using List.reverseRecOn generalizing rest with
  | nil =>
      have hstart : start str = afterDigits str [] := by simp [start, afterDigits]
      rw [hstart]
  | append_singleton ds d ih =>
      rw [List.append_assoc] at hrev
      have hnext : step past str (afterDigits str ds) = _ := step_digit hlen hrev (hds d (by simp))
      have hsteps := ih hrev fun d' hd' => hds d' (by simp [hd'])
      exact hsteps.tail ⟨by simp [Done, afterDigits], hnext⟩

/-- A read that is no digit, before the digits at the end, gives the value. -/
theorem parses_of_read (hlen : str.length < 2 ^ 32) (hrev : str.reverse = ds ++ rest)
    (hds : ∀ d ∈ ds, isdigit d = true)
    (hread : readByte past str (afterDigits str ds).i.toNat = .ok c) (hc : ¬ isdigit c = true)
    (htake : str.reverse.takeWhile isdigit = ds) : Parses past str := by
  have hlast := step_other hread hc
  refine ⟨_, ⟨(steps_digits hlen hrev hds).tail ⟨by simp [Done, afterDigits], hlast⟩, rfl⟩, ?_⟩
  rw [trailingValue, List.rtakeWhile, List.reverse_reverse, htake]
  rfl

/-- The last character that is no digit. -/
theorem exists_last_other (h : ∃ c ∈ str, ¬ isdigit c = true) :
    ∃ ds c rest, str.reverse = ds ++ c :: rest ∧ (∀ d ∈ ds, isdigit d = true) ∧
      ¬ isdigit c = true := by
  obtain ⟨c, hmem, hc⟩ := h
  cases hfind : str.reverse.find? fun c => !isdigit c with
  | none =>
      have := List.find?_eq_none.mp hfind c (List.mem_reverse.mpr hmem)
      simp [hc] at this
  | some c' =>
      obtain ⟨hc', ds, rest, hrev, hds⟩ := List.find?_eq_some_iff_append.mp hfind
      exact ⟨ds, c', rest, hrev, fun d hd => by simpa using hds d hd, by simpa using hc'⟩

/-- A character that is no digit ends the loop inside the string. -/
theorem parses_of_other (hlen : str.length < 2 ^ 32) (h : ∃ c ∈ str, ¬ isdigit c = true) :
    Parses past str := by
  obtain ⟨ds, c, rest, hrev, hds, hc⟩ := exists_last_other h
  refine parses_of_read hlen hrev hds (readByte_index hlen hrev) hc ?_
  rw [hrev, List.takeWhile_append_of_pos hds, List.takeWhile_cons_of_neg hc, List.append_nil]

/-- On a string of digits the loop goes on to what stands before it. -/
theorem parses_of_stray (hlen : str.length < 2 ^ 32) (h : ∀ d ∈ str, isdigit d = true)
    (hread : past (2 ^ 64 - 1) = .ok c) (hc : ¬ isdigit c = true) : Parses past str := by
  have hi : (afterDigits str str.reverse).i.toNat = 2 ^ 64 - 1 := by
    have hwrap : UInt64.ofNat str.length - 1 - UInt64.ofNat str.length = -1 := by grind
    rw [afterDigits, List.length_reverse, hwrap]
    rfl
  have hrest : str.reverse = str.reverse ++ [] := (List.append_nil _).symm
  have hds : ∀ d ∈ str.reverse, isdigit d = true := fun d hd => h d (List.mem_reverse.mp hd)
  refine parses_of_read hlen hrest hds ?_ hc (List.takeWhile_eq_self_iff.mpr hds)
  rw [hi, readByte_ge past (by omega), hread]

/-- No round on a string of digits that stays inside it leaves the loop. -/
theorem not_done_of_digits (h : ∀ d ∈ str, isdigit d = true) {s s' : ParseState}
    (hnext : Next Done (step Past.strict str) s s') : ¬ Done s' := by
  have hstep := hnext.2
  rw [step, if_pos (by simp), readByte] at hstep
  cases hget : str[s.i.toNat]? with
  | none => simp [hget, Past.strict, bind, Except.bind] at hstep
  | some c =>
      simp only [hget, bind, Except.bind, h c (List.mem_of_getElem? hget), if_true] at hstep
      cases hstep
      simp [Done]

end Run

/-- **Parsing an operator parameter.**  The parser terminates, stays inside the
string and returns the value of its last digits if and only if a character is
no digit. -/
theorem parses_iff {str : List UInt8} (hlen : str.length < 2 ^ 32) :
    Parses Past.strict str ↔ ∃ c ∈ str, ¬ isdigit c = true := by
  constructor
  · rintro ⟨s, ⟨hsteps, hdone⟩, -⟩
    by_contra hall
    have hdigits : ∀ d ∈ str, isdigit d = true := by simpa using hall
    have hstart : ¬ Done (start str) := by simp [Done, start]
    exact Steps.invariant (I := fun s => ¬ Done s) hsteps hstart
      (fun _ _ _ => not_done_of_digits hdigits) hdone
  · exact parses_of_other hlen

/-- A name with a number behind it: the hypothesis of `parses_iff` can be met,
and its condition too. -/
theorem parses_iff_number : Parses Past.strict [110, 52, 50] :=
  (parses_iff (by decide)).mpr ⟨110, by decide, by decide⟩

/-- "5", the parameter of LIMIT in the simple tree: the second round reads the
byte before the string. -/
theorem parses_five : ¬ ∀ str : List UInt8, str.length < 2 ^ 32 → Parses Past.strict str := by
  intro hall
  obtain ⟨s, ⟨hsteps, hdone⟩, -⟩ := hall [53] (by decide)
  rcases hsteps.cases_head with rfl | ⟨s₁, ⟨-, hfirst⟩, hsteps⟩
  · cases hdone
  · have hs₁ : step Past.strict [53] (start [53]) = .ok ⟨0 - 1, 5, false⟩ := by decide
    obtain rfl := Except.ok.inj (hs₁.symm.trans hfirst)
    rcases hsteps.cases_head with rfl | ⟨s₂, ⟨-, hsecond⟩, -⟩
    · cases hdone
    · have hstray : step Past.strict [53] ⟨0 - 1, 5, false⟩ = .error (.pastEnd (2 ^ 64 - 1)) := by
        decide
      rw [hstray] at hsecond
      cases hsecond

end LightQuery
