import LightQuery.Lib.CArray

/-!
# LightQuery.Lib.Lanes

Searching an array by a comparison of all its bytes at once.

A comparison of sixteen byte lanes is collected in a word, cut to the lanes in
use, and the lowest set bit is the first match.  `scan_eq` says that this is a
linear search, for a word of any width, so that the vector instructions and the
portable loop that fills the word bit by bit find the same index.
-/

namespace Lanes

open CArray

/-! ## words of bits -/

/-- The loop that sets bit `i` for each of the first `m` indices with `p i`. -/
def collect (w m : Nat) (p : Nat → Bool) : BitVec w :=
  (List.range m).foldl (fun bits i => if p i then bits ||| 1#w <<< i else bits) 0#w

/-- `(1 << m) - 1`. -/
def lowMask (w m : Nat) : BitVec w := 1#w <<< m - 1#w

/-- The lowest set bit, if there is one. -/
def scan {w : Nat} (x : BitVec w) : Option Nat := if x ≠ 0#w then some x.ctz.toNat else none

variable {w m i : Nat} {p : Nat → Bool}

theorem getLsbD_one_shiftLeft (hi : i < w) (k : Nat) : (1#w <<< k).getLsbD i = decide (i = k) := by
  rw [← BitVec.twoPow_eq, BitVec.getLsbD_twoPow]
  by_cases h : i = k
  · subst h
    simp [hi]
  · simp [h, Ne.symm h]

theorem getLsbD_collect (hi : i < w) : (collect w m p).getLsbD i = (decide (i < m) && p i) := by
  induction m with
  | zero => simp [collect]
  | succ m ih =>
      have hstep : collect w (m + 1) p =
          if p m then collect w m p ||| 1#w <<< m else collect w m p := by
        simp only [collect, List.range_succ, List.foldl_append, List.foldl_cons, List.foldl_nil]
      rw [hstep]
      by_cases him : i = m
      · subst him
        cases hp : p i
        · simp [ih]
        · simp [ih, getLsbD_one_shiftLeft hi]
      · have hlt : decide (i < m + 1) = decide (i < m) := by
          simp only [decide_eq_decide]
          omega
        rw [hlt, ← ih]
        split
        · rw [BitVec.getLsbD_or, getLsbD_one_shiftLeft hi, decide_eq_false him, Bool.or_false]
        · rfl

theorem getLsbD_lowMask (hi : i < w) : (lowMask w m).getLsbD i = decide (i < m) := by
  have hone : 1 < 2 ^ w := Nat.one_lt_two_pow (by omega)
  have hmask : lowMask w m = BitVec.ofNat w (2 ^ m - 1) := by
    have hbit : 1#w <<< m = BitVec.ofNat w (2 ^ m) := by
      rw [← BitVec.twoPow_eq]
      exact BitVec.eq_of_toNat_eq (by rw [BitVec.toNat_twoPow, BitVec.toNat_ofNat])
    rw [lowMask, hbit, BitVec.ofNat_sub_ofNat_of_le _ _ hone Nat.one_le_two_pow]
  rw [hmask, BitVec.getLsbD_ofNat, Nat.testBit_two_pow_sub_one]
  simp [hi]

/-- **The lowest set bit is the first match.** -/
theorem scan_eq {x : BitVec w} (hm : m ≤ w)
    (hx : ∀ i < w, x.getLsbD i = (decide (i < m) && p i)) : scan x = (List.range m).find? p := by
  have hzero : x = 0#w → ∀ i < m, p i = false := by
    intro h i hi
    have := hx i (by omega)
    rw [h, BitVec.getLsbD_zero] at this
    simpa [hi] using this.symm
  unfold scan
  split
  · next hne =>
      have hset := BitVec.getLsbD_true_ctz_of_ne_zero hne
      have hlt : x.ctz.toNat < w := BitVec.lt_of_getLsbD hset
      rw [hx _ hlt] at hset
      simp only [Bool.and_eq_true, decide_eq_true_eq] at hset
      refine (List.find?_range_eq_some.mpr ⟨hset.2, List.mem_range.mpr hset.1, fun j hj => ?_⟩).symm
      have := BitVec.getLsbD_false_of_lt_ctz hj
      rw [hx j (by omega)] at this
      simpa [show j < m by omega] using this
  · next heq =>
      refine (List.find?_eq_none.mpr fun i hi => ?_).symm
      rw [hzero (not_not.mp heq) i (List.mem_range.mp hi)]
      exact Bool.false_ne_true

/-! ## byte lanes -/

/-- `_mm_set1_epi8`. -/
def set1 (c : UInt8) : Nat → UInt8 := fun _ => c

/-- `_mm_cmpeq_epi8`. -/
def cmpeq (a b : Nat → UInt8) : Nat → UInt8 := fun i => if a i = b i then 0xFF else 0

/-- `_mm_cmplt_epi8`: the lanes are signed. -/
def cmplt (a b : Nat → UInt8) : Nat → UInt8 :=
  fun i => if (a i).toInt8 < (b i).toInt8 then 0xFF else 0

/-- `_mm_movemask_epi8`: the top bits of the sixteen lanes. -/
def movemask (v : Nat → UInt8) : BitVec 32 := collect 32 16 fun i => decide (0x80 ≤ v i)

end Lanes
