import Mathlib.Data.List.Infix
import Mathlib.Data.List.Nodup

/-!
# LightQuery.Index.Map

What an actor index is for: a finite map from addresses to values with a set of
disabled prefixes.

A disabled prefix covers every address that starts with it; covered addresses
hold no value and look up as disabled.  `Index.Refine` shows that the radix
tree index refines this map.
-/

namespace LightQuery

/-- A finite map with disabled prefixes. -/
structure MapIndex (V : Type) where
  live : List (List UInt8 × V)
  disabled : List (List UInt8)

namespace MapIndex

variable {V : Type}

/-- Nothing is stored, nothing is disabled. -/
def empty : MapIndex V := ⟨[], []⟩

/-- Some disabled prefix covers the address. -/
def Covers (m : MapIndex V) (a : List UInt8) : Prop := ∃ p ∈ m.disabled, p <+: a

instance (m : MapIndex V) (a : List UInt8) : Decidable (m.Covers a) :=
  inferInstanceAs (Decidable (∃ p ∈ m.disabled, p <+: a))

/-- The value stored for an address. -/
def get (m : MapIndex V) (a : List UInt8) : Option V :=
  (m.live.find? fun e => decide (e.1 = a)).map Prod.snd

/-- -1 for a covered address, 1 and the value for a stored one, else 0. -/
def lookup (m : MapIndex V) (a : List UInt8) : Int × Option V :=
  if m.Covers a then (-1, none)
  else match m.get a with
    | some v => (1, some v)
    | none => (0, none)

/-- Store a value, over an older one. -/
def insert (m : MapIndex V) (a : List UInt8) (v : V) : MapIndex V :=
  { m with live := (a, v) :: m.live.filter fun e => !decide (e.1 = a) }

/-- Forget an address. -/
def erase (m : MapIndex V) (a : List UInt8) : MapIndex V :=
  { m with live := m.live.filter fun e => !decide (e.1 = a) }

/-- Disable a prefix and forget the addresses that it covers. -/
def disable (m : MapIndex V) (p : List UInt8) : MapIndex V :=
  ⟨m.live.filter fun e => !decide (p <+: e.1), p :: m.disabled⟩

/-- The values of the addresses under a prefix. -/
def scope (m : MapIndex V) (p : List UInt8) : List V :=
  (m.live.filter fun e => decide (p <+: e.1)).map Prod.snd

/-- How many addresses hold a value. -/
def size (m : MapIndex V) : Nat := m.live.length

/-- No address holds two values. -/
def Functional (m : MapIndex V) : Prop :=
  ∀ ⦃a v w⦄, (a, v) ∈ m.live → (a, w) ∈ m.live → v = w

/-- The map answers with the value that is stored. -/
theorem Functional.get_eq_some_iff {m : MapIndex V} (h : m.Functional) {a : List UInt8} {v : V} :
    m.get a = some v ↔ (a, v) ∈ m.live := by
  unfold get
  constructor
  · intro hg
    obtain ⟨⟨a', v'⟩, he, rfl⟩ := Option.map_eq_some_iff.mp hg
    have ha : a' = a := by simpa using List.find?_some he
    exact ha ▸ List.mem_of_find?_eq_some he
  · intro hmem
    cases hf : m.live.find? fun e => decide (e.1 = a) with
    | none =>
        have := List.find?_eq_none.mp hf _ hmem
        simp at this
    | some e =>
        have ha : e.1 = a := by simpa using List.find?_some hf
        have he : (a, e.2) ∈ m.live := ha ▸ List.mem_of_find?_eq_some hf
        rw [Option.map_some, h he hmem]

theorem get_eq_none_iff {m : MapIndex V} {a : List UInt8} :
    m.get a = none ↔ ∀ v, (a, v) ∉ m.live := by
  simp only [get, Option.map_eq_none_iff, List.find?_eq_none, decide_eq_true_eq]
  exact ⟨fun h v hv => h _ hv rfl, fun h e he ha => h e.2 (ha ▸ he)⟩

/-- What a lookup answers is stored. -/
theorem get_of_lookup {m : MapIndex V} {a : List UInt8} {c : Int} {v : V}
    (h : m.lookup a = (c, some v)) : m.get a = some v := by
  rw [lookup] at h
  split at h
  · cases h
  · cases hg : m.get a with
    | none => simp [hg] at h
    | some w =>
        have hw : w = v := by simpa [hg] using congrArg Prod.snd h
        rw [hw]

/-- An address that looks up as absent is neither covered nor stored. -/
theorem of_lookup_eq_zero {m : MapIndex V} {a : List UInt8} {o : Option V}
    (h : m.lookup a = (0, o)) : ¬ m.Covers a ∧ m.get a = none := by
  rw [lookup] at h
  split at h
  · cases h
  · next hcov =>
      cases hg : m.get a with
      | none => exact ⟨hcov, rfl⟩
      | some w => simp [hg] at h

theorem mem_insert {m : MapIndex V} {a b : List UInt8} {v w : V} :
    (b, w) ∈ (m.insert a v).live ↔ b = a ∧ w = v ∨ b ≠ a ∧ (b, w) ∈ m.live := by
  simp only [insert, List.mem_cons, Prod.mk.injEq, List.mem_filter, Bool.not_eq_true',
    decide_eq_false_iff_not]
  tauto

theorem mem_erase {m : MapIndex V} {a b : List UInt8} {w : V} :
    (b, w) ∈ (m.erase a).live ↔ b ≠ a ∧ (b, w) ∈ m.live := by
  simp only [erase, List.mem_filter, Bool.not_eq_true', decide_eq_false_iff_not]
  tauto

theorem mem_disable {m : MapIndex V} {p b : List UInt8} {w : V} :
    (b, w) ∈ (m.disable p).live ↔ ¬ p <+: b ∧ (b, w) ∈ m.live := by
  simp only [disable, List.mem_filter, Bool.not_eq_true', decide_eq_false_iff_not]
  tauto

theorem mem_scope {m : MapIndex V} {p : List UInt8} {w : V} :
    w ∈ m.scope p ↔ ∃ b, p <+: b ∧ (b, w) ∈ m.live := by
  simp only [scope, List.mem_map, List.mem_filter, decide_eq_true_eq]
  constructor
  · rintro ⟨⟨b, v⟩, ⟨hb, hp⟩, rfl⟩; exact ⟨b, hp, hb⟩
  · rintro ⟨b, hp, hb⟩; exact ⟨(b, w), ⟨hb, hp⟩, rfl⟩

/-- Erasing an address takes away its only entry. -/
theorem length_erase {F : List (List UInt8 × V)} (h : (F.map Prod.fst).Nodup) (a : List UInt8) :
    ((F.filter fun e => !decide (e.1 = a)).length : Int) =
      if (F.find? fun e => decide (e.1 = a)).isSome then (F.length : Int) - 1 else F.length := by
  induction F with
  | nil => rfl
  | cons e F ih =>
      rw [List.map_cons, List.nodup_cons] at h
      by_cases he : e.1 = a
      · have hnot : ∀ x ∈ F, ¬ x.1 = a := fun x hx hxa =>
          h.1 (List.mem_map.mpr ⟨x, hx, hxa.trans he.symm⟩)
        have hself : F.filter (fun e => !decide (e.1 = a)) = F :=
          List.filter_eq_self.mpr fun x hx => by simpa using hnot x hx
        rw [List.filter_cons_of_neg (by simpa using he), List.find?_cons_of_pos (by simpa using he),
          hself, List.length_cons]
        simp
      · have := ih h.2
        rw [List.filter_cons_of_pos (by simpa using he), List.find?_cons_of_neg (by simpa using he),
          List.length_cons, List.length_cons]
        split at this
        · next hs => rw [if_pos hs]; push_cast; omega
        · next hs => rw [if_neg hs]; push_cast; omega

theorem size_erase (m : MapIndex V) (h : (m.live.map Prod.fst).Nodup) (a : List UInt8) :
    ((m.erase a).size : Int) = if (m.get a).isSome then (m.size : Int) - 1 else m.size := by
  have := length_erase h a
  rw [size, erase, get, Option.isSome_map]
  exact this

theorem size_insert (m : MapIndex V) (h : (m.live.map Prod.fst).Nodup) (a : List UInt8) (v : V) :
    ((m.insert a v).size : Int) = if (m.get a).isSome then (m.size : Int) else m.size + 1 := by
  have := size_erase m h a
  have hcons : (m.insert a v).size = (m.erase a).size + 1 := rfl
  rw [hcons]
  split at this
  · next hs => rw [if_pos hs]; push_cast; omega
  · next hs => rw [if_neg hs]; push_cast; omega

@[simp] theorem covers_insert {m : MapIndex V} {a b : List UInt8} {v : V} :
    (m.insert a v).Covers b ↔ m.Covers b := Iff.rfl

@[simp] theorem covers_disable {m : MapIndex V} {p b : List UInt8} :
    (m.disable p).Covers b ↔ p <+: b ∨ m.Covers b := by
  simp [Covers, disable]

end MapIndex

end LightQuery
