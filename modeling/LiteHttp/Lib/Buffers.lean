import Mathlib.Data.List.Basic

/-!
# Buffers by identity

Memory as the buffers that were ever made, each of them live or released. An
identity is never given out twice, so a pointer into a released buffer stays
distinguishable from one into whatever lies at the same address later.
-/

namespace Buffers

set_option autoImplicit false

abbrev Id := Nat

/-- Some bytes of a buffer. -/
structure Span where
  buffer : Id
  off : Nat
  len : Nat
  deriving DecidableEq, Repr

/-- Of each buffer made so far, whether it is live. -/
structure Memory where
  status : List Bool
  deriving DecidableEq, Repr

namespace Memory

def Live (m : Memory) (b : Id) : Prop := m.status[b]? = some true

instance (m : Memory) (b : Id) : Decidable (m.Live b) := by unfold Live; infer_instance

/-- The identity the next buffer gets. -/
def fresh (m : Memory) : Id := m.status.length

/-- A new buffer is made. -/
def make (m : Memory) : Memory := ⟨m.status ++ [true]⟩

def release (m : Memory) (b : Id) : Memory := ⟨m.status.set b false⟩

/-- A block is resized: it stays where it is, or a new one takes its place and it is released. -/
def realloc (moves : Bool) (m : Memory) (b : Id) : Id × Memory :=
  if moves then (m.fresh, m.make.release b) else (b, m)

variable {m : Memory} {b x : Id}

theorem Live.lt_fresh (h : m.Live b) : b < m.fresh := by
  obtain ⟨hlt, -⟩ := List.getElem?_eq_some_iff.mp h
  exact hlt

theorem Live.ne_fresh (h : m.Live b) : b ≠ m.fresh := Nat.ne_of_lt h.lt_fresh

theorem live_make_iff : m.make.Live x ↔ m.Live x ∨ x = m.fresh := by
  unfold Live make fresh
  rw [List.getElem?_append]
  split
  · rename_i hlt
    exact (or_iff_left (Nat.ne_of_lt hlt)).symm
  · rename_i hge
    have hnone : m.status[x]? = none := List.getElem?_eq_none (Nat.not_lt.mp hge)
    rw [hnone, List.getElem?_singleton]
    constructor
    · intro h
      split at h
      · rename_i hzero
        exact Or.inr (Nat.le_antisymm (Nat.sub_eq_zero_iff_le.mp hzero) (Nat.not_lt.mp hge))
      · simp at h
    · intro h
      rcases h with h | rfl
      · simp at h
      · simp

theorem live_release_iff : (m.release b).Live x ↔ m.Live x ∧ x ≠ b := by
  unfold Live release
  rw [List.getElem?_set]
  by_cases hx : b = x
  · rw [if_pos hx]
    refine iff_of_false ?_ fun h => h.2 hx.symm
    split <;> simp
  · rw [if_neg hx]
    exact (and_iff_left (Ne.symm hx)).symm

theorem Live.make (h : m.Live b) : m.make.Live b := live_make_iff.mpr (Or.inl h)

theorem live_make_fresh (m : Memory) : m.make.Live m.fresh := live_make_iff.mpr (Or.inr rfl)

/-- Where it was live, a resized block is live as what it is now, and the other buffers stay. -/
theorem live_realloc_iff (moves : Bool) (h : m.Live b) :
    (m.realloc moves b).2.Live x ↔ (m.Live x ∧ x ≠ b) ∨ x = (m.realloc moves b).1 := by
  unfold realloc
  cases moves with
  | true =>
    simp only [if_true, live_release_iff, live_make_iff]
    constructor
    · rintro ⟨hx | rfl, hb⟩
      · exact Or.inl ⟨hx, hb⟩
      · exact Or.inr rfl
    · rintro (⟨hx, hb⟩ | rfl)
      · exact ⟨Or.inl hx, hb⟩
      · exact ⟨Or.inr rfl, Ne.symm h.ne_fresh⟩
  | false =>
    simp only [Bool.false_eq_true, if_false]
    by_cases hx : x = b
    · subst hx
      exact iff_of_true h (Or.inr rfl)
    · simp [hx]

theorem realloc_ne (moves : Bool) (h : m.Live x) (hx : x ≠ b) : x ≠ (m.realloc moves b).1 := by
  unfold realloc
  cases moves with
  | true => exact h.ne_fresh
  | false => exact hx

/-- At most one buffer is made for it. -/
theorem fresh_realloc_le (moves : Bool) (m : Memory) (b : Id) :
    (m.realloc moves b).2.fresh ≤ m.fresh + 1 := by
  unfold realloc
  cases moves with
  | true => simp [fresh, make, release]
  | false => exact Nat.le_succ m.fresh

end Memory

end Buffers
