import Mathlib.Order.Bounds.Basic
import Mathlib.Algebra.Order.Ring.Int

/-!
# The least power of two above a number

A number that is a power of two is its own; of another it is the power behind its
binary logarithm.
-/

namespace Power

set_option autoImplicit false

/-- The powers of two that hold `n`. -/
def holding (n : Nat) : Set Nat := {c | c.isPowerOfTwo ∧ n ≤ c}

variable {n : Nat}

theorem isLeast_self (h : n.isPowerOfTwo) : IsLeast (holding n) n :=
  ⟨⟨h, Nat.le_refl n⟩, fun _ hc => hc.2⟩

theorem isLeast_log2 (hne : n ≠ 0) (h : ¬ n.isPowerOfTwo) : IsLeast (holding n) (2 ^ (n.log2 + 1)) := by
  constructor
  · exact ⟨⟨n.log2 + 1, rfl⟩, Nat.le_of_lt Nat.lt_log2_self⟩
  · intro c hc
    obtain ⟨⟨k, rfl⟩, hle⟩ := hc
    apply Nat.pow_le_pow_right (by decide)
    have hlow : 2 ^ n.log2 ≤ n := Nat.log2_self_le hne
    have hlt : n < 2 ^ k := by
      rcases Nat.lt_or_eq_of_le hle with hlt | heq
      · exact hlt
      · exact absurd ⟨k, heq⟩ h
    exact (Nat.pow_lt_pow_iff_right (by decide)).mp (Nat.lt_of_le_of_lt hlow hlt)

/-- What is below every power of two that holds `n` is below the least one. -/
theorem le_iff_of_isLeast {c d : Nat} (h : IsLeast (holding n) c) :
    d ≤ c ↔ ∀ k, k.isPowerOfTwo → n ≤ k → d ≤ k := by
  constructor
  · intro hd k hk hn
    exact Nat.le_trans hd (h.2 ⟨hk, hn⟩)
  · exact fun hall => hall c h.1.1 h.1.2

end Power
