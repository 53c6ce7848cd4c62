import LiteHttp.StringT
import LiteHttp.Lib.Power

/-!
# The arithmetic of growth

The two compile paths of `next_capacity` and the offset an append writes at,
against the least power of two that holds the new size.
-/

namespace LiteHttp

open Power

set_option autoImplicit false

/-- The portable loop of `next_capacity`: `n` is shifted by no place. It has run out of fuel where
there is no result. -/
def growLoop : Nat → Nat → Nat → Option Nat
  | 0, _, _ => none
  | fuel + 1, n, ret =>
    if 0 < n then growLoop fuel (n >>> 0) ((ret <<< 1) % sizeMod) else some ret

/-- `next_capacity` as any other compiler sees it. -/
def nextCapacityPortable (fuel n : Nat) : Option Nat :=
  if n = 0 then some 1
  else if n &&& (n - 1) = 0 then some n
  else growLoop fuel n 1

/-- A length handed on as an `int`. -/
def intOffset (oldLen : Nat) : Int := (oldLen : Int).bmod (2 ^ 32)

theorem growLoop_eq_none {n : Nat} (hpos : 0 < n) (fuel ret : Nat) : growLoop fuel n ret = none := by
  induction fuel generalizing ret with
  | zero => rfl
  | succ fuel ih =>
    rw [growLoop, if_pos hpos, Nat.shiftRight_zero]
    exact ih _

theorem nextCapacity_of_pow {n : Nat} (h : n.isPowerOfTwo) : nextCapacity n = some n := by
  have hne : n ≠ 0 := fun hzero => Nat.not_isPowerOfTwo_zero (hzero ▸ h)
  rw [nextCapacity, if_neg hne, if_pos ((Nat.and_sub_one_eq_zero_iff_isPowerOfTwo hne).mpr h)]

/-- Other sizes are shifted up, as far as an `int` can be. -/
theorem nextCapacity_of_not_pow {n : Nat} (hne : n ≠ 0) (h : ¬ n.isPowerOfTwo) (hle : n ≤ 2 ^ 63) :
    nextCapacity n = if n ≤ 2 ^ 30 then some (2 ^ (n.log2 + 1)) else none := by
  have hand : ¬ n &&& (n - 1) = 0 := by rwa [Nat.and_sub_one_eq_zero_iff_isPowerOfTwo hne]
  have hlog : n.log2 ≤ 63 := by
    have hlow := Nat.log2_self_le hne
    exact (Nat.pow_le_pow_iff_right (by decide)).mp (Nat.le_trans hlow hle)
  have hshift : 64 - clzl n = n.log2 + 1 := by
    unfold clzl
    omega
  have hbound : n.log2 + 1 < 31 ↔ n ≤ 2 ^ 30 := by
    have hlog2 := Nat.log2_lt hne (k := 30)
    constructor
    · intro hlt
      exact Nat.le_of_lt (hlog2.mp (by omega))
    · intro hn
      have hlt : n < 2 ^ 30 := by
        rcases Nat.lt_or_eq_of_le hn with hlt | heq
        · exact hlt
        · exact absurd ⟨30, heq⟩ h
      have := hlog2.mpr hlt
      omega
  simp only [nextCapacity, hne, hand, if_false, hshift, hbound, Nat.one_shiftLeft]

theorem nextCapacity_isLeast {n c : Nat} (hne : n ≠ 0) (hle : n ≤ 2 ^ 63)
    (h : nextCapacity n = some c) : IsLeast (holding n) c := by
  by_cases hpow : n.isPowerOfTwo
  · rw [nextCapacity_of_pow hpow, Option.some.injEq] at h
    exact h ▸ isLeast_self hpow
  · rw [nextCapacity_of_not_pow hne hpow hle] at h
    split at h
    · rw [Option.some.injEq] at h
      exact h ▸ isLeast_log2 hne hpow
    · simp at h

theorem builtin_iff {n : Nat} (hne : n ≠ 0) (hle : n ≤ 2 ^ 63) :
    (∃ c, nextCapacity n = some c ∧ IsLeast (holding n) c) ↔ n.isPowerOfTwo ∨ n ≤ 2 ^ 30 := by
  by_cases hpow : n.isPowerOfTwo
  · exact iff_of_true ⟨n, nextCapacity_of_pow hpow, isLeast_self hpow⟩ (Or.inl hpow)
  · rw [nextCapacity_of_not_pow hne hpow hle, or_iff_right hpow]
    constructor
    · intro h
      obtain ⟨c, hc, -⟩ := h
      by_contra hlarge
      rw [if_neg hlarge] at hc
      simp at hc
    · intro hsmall
      exact ⟨_, if_pos hsmall, isLeast_log2 hne hpow⟩

/-- The loop never ends, so that only powers of two have a capacity on the portable path. -/
theorem portable_iff {n : Nat} (hne : n ≠ 0) :
    (∃ fuel c, nextCapacityPortable fuel n = some c ∧ IsLeast (holding n) c) ↔ n.isPowerOfTwo := by
  have hand := Nat.and_sub_one_eq_zero_iff_isPowerOfTwo hne
  constructor
  · intro h
    obtain ⟨fuel, c, hc, -⟩ := h
    by_contra hpow
    rw [nextCapacityPortable, if_neg hne, if_neg (hand.not.mpr hpow),
      growLoop_eq_none (Nat.pos_of_ne_zero hne)] at hc
    simp at hc
  · intro hpow
    refine ⟨0, n, ?_, isLeast_self hpow⟩
    rw [nextCapacityPortable, if_neg hne, if_pos (hand.mpr hpow)]

theorem intOffset_eq_iff {oldLen : Nat} : intOffset oldLen = oldLen ↔ oldLen < 2 ^ 31 := by
  unfold intOffset
  rw [Int.bmod_def]
  constructor
  · intro h
    split at h <;> omega
  · intro h
    split <;> omega

/-- An append of `added` bytes to `len` computes its capacity and its offset as it should. -/
structure GrowthRight (len added : Nat) : Prop where
  builtin : ∃ c, nextCapacity (len + added + 1) = some c ∧ IsLeast (holding (len + added + 1)) c
  portable : ∃ fuel c, nextCapacityPortable fuel (len + added + 1) = some c ∧
    IsLeast (holding (len + added + 1)) c
  offset : intOffset len = len

/-- What is written then ends within the capacity. -/
theorem GrowthRight.inside {len added : Nat} (h : GrowthRight len added) {c : Nat}
    (hc : nextCapacity (len + added + 1) = some c) : intOffset len + added + 1 ≤ c := by
  have hge := nextCapacity_ge hc
  rw [h.offset]
  omega

theorem growthRight_iff {len added : Nat} (hle : len + added + 1 ≤ 2 ^ 63) :
    GrowthRight len added ↔ (len + added + 1).isPowerOfTwo ∧ len < 2 ^ 31 := by
  have hne : len + added + 1 ≠ 0 := by omega
  constructor
  · intro h
    exact ⟨(portable_iff hne).mp h.portable, intOffset_eq_iff.mp h.offset⟩
  · intro h
    constructor
    · exact (builtin_iff hne hle).mpr (Or.inl h.1)
    · exact (portable_iff hne).mpr h.1
    · exact intOffset_eq_iff.mpr h.2

theorem growthRight_four : GrowthRight 1 2 := by
  apply (growthRight_iff (by decide)).mpr
  exact ⟨⟨2, rfl⟩, by decide⟩

/-- Three bytes send the portable loop round for ever; one byte above 2^30 shifts an `int` too far;
and from 2^31 bytes on the offset is negative. -/
theorem two_not_growthRight :
    ¬ GrowthRight 2 0 ∧ (∀ fuel, nextCapacityPortable fuel 3 = none) ∧
      nextCapacity (2 ^ 30 + 1) = none ∧ intOffset (2 ^ 31) = -2 ^ 31 := by
  have hloop (fuel : Nat) : nextCapacityPortable fuel 3 = none := growLoop_eq_none (by decide) fuel 1
  refine ⟨?_, hloop, by decide +kernel, by decide +kernel⟩
  intro h
  obtain ⟨fuel, c, hc, -⟩ := h.portable
  rw [hloop fuel] at hc
  simp at hc

end LiteHttp
