import LiteHttp.KhashSpec
import LiteHttp.Lib.Power

/-!
# Rehashing a table

The rehash works in the arrays that hold the table. Every entry is marked in the old
flags, marked in the new ones, or in hand, and never two of these at once; a round of
the kick-out process puts the one in hand and takes the one it finds there.
-/

namespace LiteHttp

open Probe Power

set_option autoImplicit false

/-! ## The new size -/

/-- Or-ing a number with its shift doubles the distance over which its bits are spread. -/
theorem testBit_smear {x y d : Nat} (h : ∀ i, y.testBit i = true ↔ ∃ e < d, x.testBit (i + e) = true)
    (i : Nat) : (smear d y).testBit i = true ↔ ∃ e < 2 * d, x.testBit (i + e) = true := by
  rw [smear, Nat.testBit_or, Nat.testBit_shiftRight, Bool.or_eq_true, h, h]
  constructor
  · rintro (⟨e, he, hbit⟩ | ⟨e, he, hbit⟩)
    · exact ⟨e, by omega, hbit⟩
    · refine ⟨d + e, by omega, ?_⟩
      rwa [show i + (d + e) = d + i + e by omega]
  · intro hx
    obtain ⟨e, he, hbit⟩ := hx
    rcases Nat.lt_or_ge e d with hlt | hge
    · exact Or.inl ⟨e, hlt, hbit⟩
    · refine Or.inr ⟨e - d, by omega, ?_⟩
      rwa [show d + i + (e - d) = i + e by omega]

/-- The five steps of kroundup32 set every bit below the highest. -/
theorem smear_eq {x : Nat} (hpos : x ≠ 0) (hlt : x < 2 ^ 32) :
    smear 16 (smear 8 (smear 4 (smear 2 (smear 1 x)))) = 2 ^ (x.log2 + 1) - 1 := by
  have hone (i : Nat) : x.testBit i = true ↔ ∃ e < 1, x.testBit (i + e) = true := by simp
  have hall := testBit_smear (testBit_smear (testBit_smear (testBit_smear (testBit_smear hone))))
  apply Nat.eq_of_testBit_eq
  intro i
  rw [Bool.eq_iff_iff, hall, Nat.testBit_two_pow_sub_one, decide_eq_true_eq]
  constructor
  · intro hx
    obtain ⟨e, -, hbit⟩ := hx
    have hle : 2 ^ (i + e) ≤ x := Nat.ge_two_pow_of_testBit hbit
    have := (Nat.le_log2 hpos).mpr hle
    omega
  · intro hi
    have hlog : x.log2 < 32 := (Nat.log2_lt hpos).mpr hlt
    refine ⟨x.log2 - i, by omega, ?_⟩
    rw [show i + (x.log2 - i) = x.log2 by omega]
    exact Nat.testBit_log2 hpos

theorem kroundup32_isLeast {x : Nat} (hx : 2 ≤ x) (hle : x ≤ 2 ^ 31) :
    IsLeast (holding x) (kroundup32 x) := by
  have hne : x - 1 ≠ 0 := by omega
  have hdec : u32 (x + (2 ^ 32 - 1)) = x - 1 := by
    unfold u32
    omega
  have hlow : 2 ^ (x - 1).log2 ≤ x - 1 := Nat.log2_self_le hne
  have hhigh : x - 1 < 2 ^ ((x - 1).log2 + 1) := Nat.lt_log2_self
  have hlog : (x - 1).log2 + 1 ≤ 31 := (Nat.log2_lt hne).mpr (by omega)
  have hpow : 2 ^ ((x - 1).log2 + 1) ≤ 2 ^ 31 := Nat.pow_le_pow_right (by decide) hlog
  have hround : kroundup32 x = 2 ^ ((x - 1).log2 + 1) := by
    rw [kroundup32, hdec, smear_eq hne (by omega), Nat.sub_add_cancel Nat.one_le_two_pow]
    exact Nat.mod_eq_of_lt (by omega)
  rw [hround]
  constructor
  · exact ⟨⟨_, rfl⟩, by omega⟩
  · intro c hc
    obtain ⟨⟨k, rfl⟩, hck⟩ := hc
    apply Nat.pow_le_pow_right (by decide)
    have : 2 ^ (x - 1).log2 < 2 ^ k := by omega
    exact (Nat.pow_lt_pow_iff_right (by decide)).mp this

theorem isLeast_pow {x k : Nat} (hle : x ≤ 2 ^ k) (hlt : 2 ^ k < 2 * x) : IsLeast (holding x) (2 ^ k) := by
  refine ⟨⟨⟨k, rfl⟩, hle⟩, ?_⟩
  intro c hc
  obtain ⟨⟨m, rfl⟩, hcm⟩ := hc
  apply Nat.pow_le_pow_right (by decide)
  have : 2 ^ k < 2 ^ (m + 1) := by
    rw [pow_succ]
    omega
  have := (Nat.pow_lt_pow_iff_right (by decide)).mp this
  omega

theorem resizeTo_eq {x k : Nat} (hk : 2 ≤ k) (hx : 2 ≤ x) (hle : x ≤ 2 ^ k) (hlt : 2 ^ k < 2 * x)
    (hmax : x ≤ 2 ^ 31) : Khash.resizeTo x = 2 ^ k := by
  have hround : kroundup32 x = 2 ^ k := (kroundup32_isLeast hx hmax).unique (isLeast_pow hle hlt)
  have h4 : 2 ^ 2 ≤ 2 ^ k := Nat.pow_le_pow_right (by decide) hk
  rw [Khash.resizeTo, hround, if_neg (by omega)]

end LiteHttp
