import Mathlib.Data.Nat.Prime.Basic
import Mathlib.Data.Nat.ModEq
import Mathlib.Data.Fintype.EquivFin
import Mathlib.Tactic.Ring

/-!
# Quadratic probing

The steps of a probe get longer by one each time, so the buckets it visits are the
triangular numbers away from where it starts. In a table whose size is a power of
two the first `n` of them are all the buckets there are.
-/

namespace Probe

set_option autoImplicit false

/-- How far a probe is from its start after `s` steps. -/
def tri (s : Nat) : Nat := s * (s + 1) / 2

/-- The bucket of a table of `n` that a probe visits at step `s`. -/
def slot (n start s : Nat) : Nat := (start + tri s) % n

/-- The probe gets to `b` through buckets that are all busy. -/
def Reached (n start : Nat) (busy : Nat → Prop) (b : Nat) : Prop :=
  ∃ s < n, slot n start s = b ∧ ∀ t < s, busy (slot n start t)

theorem two_mul_tri (s : Nat) : 2 * tri s = s * (s + 1) :=
  Nat.mul_div_cancel' (Nat.even_mul_succ_self s).two_dvd

theorem tri_succ (s : Nat) : tri (s + 1) = tri s + (s + 1) := by
  have h := two_mul_tri s
  have h' := two_mul_tri (s + 1)
  have hexpand : (s + 1) * (s + 1 + 1) = s * (s + 1) + 2 * (s + 1) := by ring
  omega

variable {n start : Nat}

@[simp] theorem slot_zero : slot n start 0 = start % n := rfl

theorem slot_succ (s : Nat) : slot n start (s + 1) = (slot n start s + (s + 1)) % n := by
  rw [slot, slot, tri_succ, Nat.mod_add_mod, Nat.add_assoc]

theorem slot_lt (hpos : 0 < n) (s : Nat) : slot n start s < n := Nat.mod_lt _ hpos

/-- Two steps less than `2 ^ k` apart that are equally far from the start are the same. -/
theorem tri_inj {k s t : Nat} (hst : s ≤ t) (ht : t < 2 ^ k) (h : tri s ≡ tri t [MOD 2 ^ k]) :
    s = t := by
  obtain ⟨d, rfl⟩ := Nat.exists_eq_add_of_le hst
  have hdvd : 2 ^ k ∣ tri (s + d) - tri s := (Nat.modEq_iff_dvd' ?_).mp h
  · have hdouble : 2 * (tri (s + d) - tri s) = d * (2 * s + d + 1) := by
      rw [Nat.mul_sub, two_mul_tri, two_mul_tri]
      have hexpand : (s + d) * (s + d + 1) = s * (s + 1) + d * (2 * s + d + 1) := by ring
      omega
    have hprod : 2 ^ (k + 1) ∣ d * (2 * s + d + 1) := by
      rw [← hdouble, pow_succ, Nat.mul_comm]
      exact Nat.mul_dvd_mul_left 2 hdvd
    -- one of the factors is odd, and the other is too small for the power
    rcases Nat.even_or_odd d with heven | hodd
    · have hcop : Nat.Coprime (2 ^ (k + 1)) (2 * s + d + 1) := by
        apply Nat.Coprime.pow_left
        rw [Nat.coprime_two_left]
        exact (even_two_mul s |>.add heven).add_one
      have hd : 2 ^ (k + 1) ∣ d := hcop.dvd_of_dvd_mul_right hprod
      have hlt : d < 2 ^ (k + 1) := by
        rw [pow_succ]
        omega
      have := Nat.eq_zero_of_dvd_of_lt hd hlt
      omega
    · have hcop : Nat.Coprime (2 ^ (k + 1)) d := by
        apply Nat.Coprime.pow_left
        exact Nat.coprime_two_left.mpr hodd
      have hsum : 2 ^ (k + 1) ∣ 2 * s + d + 1 := hcop.dvd_of_dvd_mul_left hprod
      have hlt : 2 * s + d + 1 < 2 ^ (k + 1) := by
        rw [pow_succ]
        obtain ⟨e, rfl⟩ := hodd
        omega
      have := Nat.eq_zero_of_dvd_of_lt hsum hlt
      omega
  · have hmono := two_mul_tri s
    have hmono' := two_mul_tri (s + d)
    have hle : s * (s + 1) ≤ (s + d) * (s + d + 1) := Nat.mul_le_mul (by omega) (by omega)
    omega

section Table

variable {k : Nat}

theorem slot_inj {s t : Nat} (hs : s < 2 ^ k) (ht : t < 2 ^ k)
    (h : slot (2 ^ k) start s = slot (2 ^ k) start t) : s = t := by
  have hmod : tri s ≡ tri t [MOD 2 ^ k] := Nat.ModEq.add_left_cancel' start h
  rcases Nat.le_total s t with hle | hle
  · exact tri_inj hle ht hmod
  · exact (tri_inj hle hs hmod.symm).symm

/-- Every bucket is visited within the first `2 ^ k` steps. -/
theorem exists_slot (start : Nat) {b : Nat} (hb : b < 2 ^ k) : ∃ s < 2 ^ k, slot (2 ^ k) start s = b := by
  have hpos : 0 < 2 ^ k := Nat.two_pow_pos k
  let visit : Fin (2 ^ k) → Fin (2 ^ k) := fun s => ⟨slot (2 ^ k) start s, slot_lt hpos s⟩
  have hinj : Function.Injective visit := by
    intro s t hst
    apply Fin.ext
    exact slot_inj s.isLt t.isLt (Fin.mk.inj hst)
  obtain ⟨s, hs⟩ := Finite.injective_iff_surjective.mp hinj ⟨b, hb⟩
  exact ⟨s, s.isLt, Fin.mk.inj hs⟩

/-- As long as some bucket is not busy, the probe finds one such, and has not been back
at its start by then. -/
theorem exists_reached (start : Nat) (busy : Nat → Prop) [DecidablePred busy] {b : Nat} (hb : b < 2 ^ k)
    (hfree : ¬ busy b) : ∃ s < 2 ^ k, ¬ busy (slot (2 ^ k) start s) ∧
      ∀ t < s, busy (slot (2 ^ k) start t) := by
  obtain ⟨s, hs, hsb⟩ := exists_slot start hb
  have hex : ∃ s, ¬ busy (slot (2 ^ k) start s) := ⟨s, by rwa [hsb]⟩
  refine ⟨Nat.find hex, ?_, Nat.find_spec hex, ?_⟩
  · exact Nat.lt_of_le_of_lt (Nat.find_min' hex (by rwa [hsb])) hs
  · intro t ht
    exact not_not.mp (Nat.find_min hex ht)

theorem Reached.mono {busy busy' : Nat → Prop} {b : Nat} (h : Reached n start busy b)
    (hmono : ∀ c, busy c → busy' c) : Reached n start busy' b := by
  obtain ⟨s, hs, hb, hbusy⟩ := h
  exact ⟨s, hs, hb, fun t ht => hmono _ (hbusy t ht)⟩

end Table

end Probe
