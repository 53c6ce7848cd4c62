import LiteHttp.Khash
import LiteHttp.Lib.Simulate
import Mathlib.Data.BitVec

/-!
# The flag words of khash.h

The two bits of a bucket lie in a word with those of fifteen others. The macros that
read and set them are bit operations on the word, the masks of which are wider than
it; on an array of words they do what reading and setting one flag of a list does.
-/

namespace LiteHttp

open Simulate

set_option autoImplicit false

/-- `__ac_fsize`. -/
def acFsize (m : Nat) : Nat := if m < 16 then 1 else m >>> 4

/-- Where the two bits of bucket `i` begin in its word. -/
def acShift (i : Nat) : Nat := (i &&& 0xf) <<< 1

/-- `flag[i>>4]`. -/
def acWord (flag : List (BitVec 32)) (i : Nat) : Except Fault (BitVec 32) :=
  match flag[i >>> 4]? with
  | some w => .ok w
  | none => .error .undefined

/-- `(flag[i>>4]>>((i&0xfU)<<1))&mask`, as a condition. -/
def acTest (mask : BitVec 32) (flag : List (BitVec 32)) (i : Nat) : Except Fault Bool := do
  let w ← acWord flag i
  return (w >>> acShift i) &&& mask ≠ 0#32

def acIsempty : List (BitVec 32) → Nat → Except Fault Bool := acTest 2#32

def acIsdel : List (BitVec 32) → Nat → Except Fault Bool := acTest 1#32

def acIseither : List (BitVec 32) → Nat → Except Fault Bool := acTest 3#32

/-- `flag[i>>4]&=~(mask<<((i&0xfU)<<1))`, over `unsigned long`. -/
def acClear (mask : BitVec 64) (flag : List (BitVec 32)) (i : Nat) :
    Except Fault (List (BitVec 32)) := do
  let w ← acWord flag i
  return flag.set (i >>> 4) ((w.setWidth 64 &&& ~~~(mask <<< acShift i)).setWidth 32)

def acSetIsemptyFalse : List (BitVec 32) → Nat → Except Fault (List (BitVec 32)) := acClear 2#64

def acSetIsbothFalse : List (BitVec 32) → Nat → Except Fault (List (BitVec 32)) := acClear 3#64

/-- `flag[i>>4]|=1ul<<((i&0xfU)<<1)`. -/
def acSetIsdelTrue (flag : List (BitVec 32)) (i : Nat) : Except Fault (List (BitVec 32)) := do
  let w ← acWord flag i
  return flag.set (i >>> 4) ((w.setWidth 64 ||| 1#64 <<< acShift i).setWidth 32)

/-- `kmalloc` of the flags for `n` buckets, and `memset` to 0xaa. -/
def acFlags (n : Nat) : List (BitVec 32) := List.replicate (acFsize n) 0xaaaaaaaa#32

/-- The flag whose two bits begin at `s` in the word. -/
def flagIn (w : BitVec 32) (s : Nat) : Flag := ⟨w.getLsbD (s + 1), w.getLsbD s⟩

/-- The words have the flags of the list, each in its place. -/
def Packs (words : List (BitVec 32)) (flags : List Flag) : Prop :=
  ∀ i flag, flags[i]? = some flag → ∃ w, words[i >>> 4]? = some w ∧ flagIn w (acShift i) = flag

section Bits

theorem acShift_eq (i : Nat) : acShift i = 2 * (i % 16) := by
  have hand : i &&& 0xf = i % 16 := Nat.and_two_pow_sub_one_eq_mod i 4
  rw [acShift, hand, Nat.shiftLeft_eq]
  omega

theorem shiftRight_four (i : Nat) : i >>> 4 = i / 16 := Nat.shiftRight_eq_div_pow i 4

/-- A masked word is not zero where it has a bit of the mask. -/
theorem and_ne_zero_iff {w m : BitVec 32} :
    w &&& m ≠ 0#32 ↔ ∃ k, w.getLsbD k = true ∧ m.getLsbD k = true := by
  constructor
  · intro hne
    by_contra hnone
    push Not at hnone
    apply hne
    apply BitVec.eq_of_getLsbD_eq
    intro k hk
    rw [BitVec.getLsbD_and, BitVec.getLsbD_zero, Bool.and_eq_false_iff, ← Bool.not_eq_true,
      ← Bool.not_eq_true]
    by_cases hw : w.getLsbD k = true
    · exact .inr (hnone k hw)
    · exact .inl hw
  · rintro ⟨k, hw, hm⟩ hzero
    have hbit : (w &&& m).getLsbD k = true := by rw [BitVec.getLsbD_and, hw, hm]; rfl
    rw [hzero] at hbit
    simp at hbit

/-- The bits of a mask below 4. -/
theorem mask_bit_iff {mask : Nat} (hmask : mask < 4) {v : Nat} (hv : 2 ≤ v) (k : Nat) :
    (BitVec.ofNat v mask).getLsbD k = true ↔
      (k = 0 ∧ mask.testBit 0 = true) ∨ (k = 1 ∧ mask.testBit 1 = true) := by
  rw [BitVec.getLsbD_ofNat, Bool.and_eq_true, decide_eq_true_eq]
  match k with
  | 0 => simpa using fun _ => show 0 < v by omega
  | 1 => simpa using fun _ => show 1 < v by omega
  | k + 2 =>
    have hlt : mask < 2 ^ (k + 2) := by
      have hpos : 0 < 2 ^ k := Nat.pow_pos (by decide)
      rw [Nat.pow_add]
      omega
    simp [Nat.testBit_lt_two_pow hlt]

/-- What a macro that tests finds in a word. -/
theorem shifted_mask_iff (w : BitVec 32) (s : Nat) {mask : Nat} (hmask : mask < 4) :
    (w >>> s) &&& BitVec.ofNat 32 mask ≠ 0#32 ↔
      ((flagIn w s).isDel = true ∧ mask.testBit 0 = true) ∨
        ((flagIn w s).isEmpty = true ∧ mask.testBit 1 = true) := by
  rw [and_ne_zero_iff]
  simp only [BitVec.getLsbD_ushiftRight, mask_bit_iff hmask (show 2 ≤ 32 by decide)]
  constructor
  · rintro ⟨k, hw, ⟨rfl, hm⟩ | ⟨rfl, hm⟩⟩
    · exact .inl ⟨hw, hm⟩
    · exact .inr ⟨hw, hm⟩
  · rintro (⟨hw, hm⟩ | ⟨hw, hm⟩)
    · exact ⟨0, hw, .inl ⟨rfl, hm⟩⟩
    · exact ⟨1, hw, .inr ⟨rfl, hm⟩⟩

/-- A shifted mask has its bits where the shift puts them. -/
theorem shifted_bit_iff {mask : Nat} (hmask : mask < 4) {s k : Nat} (hk : k < 32) :
    (BitVec.ofNat 64 mask <<< s).getLsbD k = true ↔
      (k = s ∧ mask.testBit 0 = true) ∨ (k = s + 1 ∧ mask.testBit 1 = true) := by
  rw [BitVec.getLsbD_shiftLeft]
  simp only [Bool.and_eq_true, decide_eq_true_eq, Bool.not_eq_true', decide_eq_false_iff_not,
    mask_bit_iff hmask (show 2 ≤ 64 by decide)]
  constructor
  · rintro ⟨⟨-, hle⟩, ⟨heq, hm⟩ | ⟨heq, hm⟩⟩
    · exact .inl ⟨by omega, hm⟩
    · exact .inr ⟨by omega, hm⟩
  · rintro (⟨rfl, hm⟩ | ⟨rfl, hm⟩)
    · exact ⟨⟨by omega, by omega⟩, .inl ⟨by omega, hm⟩⟩
    · exact ⟨⟨by omega, by omega⟩, .inr ⟨by omega, hm⟩⟩

theorem cleared_bit (w : BitVec 32) (m : BitVec 64) {k : Nat} (hk : k < 32) :
    ((w.setWidth 64 &&& ~~~m).setWidth 32).getLsbD k = (w.getLsbD k && !m.getLsbD k) := by
  simp only [BitVec.getLsbD_setWidth, BitVec.getLsbD_and, BitVec.getLsbD_not]
  have hk' : k < 64 := by omega
  simp [hk, hk']

theorem set_bit (w : BitVec 32) (m : BitVec 64) {k : Nat} (hk : k < 32) :
    ((w.setWidth 64 ||| m).setWidth 32).getLsbD k = (w.getLsbD k || m.getLsbD k) := by
  simp only [BitVec.getLsbD_setWidth, BitVec.getLsbD_or]
  have hk' : k < 64 := by omega
  simp [hk, hk']

end Bits

namespace Packs

variable {words : List (BitVec 32)} {flags : List Flag} {i : Nat} {flag : Flag}

theorem word (hp : Packs words flags) (hi : flags[i]? = some flag) :
    ∃ w, acWord words i = .ok w ∧ words[i >>> 4]? = some w ∧ flagIn w (acShift i) = flag := by
  obtain ⟨w, hw, hflag⟩ := hp i flag hi
  exact ⟨w, by simp [acWord, hw], hw, hflag⟩

/-- The macros that test read the flag of the bucket. -/
theorem test {mask : Nat} (hp : Packs words flags) (hi : flags[i]? = some flag) (hmask : mask < 4) :
    acTest (BitVec.ofNat 32 mask) words i =
      .ok ((flag.isDel && mask.testBit 0) || (flag.isEmpty && mask.testBit 1)) := by
  obtain ⟨w, hw, -, rfl⟩ := hp.word hi
  simp only [acTest, hw, bind, Except.bind, pure, Except.pure, Except.ok.injEq]
  rw [Bool.eq_iff_iff, decide_eq_true_eq, shifted_mask_iff w _ hmask]
  simp only [Bool.or_eq_true, Bool.and_eq_true]

theorem isempty (hp : Packs words flags) (hi : flags[i]? = some flag) :
    acIsempty words i = .ok flag.isEmpty := by
  rw [acIsempty]
  have htest := hp.test hi (show 2 < 4 by decide)
  simpa [Nat.testBit] using htest

theorem isdel (hp : Packs words flags) (hi : flags[i]? = some flag) :
    acIsdel words i = .ok flag.isDel := by
  rw [acIsdel]
  have htest := hp.test hi (show 1 < 4 by decide)
  simpa [Nat.testBit] using htest

theorem iseither (hp : Packs words flags) (hi : flags[i]? = some flag) :
    acIseither words i = .ok flag.isEither := by
  have htest := hp.test hi (show 3 < 4 by decide)
  rw [acIseither, Flag.isEither, Bool.or_comm]
  simpa [Nat.testBit] using htest

/-- A word that is changed in the bits of one bucket keeps the flags of the others. -/
theorem store (hp : Packs words flags) {w w' : BitVec 32} (hw : words[i >>> 4]? = some w)
    {new : Flag} (hnew : flagIn w' (acShift i) = new)
    (hkept : ∀ k < 32, k ≠ acShift i → k ≠ acShift i + 1 → w'.getLsbD k = w.getLsbD k) :
    Packs (words.set (i >>> 4) w') (flags.set i new) := by
  intro j flag' hj
  rw [List.getElem?_set] at hj
  by_cases hij : i = j
  · subst hij
    rw [if_pos rfl] at hj
    obtain ⟨hlen, hflag⟩ : i < flags.length ∧ new = flag' := by
      split at hj
      · exact ⟨by assumption, Option.some.inj hj⟩
      · simp at hj
    obtain ⟨hlt, -⟩ := List.getElem?_eq_some_iff.mp hw
    exact ⟨w', List.getElem?_set_self hlt, hnew.trans hflag⟩
  · rw [if_neg hij] at hj
    obtain ⟨v, hv, hflag⟩ := hp j flag' hj
    by_cases hword : i >>> 4 = j >>> 4
    · rw [← hword, hw, Option.some.injEq] at hv
      subst hv
      obtain ⟨hlt, -⟩ := List.getElem?_eq_some_iff.mp hw
      refine ⟨w', by rw [← hword, List.getElem?_set_self hlt], ?_⟩
      rw [shiftRight_four, shiftRight_four] at hword
      -- two buckets of one word have their bits in different places of it
      have happart : acShift j ≠ acShift i ∧ acShift j ≠ acShift i + 1 ∧
          acShift j + 1 ≠ acShift i ∧ acShift j + 1 ≠ acShift i + 1 ∧ acShift j + 1 < 32 := by
        rw [acShift_eq, acShift_eq]
        omega
      obtain ⟨h₁, h₂, h₃, h₄, hlt'⟩ := happart
      rw [← hflag, flagIn, flagIn, hkept _ (by omega) h₁ h₂, hkept _ hlt' h₃ h₄]
    · exact ⟨v, by rw [List.getElem?_set_ne hword, hv], hflag⟩

/-- Clearing the bits of a mask clears those flags of the bucket. -/
theorem clear {mask : Nat} (hp : Packs words flags) (hi : flags[i]? = some flag)
    (hmask : mask < 4) : ∃ words', acClear (BitVec.ofNat 64 mask) words i = .ok words' ∧
      Packs words' (flags.set i
        ⟨flag.isEmpty && !mask.testBit 1, flag.isDel && !mask.testBit 0⟩) := by
  obtain ⟨w, hread, hw, rfl⟩ := hp.word hi
  have hs : acShift i + 1 < 32 := by
    rw [acShift_eq]
    omega
  have hbit : ∀ k < 32, (BitVec.ofNat 64 mask <<< acShift i).getLsbD k =
      decide ((k = acShift i ∧ mask.testBit 0 = true) ∨
        (k = acShift i + 1 ∧ mask.testBit 1 = true)) := by
    intro k hk
    rw [Bool.eq_iff_iff, decide_eq_true_eq]
    exact shifted_bit_iff hmask hk
  refine ⟨_, by simp only [acClear, hread, bind, Except.bind]; rfl, ?_⟩
  refine hp.store hw ?_ ?_
  · simp only [flagIn, cleared_bit w _ hs, cleared_bit w _ (Nat.lt_of_succ_lt hs), hbit _ hs,
      hbit _ (Nat.lt_of_succ_lt hs)]
    simp
  · intro k hk hne hne'
    rw [cleared_bit w _ hk, hbit k hk]
    simp [hne, hne']

theorem setIsemptyFalse (hp : Packs words flags) (hi : flags[i]? = some flag) :
    ∃ words', acSetIsemptyFalse words i = .ok words' ∧
      Packs words' (flags.set i { flag with isEmpty := false }) := by
  rw [acSetIsemptyFalse]
  simpa [Nat.testBit] using hp.clear hi (show 2 < 4 by decide)

theorem setIsbothFalse (hp : Packs words flags) (hi : flags[i]? = some flag) :
    ∃ words', acSetIsbothFalse words i = .ok words' ∧
      Packs words' (flags.set i ⟨false, false⟩) := by
  rw [acSetIsbothFalse]
  simpa [Nat.testBit] using hp.clear hi (show 3 < 4 by decide)

theorem setIsdelTrue (hp : Packs words flags) (hi : flags[i]? = some flag) :
    ∃ words', acSetIsdelTrue words i = .ok words' ∧
      Packs words' (flags.set i { flag with isDel := true }) := by
  obtain ⟨w, hread, hw, rfl⟩ := hp.word hi
  have hs : acShift i + 1 < 32 := by
    rw [acShift_eq]
    omega
  have hbit : ∀ k < 32, (1#64 <<< acShift i).getLsbD k = decide (k = acShift i) := by
    intro k hk
    rw [Bool.eq_iff_iff, decide_eq_true_eq]
    simpa [Nat.testBit] using shifted_bit_iff (s := acShift i) (show 1 < 4 by decide) hk
  refine ⟨_, by simp only [acSetIsdelTrue, hread, bind, Except.bind]; rfl, ?_⟩
  refine hp.store hw ?_ ?_
  · simp only [flagIn, set_bit w _ hs, set_bit w _ (Nat.lt_of_succ_lt hs), hbit _ hs,
      hbit _ (Nat.lt_of_succ_lt hs)]
    simp
  · intro k hk hne hne'
    rw [set_bit w _ hk, hbit k hk]
    simp [hne]

end Packs

/-- The words that a resize allocates are enough for a power of two of buckets, and 0xaa says of
each that it is empty. -/
theorem packs_acFlags (k : Nat) : Packs (acFlags (2 ^ k)) (List.replicate (2 ^ k) .initial) := by
  intro i flag hi
  rw [List.getElem?_replicate] at hi
  split at hi
  · rename_i hlt
    obtain rfl := Option.some.inj hi
    have hword : i >>> 4 < acFsize (2 ^ k) := by
      rw [shiftRight_four, acFsize, shiftRight_four]
      split
      · omega
      · rename_i hge
        have h4 : 4 ≤ k := by
          by_contra hk
          have hpow : 2 ^ k ≤ 2 ^ 3 := Nat.pow_le_pow_right (by decide) (by omega)
          omega
        obtain ⟨j, rfl⟩ := Nat.exists_eq_add_of_le h4
        rw [Nat.pow_add] at hlt ⊢
        omega
    refine ⟨0xaaaaaaaa#32, by rw [acFlags, List.getElem?_replicate, if_pos hword], ?_⟩
    have hall : ∀ r < 16, flagIn 0xaaaaaaaa#32 (2 * r) = .initial := by decide
    rw [acShift_eq]
    exact hall _ (Nat.mod_lt i (by decide))
  · simp at hi

end LiteHttp
