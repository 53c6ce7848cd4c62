import LiteHttp.Khash
import LiteHttp.Lib.Probe

/-!
# What a table holds

The invariant of a table, and what `kh_get` finds in it: an entry stands at the end of
a probe over buckets that were all used once, so a probe that comes to an empty bucket
has passed the key if the table has it.
-/

namespace LiteHttp

open Probe

set_option autoImplicit false

/-- The equality is one, and the hash agrees with it. -/
structure KeyFns.Lawful {κ : Type} (fns : KeyFns κ) : Prop where
  refl : ∀ a, fns.hashEqual a a = true
  symm : ∀ {a b}, fns.hashEqual a b = true → fns.hashEqual b a = true
  trans : ∀ {a b c}, fns.hashEqual a b = true → fns.hashEqual b c = true → fns.hashEqual a c = true
  hash : ∀ {a b}, fns.hashEqual a b = true → fns.hashFunc a = fns.hashFunc b

namespace Khash

variable {κ ν : Type}

/-- The bucket is in use for this key. -/
def Used (h : Khash κ ν) (i : Nat) (key : κ) : Prop :=
  h.flags[i]? = some ⟨false, false⟩ ∧ h.keys[i]? = some (some key)

/-- The bucket was used since the last rehash. -/
def Busy (flags : List Flag) (i : Nat) : Prop := ∃ flag, flags[i]? = some flag ∧ flag.isEmpty = false

structure Wf (fns : KeyFns κ) (h : Khash κ ν) : Prop where
  pow : h.nBuckets = 0 ∨ ∃ k, 2 ≤ k ∧ k ≤ 31 ∧ h.nBuckets = 2 ^ k
  flags_length : h.flags.length = h.nBuckets
  keys_length : h.nBuckets ≤ h.keys.length
  vals_length : h.vals.length = h.nBuckets
  stored : ∀ i : Nat, h.flags[i]? = some ⟨false, false⟩ →
    ∃ key val, h.keys[i]? = some (some key) ∧ h.vals[i]? = some (some val)
  reached : ∀ i key, h.Used i key → Reached h.nBuckets (fns.hashFunc key) (Busy h.flags) i
  unique : ∀ i j key key', h.Used i key → h.Used j key' → fns.hashEqual key key' = true → i = j
  size_eq : h.size = h.flags.countP (!·.isEither)
  occupied_eq : h.nOccupied = h.flags.countP (!·.isEmpty)
  upper_eq : h.upperBound = hashUpper h.nBuckets
  bounded : h.nOccupied ≤ h.upperBound

/-- The table has this value under a key equal to this one. -/
def Entry (fns : KeyFns κ) (h : Khash κ ν) (key : κ) (val : ν) : Prop :=
  ∃ i k, h.Used i k ∧ fns.hashEqual k key = true ∧ h.vals[i]? = some (some val)

def Absent (fns : KeyFns κ) (h : Khash κ ν) (key : κ) : Prop :=
  ∀ i k, h.Used i k → fns.hashEqual k key = false

theorem wf_init (fns : KeyFns κ) : (init : Khash κ ν).Wf fns where
  pow := Or.inl rfl
  flags_length := rfl
  keys_length := Nat.le_refl 0
  vals_length := rfl
  stored := by simp [init]
  reached := by simp [init, Used]
  unique := by simp [init, Used]
  size_eq := rfl
  occupied_eq := rfl
  upper_eq := show 0 = hashUpper 0 by decide
  bounded := Nat.le_refl 0

theorem hashUpper_lt {n : Nat} (h : 4 ≤ n) : hashUpper n < n := by
  unfold hashUpper
  omega

/-! ## The probe in 32 bits -/

theorem u32_and {k : Nat} (hk : k ≤ 32) (x : Nat) : u32 x &&& (2 ^ k - 1) = x % 2 ^ k := by
  rw [Nat.and_two_pow_sub_one_eq_mod, u32, Nat.mod_mod_of_dvd]
  exact Nat.pow_dvd_pow 2 hk

theorem nextBucket_slot {k : Nat} (hk : k ≤ 31) (start : Nat) {s : Nat} (hs : s < 2 ^ k) :
    nextBucket (2 ^ k - 1) (slot (2 ^ k) start s) s = slot (2 ^ k) start (s + 1) ∧
      u32 (s + 1) = s + 1 := by
  have hle : 2 ^ k ≤ 2 ^ 31 := Nat.pow_le_pow_right (by decide) hk
  have hstep : u32 (s + 1) = s + 1 := Nat.mod_eq_of_lt (by omega)
  refine ⟨?_, hstep⟩
  rw [nextBucket, u32_and (by omega), hstep, slot_succ]

/-- A probe of a bucket it has not finished with does not see its start again. -/
theorem slot_ne_start {k s : Nat} (start : Nat) (hs : s + 1 < 2 ^ k) :
    slot (2 ^ k) start (s + 1) ≠ slot (2 ^ k) start 0 := by
  intro heq
  have := slot_inj hs (Nat.two_pow_pos k) heq
  omega

section Lookup

variable {fns : KeyFns κ} {h : Khash κ ν}

/-- The condition of the loops, as it comes out. -/
def skipped (fns : KeyFns κ) (h : Khash κ ν) (key : κ) (i : Nat) : Bool :=
  match h.flags[i]? with
  | some ⟨true, _⟩ => false
  | some ⟨false, true⟩ => true
  | some ⟨false, false⟩ =>
    match h.keys[i]? with
    | some (some k) => !fns.hashEqual k key
    | _ => false
  | none => false

theorem Wf.exists_flag (hw : h.Wf fns) {i : Nat} (hi : i < h.nBuckets) :
    ∃ flag, h.flags[i]? = some flag :=
  ⟨_, List.getElem?_eq_getElem (hw.flags_length ▸ hi)⟩

theorem Wf.skips_eq (hw : h.Wf fns) (key : κ) {i : Nat} (hi : i < h.nBuckets) :
    h.skips fns key i = .ok (h.skipped fns key i) := by
  obtain ⟨⟨isEmpty, isDel⟩, hflag⟩ := hw.exists_flag hi
  cases isEmpty with
  | true => simp [skips, skipped, flagAt, hflag, bind, Except.bind, pure, Except.pure]
  | false =>
    cases isDel with
    | true => simp [skips, skipped, flagAt, hflag, bind, Except.bind, pure, Except.pure]
    | false =>
      obtain ⟨k, v, hk, -⟩ := hw.stored i hflag
      simp [skips, skipped, flagAt, peek, hflag, hk, bind, Except.bind, pure, Except.pure]

/-- Past a bucket that is skipped there was a key. -/
theorem busy_of_skipped {key : κ} {i : Nat} (hs : h.skipped fns key i = true) : Busy h.flags i := by
  unfold skipped at hs
  split at hs
  · simp at hs
  · exact ⟨_, ‹_›, rfl⟩
  · exact ⟨_, ‹_›, rfl⟩
  · simp at hs

theorem not_skipped_of_used {key k : κ} {i : Nat} (hu : h.Used i k)
    (heq : fns.hashEqual k key = true) : h.skipped fns key i = false := by
  simp [skipped, hu.1, hu.2, heq]

/-- A bucket that ends a probe is empty, or has the key. -/
theorem Wf.stop_cases (hw : h.Wf fns) {key : κ} {i : Nat} (hi : i < h.nBuckets)
    (hs : h.skipped fns key i = false) :
    (∃ isDel, h.flags[i]? = some ⟨true, isDel⟩) ∨
      ∃ k, h.Used i k ∧ fns.hashEqual k key = true := by
  obtain ⟨⟨isEmpty, isDel⟩, hflag⟩ := hw.exists_flag hi
  cases isEmpty with
  | true => exact Or.inl ⟨isDel, hflag⟩
  | false =>
    cases isDel with
    | true => simp [skipped, hflag] at hs
    | false =>
      obtain ⟨k, v, hk, -⟩ := hw.stored i hflag
      refine Or.inr ⟨k, ⟨hflag, hk⟩, ?_⟩
      simpa [skipped, hflag, hk] using hs

theorem exists_free (flags : List Flag) (hlt : flags.countP (!·.isEmpty) < flags.length) :
    ∃ i < flags.length, ¬ Busy flags i := by
  by_contra hall
  push Not at hall
  apply Nat.ne_of_lt hlt
  rw [List.countP_eq_length]
  intro flag hmem
  obtain ⟨i, hi, hget⟩ := List.mem_iff_getElem.mp hmem
  obtain ⟨flag', hflag, hempty⟩ := hall i hi
  rw [List.getElem?_eq_getElem hi, Option.some.injEq, hget] at hflag
  simp [hflag, hempty]

/-- The step a probe for a key stops at. -/
structure Stops (fns : KeyFns κ) (h : Khash κ ν) (key : κ) (s : Nat) : Prop where
  lt : s < h.nBuckets
  here : h.skipped fns key (slot h.nBuckets (fns.hashFunc key) s) = false
  before : ∀ t < s, h.skipped fns key (slot h.nBuckets (fns.hashFunc key) t) = true

theorem Wf.exists_stops (hw : h.Wf fns) (key : κ) (hroom : h.nOccupied < h.nBuckets) :
    ∃ s, h.Stops fns key s := by
  obtain ⟨b, hb, hfree⟩ := exists_free h.flags (by
    rw [← hw.occupied_eq, hw.flags_length]
    exact hroom)
  rw [hw.flags_length] at hb
  obtain hzero | ⟨k, -, -, hn⟩ := hw.pow
  · omega
  · have hnot : ¬ h.skipped fns key b = true := fun hs => hfree (busy_of_skipped hs)
    obtain ⟨s, hs, hstop, hbefore⟩ := exists_reached (fns.hashFunc key)
      (fun i => h.skipped fns key i = true) (hn ▸ hb) hnot
    rw [← hn] at hs hstop hbefore
    exact ⟨s, hs, by simpa using hstop, hbefore⟩

/-- Where a probe for a key stops at an empty bucket the table does not have the key. -/
theorem Stops.absent (hl : fns.Lawful) (hw : h.Wf fns) {key : κ} {s : Nat} (hs : h.Stops fns key s)
    (hfree : ¬ Busy h.flags (slot h.nBuckets (fns.hashFunc key) s)) : h.Absent fns key := by
  intro i k hu
  by_contra heq
  rw [Bool.not_eq_false] at heq
  obtain ⟨s', -, hslot, hbusy⟩ := hw.reached i k hu
  rw [hl.hash heq] at hslot hbusy
  rcases Nat.lt_trichotomy s' s with hlt | rfl | hgt
  · have hskip := hs.before s' hlt
    rw [hslot, not_skipped_of_used hu heq] at hskip
    simp at hskip
  · apply hfree
    rw [hslot]
    exact ⟨_, hu.1, rfl⟩
  · exact hfree (hbusy s hgt)

theorem getLoop_ok (hw : h.Wf fns) {key : κ} {s : Nat} (hs : h.Stops fns key s) {k : Nat}
    (hk : k ≤ 31) (hn : h.nBuckets = 2 ^ k) {d t fuel : Nat} (ht : t + d = s) (hfuel : d < fuel) :
    getLoop fns h key (slot h.nBuckets (fns.hashFunc key) 0) fuel
      (slot h.nBuckets (fns.hashFunc key) t) t =
    (flagAt h.flags (slot h.nBuckets (fns.hashFunc key) s)).map fun flag =>
      if flag.isEither then h.nBuckets else slot h.nBuckets (fns.hashFunc key) s := by
  have hpos : 0 < h.nBuckets := by
    have := hs.lt
    omega
  induction d generalizing t fuel with
  | zero =>
    obtain ⟨fuel, rfl⟩ := Nat.exists_eq_add_one.mpr hfuel
    obtain rfl : t = s := ht
    rw [getLoop, hw.skips_eq key (slot_lt hpos t), hs.here]
    cases flagAt h.flags (slot h.nBuckets (fns.hashFunc key) t) with
    | error e => rfl
    | ok flag => rfl
  | succ d ih =>
    obtain ⟨fuel, rfl⟩ := Nat.exists_eq_add_one.mpr (Nat.lt_of_le_of_lt (Nat.zero_le _) hfuel)
    have hlt : t < s := by omega
    have hlast := hs.lt
    obtain ⟨hnext, hstep⟩ := nextBucket_slot hk (fns.hashFunc key) (s := t) (by omega)
    have hne := slot_ne_start (k := k) (s := t) (fns.hashFunc key) (by omega)
    rw [← hn] at hnext hne
    rw [getLoop, hw.skips_eq key (slot_lt hpos t), hs.before t hlt]
    simp only [bind, Except.bind, if_true, hnext, hstep, hne, if_false]
    exact ih (by omega) (by omega)

/-- `kh_get` gives the bucket of the key, or the end of the table if it does not have it. -/
theorem Wf.get_cases (hl : fns.Lawful) (hw : h.Wf fns) (key : κ) :
    (∃ x k, h.get fns key = .ok x ∧ x < h.nBuckets ∧ h.Used x k ∧ fns.hashEqual k key = true) ∨
      (h.get fns key = .ok h.nBuckets ∧ h.Absent fns key) := by
  obtain hzero | ⟨k, hk, hk', hn⟩ := hw.pow
  · refine Or.inr ⟨by simp [get, hzero], ?_⟩
    intro i k hu
    have hlen := hw.flags_length
    have := (List.getElem?_eq_some_iff.mp hu.1).1
    omega
  · have hle : 2 ^ 2 ≤ 2 ^ k := Nat.pow_le_pow_right (by decide) hk
    have hroom : h.nOccupied < h.nBuckets := by
      have hb := hw.bounded
      have := hashUpper_lt (n := h.nBuckets) (by omega)
      rw [hw.upper_eq] at hb
      omega
    obtain ⟨s, hs⟩ := hw.exists_stops key hroom
    have hpos : 0 < h.nBuckets := by omega
    have hlt := hs.lt
    have hget : h.get fns key =
        (flagAt h.flags (slot h.nBuckets (fns.hashFunc key) s)).map fun flag =>
          if flag.isEither then h.nBuckets else slot h.nBuckets (fns.hashFunc key) s := by
      have hstart : u32 (fns.hashFunc key) &&& (h.nBuckets - 1) =
          slot h.nBuckets (fns.hashFunc key) 0 := by
        rw [hn, u32_and (by omega), slot_zero]
      rw [get, if_pos (by omega)]
      simp only [hstart]
      exact getLoop_ok hw hs hk' hn (t := 0) (d := s) (by omega) (by omega)
    rcases hw.stop_cases (slot_lt hpos s) hs.here with ⟨isDel, hflag⟩ | ⟨k', hu, heq⟩
    · refine Or.inr ⟨?_, hs.absent hl hw ?_⟩
      · rw [hget]
        simp [flagAt, hflag, Flag.isEither, Except.map]
      · intro hbusy
        obtain ⟨flag, hflag', hempty⟩ := hbusy
        rw [hflag, Option.some.injEq] at hflag'
        simp [← hflag'] at hempty
    · refine Or.inl ⟨_, k', ?_, slot_lt hpos s, hu, heq⟩
      rw [hget]
      simp [flagAt, hu.1, Flag.isEither, Except.map]

end Lookup

end Khash

end LiteHttp
