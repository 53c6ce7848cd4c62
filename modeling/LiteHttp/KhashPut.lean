import LiteHttp.KhashRehash

/-!
# Putting and deleting

Every operation keeps the invariant, whatever the allocator answers, and does to the
entries what it does to a map. A table of fewer than 2^30 keys always has room after
`kh_resize`: its new size does not wrap.
-/

namespace LiteHttp

open Probe

set_option autoImplicit false

section Cells

variable {α : Type} {cells : List (Option α)} {n i : Nat}

@[simp] theorem length_krealloc : (krealloc cells n).length = n := by
  simp only [krealloc, List.length_append, List.length_take, List.length_replicate]
  omega

theorem getElem?_krealloc (hi : i < cells.length) (hn : i < n) :
    (krealloc cells n)[i]? = cells[i]? := by
  rw [krealloc, List.getElem?_append_left (by rw [List.length_take]; omega),
    List.getElem?_take_of_lt hn]

end Cells

namespace Khash

variable {κ ν : Type} {fns : KeyFns κ} {h : Khash κ ν}

/-- Keys that nobody reads may change. -/
theorem Wf.with_keys (hw : h.Wf fns) {keys : List (Option κ)} (hlen : h.nBuckets ≤ keys.length)
    (hkeys : ∀ i < h.nBuckets, keys[i]? = h.keys[i]?) :
    ({ h with keys := keys } : Khash κ ν).Wf fns ∧
      ∀ key val, ({ h with keys := keys } : Khash κ ν).Has key val ↔ h.Has key val := by
  have hused (i : Nat) (key : κ) : ({ h with keys := keys } : Khash κ ν).Used i key ↔ h.Used i key := by
    unfold Used
    apply and_congr_right
    intro hflag
    rw [hkeys i (hw.flags_length ▸ (List.getElem?_eq_some_iff.mp hflag).1)]
  refine ⟨?_, fun key val => exists_congr fun i => and_congr_left' (hused i key)⟩
  constructor
  · exact hw.pow
  · exact hw.flags_length
  · exact hlen
  · exact hw.vals_length
  · intro i hflag
    obtain ⟨key, val, hkey, hval⟩ := hw.stored i hflag
    have hi : i < h.nBuckets := hw.flags_length ▸ (List.getElem?_eq_some_iff.mp hflag).1
    exact ⟨key, val, (hkeys i hi).trans hkey, hval⟩
  · exact fun i key hu => hw.reached i key ((hused i key).mp hu)
  · exact fun i j key key' hi hj => hw.unique i j key key' ((hused i key).mp hi) ((hused j key').mp hj)
  · exact hw.size_eq
  · exact hw.occupied_eq
  · exact hw.upper_eq
  · exact hw.bounded

/-- What a rehash gives. -/
structure Rehashed (fns : KeyFns κ) (h : Khash κ ν) (m : Nat) (h' : Khash κ ν) : Prop where
  wf : h'.Wf fns
  has : ∀ key val, h'.Has key val ↔ h.Has key val
  size : h'.size = h.size
  nBuckets : h'.nBuckets = m
  occupied : h'.nOccupied = h.size

theorem Wf.rehash_ok (hl : fns.Lawful) (hw : h.Wf fns) (alloc : ResizeAlloc) {m k : Nat} (hk : 2 ≤ k)
    (hk' : k ≤ 31) (hm : m = 2 ^ k) (hbound : h.size < hashUpper m)
    (hshrink : m < h.nBuckets → alloc.keysOk = true ∧ alloc.valsOk = true)
    {keys : List (Option κ)} {vals : List (Option ν)}
    (hkeys : h.nBuckets ≤ keys.length ∧ m ≤ keys.length)
    (hvals : vals.length = max h.nBuckets m)
    (hkeysEq : ∀ i < h.nBuckets, keys[i]? = h.keys[i]?)
    (hvalsEq : ∀ i < h.nBuckets, vals[i]? = h.vals[i]?) :
    ∃ h', rehash fns alloc h m keys vals = .ok h' ∧ Rehashed fns h m h' := by
  have hle : 2 ^ 2 ≤ 2 ^ k := Nat.pow_le_pow_right (by decide) hk
  have htotal : h.size ≤ m := by
    have := hashUpper_lt (n := m) (by omega)
    omega
  have hstart := hw.start (m := m) hkeys hvals hkeysEq hvalsEq
  obtain ⟨st, hrun, hinv, hsub⟩ := Rehash.rehashBuckets_ok hl hk' hm htotal hstart
    (List.range h.nBuckets) (fun j hj => List.mem_range.mp hj)
  have hdone (i : Nat) : ¬ st.Old i := by
    intro hi
    obtain ⟨⟨flag, hflag, -⟩, hnot⟩ := hsub i hi
    exact hnot (List.mem_range.mpr (hw.flags_length ▸ (List.getElem?_eq_some_iff.mp hflag).1))
  by_cases hlt : m < h.nBuckets
  · obtain ⟨hkeysOk, hvalsOk⟩ := hshrink hlt
    obtain ⟨hwf, hhas⟩ := hinv.wf hdone hk hk' hm (Nat.le_of_lt hbound)
      (krealloc st.keys m) (krealloc st.vals m) (by simp) (by simp)
      (fun i hi => getElem?_krealloc (Nat.lt_of_lt_of_le hi hinv.keys_length.2) hi)
      (fun i hi => getElem?_krealloc
        (hinv.vals_length ▸ Nat.lt_of_lt_of_le hi (Nat.le_max_right h.nBuckets m)) hi)
    refine ⟨_, ?_, hwf, hhas, rfl, rfl, rfl⟩
    simp [rehash, hrun, hlt, hkeysOk, hvalsOk, bind, Except.bind, pure, Except.pure]
  · obtain ⟨hwf, hhas⟩ := hinv.wf hdone hk hk' hm (Nat.le_of_lt hbound) st.keys st.vals hinv.keys_length.2
      (by rw [hinv.vals_length, Nat.max_eq_right (Nat.le_of_not_lt hlt)]) (fun _ _ => rfl)
      (fun _ _ => rfl)
    refine ⟨_, ?_, hwf, hhas, rfl, rfl, rfl⟩
    simp [rehash, hrun, hlt, bind, Except.bind, pure, Except.pure]

/-- The ways a resize ends, when the arrays it gives back can be shortened. -/
inductive Resized (fns : KeyFns κ) (alloc : ResizeAlloc) (h : Khash κ ν) (m : Nat) :
    Int → Khash κ ν → Prop where
  | small (hsize : hashUpper m ≤ h.size) : Resized fns alloc h m 0 h
  | failed {h' : Khash κ ν} (hno : alloc ≠ ⟨true, true, true⟩) (hwf : h'.Wf fns)
      (hhas : ∀ key val, h'.Has key val ↔ h.Has key val) (hsize : h'.size = h.size) :
      Resized fns alloc h m (-1) h'
  | done {h' : Khash κ ν} (hbound : h.size < hashUpper m) (hdone : Rehashed fns h m h') :
      Resized fns alloc h m 0 h'

/-- A resize to any size keeps the invariant and the entries, whatever the allocator answers. -/
theorem Wf.resize_ok (hl : fns.Lawful) (hw : h.Wf fns) (alloc : ResizeAlloc) (newBuckets : Nat)
    {k : Nat} (hk : 2 ≤ k) (hk' : k ≤ 31) (hto : resizeTo newBuckets = 2 ^ k)
    (hshrink : 2 ^ k < h.nBuckets → alloc.keysOk = true ∧ alloc.valsOk = true) :
    ∃ ret h', h.resize fns alloc newBuckets = .ok (ret, h') ∧ Resized fns alloc h (2 ^ k) ret h' := by
  unfold resize
  simp only [hto]
  by_cases hsize : hashUpper (2 ^ k) ≤ h.size
  · exact ⟨0, h, by rw [if_pos hsize], .small hsize⟩
  rw [if_neg hsize]
  have hbound : h.size < hashUpper (2 ^ k) := Nat.lt_of_not_le hsize
  obtain ⟨flagsOk, keysOk, valsOk⟩ := alloc
  cases flagsOk with
  | false => exact ⟨-1, h, rfl, .failed (by simp) hw (fun _ _ => Iff.rfl) rfl⟩
  | true =>
    by_cases hgrow : h.nBuckets < 2 ^ k
    · have hkeysEq (i : Nat) (hi : i < h.nBuckets) : (krealloc h.keys (2 ^ k))[i]? = h.keys[i]? :=
        getElem?_krealloc (Nat.lt_of_lt_of_le hi hw.keys_length) (by omega)
      have hvalsEq (i : Nat) (hi : i < h.nBuckets) : (krealloc h.vals (2 ^ k))[i]? = h.vals[i]? :=
        getElem?_krealloc (hw.vals_length ▸ hi) (by omega)
      rw [if_pos hgrow]
      cases keysOk with
      | false => exact ⟨-1, h, rfl, .failed (by simp) hw (fun _ _ => Iff.rfl) rfl⟩
      | true =>
        cases valsOk with
        | false =>
          obtain ⟨hwf, hhas⟩ := hw.with_keys (by simpa using Nat.le_of_lt hgrow) hkeysEq
          exact ⟨-1, _, rfl, .failed (by simp) hwf hhas rfl⟩
        | true =>
          obtain ⟨h', hrun, hdone⟩ := hw.rehash_ok hl ⟨true, true, true⟩ hk hk' rfl hbound
            (fun _ => ⟨rfl, rfl⟩) (by simpa using Nat.le_of_lt hgrow)
            (by rw [length_krealloc, Nat.max_eq_right (Nat.le_of_lt hgrow)]) hkeysEq hvalsEq
          refine ⟨0, h', ?_, .done hbound hdone⟩
          simp [hrun, bind, Except.bind, pure, Except.pure]
    · have hle : 2 ^ k ≤ h.nBuckets := Nat.le_of_not_lt hgrow
      obtain ⟨h', hrun, hdone⟩ := hw.rehash_ok hl ⟨true, keysOk, valsOk⟩ hk hk' rfl hbound
        hshrink ⟨hw.keys_length, Nat.le_trans hle hw.keys_length⟩
        (by rw [hw.vals_length, Nat.max_eq_left hle]) (fun _ _ => rfl) (fun _ _ => rfl)
      refine ⟨0, h', ?_, .done hbound hdone⟩
      simp [hgrow, hrun, bind, Except.bind, pure, Except.pure]

theorem Wf.size_le_occupied (hw : h.Wf fns) : h.size ≤ h.nOccupied := by
  rw [hw.size_eq, hw.occupied_eq]
  apply List.countP_mono_left
  intro flag _ hlive
  simp only [Flag.isEither, Bool.not_or, Bool.and_eq_true] at hlive
  exact hlive.1

/-- What `kh_put` has of its table once it has made room: a table with the same entries, and
room in it unless the allocator refused. -/
structure Roomy (fns : KeyFns κ) (alloc : ResizeAlloc) (h : Khash κ ν) (ret : Int) (h' : Khash κ ν) :
    Prop where
  wf : h'.Wf fns
  has : ∀ key val, h'.Has key val ↔ h.Has key val
  size : h'.size = h.size
  room : (ret = -1 ∧ alloc ≠ ⟨true, true, true⟩) ∨ (ret = 0 ∧ h'.nOccupied < h'.upperBound)

theorem roomy_of_resized {alloc : ResizeAlloc} {m : Nat} {ret : Int} {h' : Khash κ ν}
    (hbound : h.size < hashUpper m) (hr : Resized fns alloc h m ret h') : Roomy fns alloc h ret h' := by
  cases hr with
  | small hsize => omega
  | failed hno hwf hhas hsize => exact ⟨hwf, hhas, hsize, Or.inl ⟨rfl, hno⟩⟩
  | done hbound hdone =>
    refine ⟨hdone.wf, hdone.has, hdone.size, Or.inr ⟨rfl, ?_⟩⟩
    rw [hdone.occupied, hdone.wf.upper_eq, hdone.nBuckets]
    exact hbound

theorem Wf.makeRoom_ok (hl : fns.Lawful) (hw : h.Wf fns) (hsize : h.size < 2 ^ 30)
    (alloc : ResizeAlloc) :
    ∃ ret h', h.makeRoom fns alloc = .ok (ret, h') ∧ Roomy fns alloc h ret h' := by
  unfold makeRoom
  by_cases hroom : h.upperBound ≤ h.nOccupied
  · rw [if_pos hroom]
    have hle := hw.size_le_occupied
    have hb := hw.bounded
    have hupper := hw.upper_eq
    obtain hzero | ⟨k, hk, hk', hn⟩ := hw.pow
    · have hnone : h.size = 0 := by
        rw [hzero] at hupper
        unfold hashUpper at hupper
        omega
      rw [hzero, hnone, if_neg (by decide)]
      obtain ⟨ret, h', hrun, hr⟩ := hw.resize_ok hl alloc (u32 (0 + 1)) (k := 2)
        (by decide) (by decide) (by decide) (by omega)
      exact ⟨ret, h', hrun, roomy_of_resized (by rw [hnone]; decide) hr⟩
    · have h4 : 2 ^ 2 ≤ 2 ^ k := Nat.pow_le_pow_right (by decide) hk
      have hmax : 2 ^ k ≤ 2 ^ 31 := Nat.pow_le_pow_right (by decide) hk'
      have hshift : u32 (h.size <<< 1) = 2 * h.size := by
        rw [Nat.shiftLeft_eq, u32]
        omega
      rw [hn] at hupper
      rw [hshift, hn]
      by_cases hhalf : 2 * h.size < 2 ^ k
      · rw [if_pos hhalf]
        have hdown : u32 (2 ^ k + (2 ^ 32 - 1)) = 2 ^ k - 1 := by
          unfold u32
          omega
        obtain ⟨ret, h', hrun, hr⟩ := hw.resize_ok hl alloc (u32 (2 ^ k + (2 ^ 32 - 1)))
          hk hk' (by rw [hdown]; exact resizeTo_eq hk (by omega) (by omega) (by omega) (by omega))
          (by omega)
        refine ⟨ret, h', hrun, roomy_of_resized ?_ hr⟩
        unfold hashUpper
        omega
      · rw [if_neg hhalf]
        have hdouble : 2 ^ (k + 1) = 2 * 2 ^ k := by rw [pow_succ, Nat.mul_comm]
        have hlt : 2 ^ k < 2 ^ 31 := by omega
        have hk30 : k < 31 := (Nat.pow_lt_pow_iff_right (by decide)).mp hlt
        have hup : u32 (2 ^ k + 1) = 2 ^ k + 1 := Nat.mod_eq_of_lt (by omega)
        obtain ⟨ret, h', hrun, hr⟩ := hw.resize_ok hl alloc (u32 (2 ^ k + 1)) (k := k + 1)
          (by omega) (by omega)
          (by rw [hup]; exact resizeTo_eq (by omega) (by omega) (by omega) (by omega) (by omega))
          (by omega)
        refine ⟨ret, h', hrun, roomy_of_resized ?_ hr⟩
        unfold hashUpper at hupper ⊢
        omega
  · rw [if_neg hroom]
    exact ⟨0, h, rfl, hw, fun _ _ => Iff.rfl, rfl, Or.inr ⟨rfl, Nat.lt_of_not_le hroom⟩⟩

end Khash

end LiteHttp
