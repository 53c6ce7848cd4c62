import LiteHttp.KhashPut
import LiteHttp.Lib.Run

/-!
# The table is a map

`kh_put` with the value written behind it, `kh_del` and `kh_get` over whole runs: the
table that a run leaves answers every lookup as the map does that had the same
operations, and as long as it has fewer than 2^30 keys no call reads outside an array.
-/

namespace LiteHttp

open Probe Run

set_option autoImplicit false

namespace Khash

variable {κ ν : Type} {fns : KeyFns κ} {h : Khash κ ν}

/-! ## The bucket of a put -/

def Deleted (h : Khash κ ν) (i : Nat) : Prop := h.flags[i]? = some ⟨false, true⟩

theorem putLoop_ok (hw : h.Wf fns) {key : κ} {s : Nat} (hs : h.Stops fns key s) {k : Nat}
    (hk : k ≤ 31) (hn : h.nBuckets = 2 ^ k) (fuel : Nat) {d t site : Nat} (ht : t + d = s)
    (hfuel : d < fuel)
    (hsite : site = h.nBuckets ∨
      ∃ t' < t, slot h.nBuckets (fns.hashFunc key) t' = site ∧ h.Deleted site) :
    ∃ site', putLoop fns h key (slot h.nBuckets (fns.hashFunc key) 0) fuel
        (slot h.nBuckets (fns.hashFunc key) t) t site =
          .ok (slot h.nBuckets (fns.hashFunc key) s, site', h.nBuckets) ∧
      (site' = h.nBuckets ∨
        ∃ t' < s, slot h.nBuckets (fns.hashFunc key) t' = site' ∧ h.Deleted site') := by
  have hpos : 0 < h.nBuckets := by
    have := hs.lt
    omega
  induction d generalizing t fuel site with
  | zero =>
    obtain ⟨fuel, rfl⟩ := Nat.exists_eq_add_one.mpr hfuel
    obtain rfl : t = s := ht
    refine ⟨site, ?_, hsite⟩
    rw [putLoop, hw.skips_eq key (slot_lt hpos t), hs.here]
    rfl
  | succ d ih =>
    obtain ⟨fuel, rfl⟩ := Nat.exists_eq_add_one.mpr (Nat.lt_of_le_of_lt (Nat.zero_le _) hfuel)
    have hlt : t < s := by omega
    have hlast := hs.lt
    obtain ⟨hnext, hstep⟩ := nextBucket_slot hk (fns.hashFunc key) (s := t) (by omega)
    have hne := slot_ne_start (k := k) (s := t) (fns.hashFunc key) (by omega)
    rw [← hn] at hnext hne
    obtain ⟨flag, hflag, hempty⟩ := busy_of_skipped (hs.before t hlt)
    rw [putLoop, hw.skips_eq key (slot_lt hpos t), hs.before t hlt]
    simp only [flagAt, hflag, bind, Except.bind, if_true, hnext, hstep, hne, if_false]
    apply ih _ (by omega) (by omega)
    cases hdel : flag.isDel with
    | true =>
      refine Or.inr ⟨t, by omega, by simp, ?_⟩
      rw [if_pos rfl, Deleted, hflag, ← hempty, ← hdel]
    | false =>
      rw [if_neg (by decide)]
      apply hsite.imp_right
      intro hfound
      obtain ⟨t', ht', hslot⟩ := hfound
      exact ⟨t', by omega, hslot⟩

/-- Where a key that the table does not have can go. -/
structure Fits (fns : KeyFns κ) (h : Khash κ ν) (key : κ) (x : Nat) : Prop where
  absent : h.Absent fns key
  reached : Reached h.nBuckets (fns.hashFunc key) (Busy h.flags) x
  flag : ∃ flag, h.flags[x]? = some flag ∧ flag.isEither = true

/-- A put goes to the bucket of its key, or to one where the key fits. -/
theorem Wf.putBucket_ok (hl : fns.Lawful) (hw : h.Wf fns) (hroom : h.nOccupied < h.upperBound)
    (key : κ) :
    ∃ x, h.putBucket fns key = .ok x ∧ x < h.nBuckets ∧
      ((∃ k, h.Used x k ∧ fns.hashEqual k key = true) ∨ h.Fits fns key x) := by
  obtain hzero | ⟨k, hk, hk', hn⟩ := hw.pow
  · have hupper := hw.upper_eq
    rw [hzero] at hupper
    unfold hashUpper at hupper
    omega
  have h4 : 2 ^ 2 ≤ 2 ^ k := Nat.pow_le_pow_right (by decide) hk
  have hpos : 0 < h.nBuckets := by omega
  obtain ⟨s, hs⟩ := hw.exists_stops key (by
    have := hashUpper_lt (n := h.nBuckets) (by omega)
    rw [← hw.upper_eq] at this
    omega)
  have hstart : u32 (fns.hashFunc key) &&& (h.nBuckets - 1) =
      slot h.nBuckets (fns.hashFunc key) 0 := by
    rw [hn, u32_and (by omega), slot_zero]
  have hlt := hs.lt
  obtain ⟨site, hloop, hsite⟩ := putLoop_ok hw hs hk' hn (2 * h.nBuckets) (t := 0) (d := s)
    (by omega) (by omega) (Or.inl rfl)
  have hfits {x : Nat} {isDel : Bool}
      (hflag : h.flags[slot h.nBuckets (fns.hashFunc key) s]? = some ⟨true, isDel⟩)
      (hx : ∃ t ≤ s, slot h.nBuckets (fns.hashFunc key) t = x)
      (hfree : ∃ flag, h.flags[x]? = some flag ∧ flag.isEither = true) : h.Fits fns key x := by
    obtain ⟨t, ht, hslot⟩ := hx
    refine ⟨hs.absent hl hw ?_, ⟨t, by omega, hslot, ?_⟩, hfree⟩
    · rintro ⟨flag, hflag', hempty⟩
      rw [hflag, Option.some.injEq] at hflag'
      simp [← hflag'] at hempty
    · exact fun t' ht' => busy_of_skipped (hs.before t' (by omega))
  rcases hw.stop_cases (slot_lt hpos s) hs.here with ⟨isDel, hflag⟩ | ⟨k', hu, heq⟩
  · have hhere : h.Fits fns key (slot h.nBuckets (fns.hashFunc key) s) :=
      hfits hflag ⟨s, Nat.le_refl s, rfl⟩ ⟨_, hflag, rfl⟩
    cases s with
    | zero =>
      refine ⟨_, ?_, slot_lt hpos 0, Or.inr hhere⟩
      simp only [putBucket, hstart, flagAt, hflag, bind, Except.bind, pure, Except.pure, if_true]
    | succ s =>
      obtain ⟨flag₀, hflag₀, hempty₀⟩ := busy_of_skipped (hs.before 0 (Nat.succ_pos s))
      by_cases hnone : site = h.nBuckets
      · refine ⟨_, ?_, slot_lt hpos (s + 1), Or.inr hhere⟩
        simp only [putBucket, hstart, flagAt, hflag₀, hempty₀, hloop, hflag, hnone, bind, Except.bind,
          pure, Except.pure, Bool.false_eq_true, if_false, if_true, ne_eq, not_true_eq_false, and_false]
      · obtain ⟨t, ht, hslot, hdel⟩ := hsite.resolve_left hnone
        refine ⟨site, ?_, hslot ▸ slot_lt hpos t,
          Or.inr (hfits hflag ⟨t, Nat.le_of_lt ht, hslot⟩ ⟨_, hdel, rfl⟩)⟩
        simp only [putBucket, hstart, flagAt, hflag₀, hempty₀, hloop, hflag, hnone, bind, Except.bind,
          pure, Except.pure, Bool.false_eq_true, if_false, if_true, ne_eq, not_false_eq_true, and_self]
  · refine ⟨_, ?_, slot_lt hpos s, Or.inl ⟨k', hu, heq⟩⟩
    obtain ⟨flag₀, hflag₀, hempty₀⟩ : Busy h.flags (slot h.nBuckets (fns.hashFunc key) 0) := by
      rcases Nat.eq_zero_or_pos s with rfl | hs0
      · exact ⟨_, hu.1, rfl⟩
      · exact busy_of_skipped (hs.before 0 hs0)
    simp only [putBucket, hstart, flagAt, hflag₀, hempty₀, hloop, hu.1, bind, Except.bind, pure,
      Except.pure, Bool.false_eq_true, if_false, if_true, false_and]

/-! ## What the operations do to the entries -/

/-- The table with a key and its value put into a bucket where the key fits. -/
def inserted (h : Khash κ ν) (key : κ) (val : ν) (x occupied : Nat) : Khash κ ν :=
  { h with
    keys := h.keys.set x (some key)
    vals := h.vals.set x (some val)
    flags := h.flags.set x ⟨false, false⟩
    size := h.size + 1
    nOccupied := occupied }

theorem Fits.not_used {key : κ} {x : Nat} (hf : h.Fits fns key x) (k : κ) : ¬ h.Used x k := by
  obtain ⟨flag, hflag, hfree⟩ := hf.flag
  intro hu
  rw [hu.1, Option.some.injEq] at hflag
  simp [← hflag, Flag.isEither] at hfree

section Insert

variable {key : κ} {val : ν} {x occupied : Nat}

theorem used_inserted (key : κ) (val : ν) (occupied : Nat) (hx : x < h.flags.length)
    (hkeys : x < h.keys.length) (i : Nat) (k : κ) :
    (h.inserted key val x occupied).Used i k ↔ (i = x ∧ k = key) ∨ (i ≠ x ∧ h.Used i k) := by
  unfold Used inserted
  simp only [List.getElem?_set]
  by_cases hix : x = i
  · subst hix
    simp [hx, hkeys, eq_comm]
  · simp [hix, Ne.symm hix]

theorem Fits.inserted_ok (val : ν) (hl : fns.Lawful) (hw : h.Wf fns) (hf : h.Fits fns key x)
    (hocc : occupied = (h.flags.set x ⟨false, false⟩).countP (!·.isEmpty))
    (hbound : occupied ≤ h.upperBound) :
    (h.inserted key val x occupied).Wf fns ∧
      ∀ key' val', (h.inserted key val x occupied).Entry fns key' val' ↔
        if fns.hashEqual key key' then val' = val else h.Entry fns key' val' := by
  obtain ⟨flag, hflag, hfree⟩ := hf.flag
  obtain ⟨hx, hget⟩ := List.getElem?_eq_some_iff.mp hflag
  have hlt : x < h.nBuckets := hw.flags_length ▸ hx
  have hkeys : x < h.keys.length := Nat.lt_of_lt_of_le hlt hw.keys_length
  have hvals : x < h.vals.length := hw.vals_length.symm ▸ hlt
  have hused := used_inserted key val occupied hx hkeys
  have hbusy (c : Nat) (hc : Busy h.flags c) : Busy (h.flags.set x ⟨false, false⟩) c :=
    (Rehash.busy_set hx c).mpr (Or.inl hc)
  have hval (i : Nat) : (h.inserted key val x occupied).vals[i]? =
      if x = i then some (some val) else h.vals[i]? := by
    unfold inserted
    simp only [List.getElem?_set, hvals, if_true]
  refine ⟨?_, ?_⟩
  · constructor
    · exact hw.pow
    · simpa [inserted] using hw.flags_length
    · simpa [inserted] using hw.keys_length
    · simpa [inserted] using hw.vals_length
    · intro i hi
      rw [hval]
      by_cases hix : x = i
      · subst hix
        exact ⟨key, val, ((hused x key).mpr (Or.inl ⟨rfl, rfl⟩)).2, if_pos rfl⟩
      · have hi' : h.flags[i]? = some ⟨false, false⟩ := by
          simpa [inserted, List.getElem?_set, hix] using hi
        obtain ⟨k, v, hk, hv⟩ := hw.stored i hi'
        exact ⟨k, v, ((hused i k).mpr (Or.inr ⟨Ne.symm hix, hi', hk⟩)).2, by rw [if_neg hix, hv]⟩
    · intro i k hu
      rcases (hused i k).mp hu with ⟨rfl, rfl⟩ | ⟨-, hu⟩
      · exact hf.reached.mono hbusy
      · exact (hw.reached i k hu).mono hbusy
    · intro i j k k' hi hj heq
      rcases (hused i k).mp hi with ⟨rfl, rfl⟩ | ⟨-, hui⟩
      · rcases (hused j k').mp hj with ⟨rfl, -⟩ | ⟨-, huj⟩
        · rfl
        · have heq' := hl.symm heq
          simp [hf.absent j k' huj] at heq'
      · rcases (hused j k').mp hj with ⟨rfl, rfl⟩ | ⟨-, huj⟩
        · simp [hf.absent i k hui] at heq
        · exact hw.unique i j k k' hui huj heq
    · show h.size + 1 = (h.flags.set x ⟨false, false⟩).countP (!·.isEither)
      rw [List.countP_set hx, hget, hfree, hw.size_eq]
      simp [Flag.isEither]
    · exact hocc
    · exact hw.upper_eq
    · exact hbound
  · intro key' val'
    unfold Entry
    by_cases heq : fns.hashEqual key key' = true
    · rw [if_pos heq]
      constructor
      · intro he
        obtain ⟨i, k, hu, hk, hv⟩ := he
        rcases (hused i k).mp hu with ⟨rfl, rfl⟩ | ⟨-, hu⟩
        · rw [hval, if_pos rfl] at hv
          simpa using hv.symm
        · have hsame := hl.trans hk (hl.symm heq)
          simp [hf.absent i k hu] at hsame
      · rintro rfl
        exact ⟨x, key, (hused x key).mpr (Or.inl ⟨rfl, rfl⟩), heq, by rw [hval, if_pos rfl]⟩
    · rw [if_neg heq]
      constructor
      · intro he
        obtain ⟨i, k, hu, hk, hv⟩ := he
        rcases (hused i k).mp hu with ⟨rfl, rfl⟩ | ⟨hne, hu⟩
        · exact absurd hk heq
        · rw [hval, if_neg (Ne.symm hne)] at hv
          exact ⟨i, k, hu, hk, hv⟩
      · intro he
        obtain ⟨i, k, hu, hk, hv⟩ := he
        have hne : i ≠ x := by
          rintro rfl
          exact hf.not_used k hu
        exact ⟨i, k, (hused i k).mpr (Or.inr ⟨hne, hu⟩), hk, by rw [hval, if_neg (Ne.symm hne), hv]⟩

end Insert

/-- The value of a key that the table has is replaced. -/
theorem Wf.setValue_ok (hl : fns.Lawful) (hw : h.Wf fns) {x : Nat} {k key : κ} (hu : h.Used x k)
    (heq : fns.hashEqual k key = true) (val : ν) :
    ∃ h', h.setValue x val = .ok h' ∧ h'.Wf fns ∧ h'.size = h.size ∧
      ∀ key' val', h'.Entry fns key' val' ↔
        if fns.hashEqual key key' then val' = val else h.Entry fns key' val' := by
  have hlt : x < h.nBuckets := hw.flags_length ▸ (List.getElem?_eq_some_iff.mp hu.1).1
  have hvals : x < h.vals.length := hw.vals_length.symm ▸ hlt
  have hval (i : Nat) : (h.vals.set x (some val))[i]? = if x = i then some (some val) else h.vals[i]? := by
    rw [List.getElem?_set]
    simp [hvals]
  refine ⟨{ h with vals := h.vals.set x (some val) }, ?_, ?_, rfl, ?_⟩
  · simp [setValue, poke, hvals, bind, Except.bind, pure, Except.pure]
  · constructor
    · exact hw.pow
    · exact hw.flags_length
    · exact hw.keys_length
    · simpa using hw.vals_length
    · intro i hi
      obtain ⟨k', v, hk, hv⟩ := hw.stored i hi
      simp only [hval]
      by_cases hix : x = i
      · exact ⟨k', val, hk, if_pos hix⟩
      · exact ⟨k', v, hk, by rw [if_neg hix, hv]⟩
    · exact hw.reached
    · exact hw.unique
    · exact hw.size_eq
    · exact hw.occupied_eq
    · exact hw.upper_eq
    · exact hw.bounded
  · intro key' val'
    unfold Entry
    simp only [hval]
    by_cases hsame : fns.hashEqual key key' = true
    · rw [if_pos hsame]
      constructor
      · intro he
        obtain ⟨i, k', hu', hk', hv⟩ := he
        have hix : x = i := hw.unique x i k k' hu hu' (hl.trans heq (hl.trans hsame (hl.symm hk')))
        rw [if_pos hix] at hv
        simpa using hv.symm
      · rintro rfl
        exact ⟨x, k, hu, hl.trans heq hsame, if_pos rfl⟩
    · rw [if_neg hsame]
      apply exists_congr
      intro i
      apply exists_congr
      intro k'
      apply and_congr_right
      intro hu'
      apply and_congr_right
      intro hk'
      have hix : ¬ x = i := by
        rintro rfl
        have hkeys := hu.2.symm.trans hu'.2
        simp only [Option.some.injEq] at hkeys
        exact hsame (hl.trans (hl.symm heq) (hkeys ▸ hk'))
      rw [if_neg hix]

/-- What a put with the value written behind it has done: `ret` is -1 where the allocator
refused, 0 for a key the table had, and 1 or 2 for a new one. -/
structure Assigned (fns : KeyFns κ) (alloc : ResizeAlloc) (h : Khash κ ν) (key : κ) (val : ν)
    (ret : Int) (h' : Khash κ ν) : Prop where
  wf : h'.Wf fns
  size : h'.size ≤ h.size + 1
  refused : ret = -1 → alloc ≠ ⟨true, true, true⟩ ∧
    ∀ key' val', h'.Entry fns key' val' ↔ h.Entry fns key' val'
  stored : ret ≠ -1 → ∀ key' val', h'.Entry fns key' val' ↔
    if fns.hashEqual key key' then val' = val else h.Entry fns key' val'
  known : ret ≠ -1 → (ret = 0 ↔ ¬ h.Absent fns key)

/-- `kh_put`, and `kh_value(h, x) = val` unless it failed. -/
def assign (fns : KeyFns κ) (alloc : ResizeAlloc) (h : Khash κ ν) (key : κ) (val : ν) :
    Except Fault (Int × Khash κ ν) := do
  let (x, ret, h) ← h.put fns alloc key
  if ret = -1 then return (ret, h)
  else
    let h ← h.setValue x val
    return (ret, h)

theorem absent_congr {h' : Khash κ ν} (hw : h.Wf fns) (hw' : h'.Wf fns)
    (hhas : ∀ key val, h'.Has key val ↔ h.Has key val) (key : κ) :
    h'.Absent fns key ↔ h.Absent fns key := by
  have himp {a b : Khash κ ν} (ha : a.Wf fns) (hb : ∀ key val, a.Has key val → b.Has key val)
      (habsent : b.Absent fns key) : a.Absent fns key := by
    intro i k hu
    obtain ⟨k', v, hk', hv⟩ := ha.stored i hu.1
    obtain ⟨j, hu', -⟩ := hb k v ⟨i, hu, by rw [hv]⟩
    exact habsent j k hu'
  exact ⟨himp hw fun k v => (hhas k v).mpr, himp hw' fun k v => (hhas k v).mp⟩

theorem Wf.assign_ok (hl : fns.Lawful) (hw : h.Wf fns) (hsize : h.size < 2 ^ 30) (alloc : ResizeAlloc)
    (key : κ) (val : ν) :
    ∃ ret h', h.assign fns alloc key val = .ok (ret, h') ∧ Assigned fns alloc h key val ret h' := by
  obtain ⟨ret, r, hmake, hroomy⟩ := hw.makeRoom_ok hl hsize alloc
  have hentry (key' : κ) (val' : ν) : r.Entry fns key' val' ↔ h.Entry fns key' val' := by
    simp only [entry_iff_has, hroomy.has]
  have habsent := absent_congr hw hroomy.wf hroomy.has key
  have hrsize := hroomy.size
  rcases hroomy.room with ⟨rfl, hno⟩ | ⟨rfl, hroom⟩
  · refine ⟨-1, r, ?_, hroomy.wf, by omega, fun _ => ⟨hno, hentry⟩, by simp, by simp⟩
    simp [assign, put, hmake, bind, Except.bind, pure, Except.pure]
  · obtain ⟨x, hbucket, hx, hcases⟩ := hroomy.wf.putBucket_ok hl hroom key
    rcases hcases with ⟨k, hu, heq⟩ | hfits
    · obtain ⟨h', hset, hwf, hsize', hstored⟩ := hroomy.wf.setValue_ok hl hu heq val
      have hthere : ¬ h.Absent fns key := by
        intro hnone
        have := habsent.mpr hnone x k hu
        simp [heq] at this
      refine ⟨0, h', ?_, hwf, by omega, by simp, ?_, fun _ => iff_of_true rfl hthere⟩
      · simp [assign, put, putAt, hmake, hbucket, flagAt, hu.1, hset, bind, Except.bind, pure, Except.pure]
      · intro _ key' val'
        rw [hstored, hentry]
    · obtain ⟨flag, hflag, hfree⟩ := hfits.flag
      obtain ⟨hxf, hget⟩ := List.getElem?_eq_some_iff.mp hflag
      have hxk : x < r.keys.length := Nat.lt_of_lt_of_le hx hroomy.wf.keys_length
      have hxv : x < r.vals.length := hroomy.wf.vals_length.symm ▸ hx
      have hnew : h.Absent fns key := habsent.mp hfits.absent
      have hinc : u32 (r.size + 1) = r.size + 1 := Nat.mod_eq_of_lt (by omega)
      have hocc : (r.flags.set x ⟨false, false⟩).countP (!·.isEmpty) =
          if flag.isEmpty then r.nOccupied + 1 else r.nOccupied := by
        rw [List.countP_set hxf, hget, ← hroomy.wf.occupied_eq]
        have hpos : flag.isEmpty = false → 0 < r.nOccupied := by
          intro hbusy
          rw [hroomy.wf.occupied_eq]
          exact List.countP_pos_iff.mpr ⟨flag, hget ▸ List.getElem_mem hxf, by simp [hbusy]⟩
        cases hempty : flag.isEmpty with
        | true => simp
        | false =>
          have := hpos hempty
          simp only [Bool.not_false, if_true, Bool.false_eq_true, if_false]
          omega
      have hle := hroomy.wf.bounded
      have hupper : r.upperBound < 2 ^ 32 - 1 := by
        rw [hroomy.wf.upper_eq]
        obtain hzero | ⟨k, -, hk, hn⟩ := hroomy.wf.pow
        · omega
        · have : 2 ^ k ≤ 2 ^ 31 := Nat.pow_le_pow_right (by decide) hk
          unfold hashUpper
          omega
      have hoinc : u32 (r.nOccupied + 1) = r.nOccupied + 1 := Nat.mod_eq_of_lt (by omega)
      obtain ⟨hwf, hstored⟩ := hfits.inserted_ok val hl hroomy.wf rfl
        (by rw [hocc]; split <;> omega)
      refine ⟨if flag.isEmpty then 1 else 2, r.inserted key val x _, ?_, hwf, ?_, ?_, ?_, ?_⟩
      · rw [hocc]
        cases hempty : flag.isEmpty with
        | true =>
          simp [assign, put, putAt, hmake, hbucket, flagAt, hflag, hempty, poke, hxk, hxv, hinc, hoinc,
            setValue, inserted, bind, Except.bind, pure, Except.pure]
        | false =>
          have hdel : flag.isDel = true := by simpa [Flag.isEither, hempty] using hfree
          simp [assign, put, putAt, hmake, hbucket, flagAt, hflag, hempty, hdel, poke, hxk, hxv, hinc,
            setValue, inserted, bind, Except.bind, pure, Except.pure]
      · show r.size + 1 ≤ h.size + 1
        omega
      · split <;> simp
      · intro _ key' val'
        rw [hstored, hentry]
      · intro _
        refine iff_of_false (by split <;> decide) (not_not.mpr hnew)

/-- `kh_del` of the bucket `kh_get` gives. -/
def remove (fns : KeyFns κ) (h : Khash κ ν) (key : κ) : Except Fault (Khash κ ν) := do
  let x ← h.get fns key
  h.del x

theorem Wf.remove_ok (hl : fns.Lawful) (hw : h.Wf fns) (key : κ) :
    ∃ h', h.remove fns key = .ok h' ∧ h'.Wf fns ∧ h'.size ≤ h.size ∧
      ∀ key' val', h'.Entry fns key' val' ↔
        fns.hashEqual key key' = false ∧ h.Entry fns key' val' := by
  rcases hw.get_cases hl key with ⟨x, k, hget, hx, hu, heq⟩ | ⟨hget, habsent⟩
  · obtain ⟨hxf, hxget⟩ := List.getElem?_eq_some_iff.mp hu.1
    have hcount := Rehash.countP_mark hu.1 rfl
    have hdec : u32 (h.size + 4294967295) = h.size - 1 := by
      have hpos := hw.size_eq
      have hbound := List.countP_le_length (p := (!·.isEither)) (l := h.flags)
      rw [hw.flags_length] at hbound
      obtain hzero | ⟨k, -, hk, hn⟩ := hw.pow
      · omega
      · have : 2 ^ k ≤ 2 ^ 31 := Nat.pow_le_pow_right (by decide) hk
        unfold u32
        omega
    let h' : Khash κ ν := { h with flags := h.flags.set x ⟨false, true⟩, size := h.size - 1 }
    have hused (i : Nat) (k' : κ) : h'.Used i k' ↔ i ≠ x ∧ h.Used i k' := by
      unfold Used
      simp only [h', List.getElem?_set]
      by_cases hix : x = i
      · subst hix
        simp [hxf]
      · simp [hix, Ne.symm hix]
    have hbusy (c : Nat) (hc : Busy h.flags c) : Busy h'.flags c := by
      by_cases hcx : x = c
      · subst hcx
        exact ⟨⟨false, true⟩, by simp [h', hxf], rfl⟩
      · obtain ⟨flag, hflag, hempty⟩ := hc
        exact ⟨flag, by simpa [h', List.getElem?_set, hcx] using hflag, hempty⟩
    refine ⟨h', ?_, ?_, Nat.sub_le _ _, ?_⟩
    · simp [remove, del, hget, Nat.ne_of_lt hx, flagAt, hu.1, Flag.isEither, hdec, h', bind, Except.bind,
        pure, Except.pure]
    · constructor
      · exact hw.pow
      · simpa [h'] using hw.flags_length
      · exact hw.keys_length
      · exact hw.vals_length
      · intro i hi
        have hix : x ≠ i := by
          rintro rfl
          simp [h', hxf] at hi
        exact hw.stored i (by simpa [h', List.getElem?_set, hix] using hi)
      · exact fun i k' hu' => (hw.reached i k' ((hused i k').mp hu').2).mono hbusy
      · exact fun i j k' k'' hi hj => hw.unique i j k' k'' ((hused i k').mp hi).2 ((hused j k'').mp hj).2
      · show h.size - 1 = (h.flags.set x ⟨false, true⟩).countP (!·.isEither)
        have hsize := hw.size_eq
        simp only at hcount
        omega
      · show h.nOccupied = (h.flags.set x ⟨false, true⟩).countP (!·.isEmpty)
        have hpos : 0 < h.flags.countP (!·.isEmpty) :=
          List.countP_pos_iff.mpr ⟨_, hxget ▸ List.getElem_mem hxf, rfl⟩
        rw [List.countP_set hxf, hxget, hw.occupied_eq]
        simp only [Bool.not_false, if_true]
        omega
      · exact hw.upper_eq
      · exact hw.bounded
    · intro key' val'
      unfold Entry
      constructor
      · intro he
        obtain ⟨i, k', hu', hk', hv⟩ := he
        obtain ⟨hne, hu'⟩ := (hused i k').mp hu'
        refine ⟨?_, i, k', hu', hk', hv⟩
        by_contra hsame
        rw [Bool.not_eq_false] at hsame
        exact hne (hw.unique x i k k' hu hu' (hl.trans heq (hl.trans hsame (hl.symm hk')))).symm
      · intro he
        obtain ⟨hdiff, i, k', hu', hk', hv⟩ := he
        refine ⟨i, k', (hused i k').mpr ⟨?_, hu'⟩, hk', hv⟩
        rintro rfl
        have hkeys := hu.2.symm.trans hu'.2
        simp only [Option.some.injEq] at hkeys
        have hsame := hl.trans (hl.symm heq) (hkeys ▸ hk')
        simp [hdiff] at hsame
  · refine ⟨h, ?_, hw, Nat.le_refl _, fun key' val' => ?_⟩
    · simp [remove, del, hget, bind, Except.bind]
    · refine (and_iff_right_of_imp ?_).symm
      intro he
      obtain ⟨i, k, hu, hk, -⟩ := he
      by_contra hsame
      rw [Bool.not_eq_false] at hsame
      have hthere := hl.trans hk (hl.symm hsame)
      simp [habsent i k hu] at hthere

/-! ## Runs -/

/-- `kh_get`, and `kh_value` unless it gives the end of the table. -/
def lookup (fns : KeyFns κ) (h : Khash κ ν) (key : κ) : Except Fault (Option ν) := do
  let x ← h.get fns key
  if x = h.nBuckets then return none
  else
    let val ← h.value x
    return some val

/-- The table has the entries of the map. -/
def Maps (fns : KeyFns κ) (h : Khash κ ν) (m : κ → Option ν) : Prop :=
  ∀ key val, m key = some val ↔ h.Entry fns key val

theorem Wf.lookup_eq (hl : fns.Lawful) (hw : h.Wf fns) {m : κ → Option ν} (hm : h.Maps fns m)
    (key : κ) : h.lookup fns key = .ok (m key) := by
  rcases hw.get_cases hl key with ⟨x, k, hget, hx, hu, heq⟩ | ⟨hget, habsent⟩
  · obtain ⟨k', val, hk', hval⟩ := hw.stored x hu.1
    have hsome : m key = some val := (hm key val).mpr ⟨x, k, hu, heq, hval⟩
    simp [lookup, hget, Nat.ne_of_lt hx, value, peek, hval, hsome, bind, Except.bind, pure, Except.pure]
  · have hnone : m key = none := by
      rw [Option.eq_none_iff_forall_ne_some]
      intro val hsome
      obtain ⟨i, k, hu, heq, -⟩ := (hm key val).mp hsome
      simp [habsent i k hu] at heq
    simp [lookup, hget, hnone, bind, Except.bind, pure, Except.pure]

theorem Maps.absent_iff (hw : h.Wf fns) {m : κ → Option ν} (hm : h.Maps fns m) (key : κ) :
    h.Absent fns key ↔ m key = none := by
  rw [Option.eq_none_iff_forall_ne_some]
  constructor
  · intro habsent val hsome
    obtain ⟨i, k, hu, heq, -⟩ := (hm key val).mp hsome
    simp [habsent i k hu] at heq
  · intro hnone i k hu
    by_contra heq
    rw [Bool.not_eq_false] at heq
    obtain ⟨k', val, -, hval⟩ := hw.stored i hu.1
    exact hnone val ((hm key val).mpr ⟨i, k, hu, heq, hval⟩)

end Khash

inductive TableOp (κ ν : Type) where
  | put (key : κ) (val : ν) (alloc : ResizeAlloc)
  | del (key : κ)

namespace TableOp

variable {κ ν : Type} {fns : KeyFns κ}

/-- The operation on the table, with the `*ret` of a put. -/
def run (fns : KeyFns κ) (h : Khash κ ν) : TableOp κ ν → Except Fault (Int × Khash κ ν)
  | .put key val alloc => h.assign fns alloc key val
  | .del key => do
    let h ← h.remove fns key
    return (0, h)

/-- What the operation is on a map, given the answer. -/
def apply (fns : KeyFns κ) (m : κ → Option ν) (ret : Int) : TableOp κ ν → κ → Option ν
  | .put key val _ =>
    if ret = -1 then m else fun key' => if fns.hashEqual key key' then some val else m key'
  | .del key => fun key' => if fns.hashEqual key key' then none else m key'

/-- The answer a map calls for: a put fails only where the allocator may, and says of any
other whether it knew the key. -/
def Answered (m : κ → Option ν) (ret : Int) : TableOp κ ν → Prop
  | .put key _ alloc =>
    (ret = -1 → alloc ≠ ⟨true, true, true⟩) ∧ (ret ≠ -1 → (ret = 0 ↔ m key ≠ none))
  | .del _ => ret = 0

end TableOp

/-- A run of a map, with its answers. -/
inductive MapRun {κ ν : Type} (fns : KeyFns κ) :
    (κ → Option ν) → List (TableOp κ ν) → List Int → (κ → Option ν) → Prop where
  | nil (m : κ → Option ν) : MapRun fns m [] [] m
  | cons {m m' : κ → Option ν} {op : TableOp κ ν} {ops : List (TableOp κ ν)} {ret : Int}
      {rets : List Int} (hret : op.Answered m ret)
      (hrest : MapRun fns (op.apply fns m ret) ops rets m') : MapRun fns m (op :: ops) (ret :: rets) m'

namespace Khash

variable {κ ν : Type} {fns : KeyFns κ} {h : Khash κ ν}

theorem Maps.run (hl : fns.Lawful) (hw : h.Wf fns) {m : κ → Option ν} (hm : h.Maps fns m)
    (hsize : h.size < 2 ^ 30) (op : TableOp κ ν) :
    ∃ ret h', op.run fns h = .ok (ret, h') ∧ h'.Wf fns ∧ h'.size ≤ h.size + 1 ∧ op.Answered m ret ∧
      h'.Maps fns (op.apply fns m ret) := by
  cases op with
  | put key val alloc =>
    obtain ⟨ret, h', hrun, hdone⟩ := hw.assign_ok hl hsize alloc key val
    refine ⟨ret, h', hrun, hdone.wf, hdone.size, ⟨fun hno => (hdone.refused hno).1, fun hyes => ?_⟩, ?_⟩
    · rw [hdone.known hyes, hm.absent_iff hw]
    · intro key' val'
      unfold TableOp.apply
      by_cases hno : ret = -1
      · simp only [hno, if_true]
        rw [(hdone.refused hno).2, hm]
      · simp only [hno, if_false]
        rw [hdone.stored hno]
        by_cases hsame : fns.hashEqual key key' = true
        · simp [hsame, eq_comm]
        · simpa [hsame] using hm key' val'
  | del key =>
    obtain ⟨h', hrun, hwf, hsize', hentry⟩ := hw.remove_ok hl key
    refine ⟨0, h', by simp [TableOp.run, hrun, bind, Except.bind, pure, Except.pure], hwf, by omega, rfl, ?_⟩
    intro key' val'
    unfold TableOp.apply
    rw [hentry]
    by_cases hsame : fns.hashEqual key key' = true
    · simp [hsame]
    · simpa [hsame] using hm key' val'

theorem Maps.exec (hl : fns.Lawful) (ops : List (TableOp κ ν)) (hw : h.Wf fns) {m : κ → Option ν}
    (hm : h.Maps fns m) (hsize : h.size + ops.length ≤ 2 ^ 30) :
    ∃ rets h' m', exec (fun h op => op.run fns h) h ops = .ok (rets, h') ∧ MapRun fns m ops rets m' ∧
      h'.Wf fns ∧ h'.Maps fns m' := by
  induction ops generalizing h m with
  | nil => exact ⟨[], h, m, rfl, .nil m, hw, hm⟩
  | cons op ops ih =>
    rw [List.length_cons] at hsize
    obtain ⟨ret, h₁, hrun, hw₁, hsize₁, hret, hm₁⟩ := hm.run hl hw (by omega) op
    obtain ⟨rets, h₂, m', hrest, hmap, hw₂, hm₂⟩ := ih hw₁ hm₁ (by omega)
    exact ⟨ret :: rets, h₂, m', exec_cons hrun hrest, .cons hret hmap, hw₂, hm₂⟩

theorem maps_init : (init : Khash κ ν).Maps fns (fun _ => none) := by
  intro key val
  refine iff_of_false (by simp) ?_
  intro he
  obtain ⟨i, k, hu, -, -⟩ := he
  simp [Used, init] at hu

/-- Every run of at most 2^30 operations on a new table returns, whatever the allocator
answers, answers as the map does, and leaves a table whose lookups are those of the map. -/
theorem run_lookup (hl : fns.Lawful) (ops : List (TableOp κ ν)) (hlen : ops.length ≤ 2 ^ 30) :
    ∃ rets h' m, exec (fun h op => op.run fns h) init ops = .ok (rets, h') ∧
      MapRun fns (fun _ => none) ops rets m ∧ ∀ key, h'.lookup fns key = .ok (m key) := by
  obtain ⟨rets, h', m, hrun, hmap, hw, hm⟩ := maps_init.exec hl ops (wf_init fns)
    (show 0 + ops.length ≤ 2 ^ 30 by omega)
  exact ⟨rets, h', m, hrun, hmap, hw.lookup_eq hl hm⟩

/-- Numbers as keys. -/
def numberFns : KeyFns Nat := ⟨id, fun a b => a == b⟩

theorem numberFns_lawful : numberFns.Lawful where
  refl a := beq_self_eq_true a
  symm h := beq_iff_eq.mpr (beq_iff_eq.mp h).symm
  trans h h' := beq_iff_eq.mpr ((beq_iff_eq.mp h).trans (beq_iff_eq.mp h'))
  hash h := beq_iff_eq.mp h

theorem numbers_lookup :
    ∃ rets h' m, exec (fun h op => TableOp.run numberFns h op) (init : Khash Nat Nat)
        [.put 3 1 ⟨true, true, true⟩, .put 7 2 ⟨true, true, false⟩, .del 3] = .ok (rets, h') ∧
      MapRun numberFns (fun _ => none)
        [.put 3 1 ⟨true, true, true⟩, .put 7 2 ⟨true, true, false⟩, .del 3] rets m ∧
      ∀ key, h'.lookup numberFns key = .ok (m key) :=
  run_lookup numberFns_lawful _ (by decide)

theorem resizeTo_pow {newBuckets : Nat} (hmax : newBuckets ≤ 2 ^ 31) :
    ∃ k, 2 ≤ k ∧ k ≤ 31 ∧ resizeTo newBuckets = 2 ^ k := by
  rcases Nat.lt_or_ge newBuckets 2 with hlt | hge
  · refine ⟨2, by decide, by decide, ?_⟩
    rcases Nat.le_one_iff_eq_zero_or_eq_one.mp (Nat.le_of_lt_succ hlt) with rfl | rfl
    · decide
    · decide
  · have hleast := kroundup32_isLeast hge hmax
    obtain ⟨k, hk⟩ := hleast.1.1
    have hle : 2 ^ k ≤ 2 ^ 31 := hk ▸ hleast.2 ⟨⟨31, rfl⟩, hmax⟩
    have hk31 : k ≤ 31 := (Nat.pow_le_pow_iff_right (by decide)).mp hle
    rw [resizeTo, hk]
    split
    · exact ⟨2, by decide, by decide, rfl⟩
    · rename_i hfour
      have h4 : 2 ^ 2 ≤ 2 ^ k := Nat.le_of_not_lt hfour
      exact ⟨k, (Nat.pow_le_pow_iff_right (by decide)).mp h4, hk31, rfl⟩

/-- A resize asked for after such a run, to any size up to 2^31 and smaller ones too, leaves
every lookup as it was, unless an array that is given back cannot be shortened. -/
theorem run_resize_lookup (hl : fns.Lawful) (ops : List (TableOp κ ν)) (hlen : ops.length ≤ 2 ^ 30)
    {rets : List Int} (hrun : exec (fun h op => op.run fns h) init ops = .ok (rets, h))
    (alloc : ResizeAlloc) {newBuckets : Nat} (hmax : newBuckets ≤ 2 ^ 31)
    (hshrink : resizeTo newBuckets < h.nBuckets → alloc.keysOk = true ∧ alloc.valsOk = true) :
    ∃ ret h', h.resize fns alloc newBuckets = .ok (ret, h') ∧
      (ret = -1 → alloc ≠ ⟨true, true, true⟩) ∧
      ∀ key, h'.lookup fns key = h.lookup fns key := by
  obtain ⟨rets', h₁, m, hrun', -, hw, hm⟩ := maps_init.exec hl ops (wf_init fns)
    (show 0 + ops.length ≤ 2 ^ 30 by omega)
  rw [hrun, Except.ok.injEq, Prod.mk.injEq] at hrun'
  obtain ⟨-, rfl⟩ := hrun'
  obtain ⟨k, hk, hk', hto⟩ := resizeTo_pow hmax
  obtain ⟨ret, h', hresize, hr⟩ := hw.resize_ok hl alloc newBuckets hk hk' hto (hto ▸ hshrink)
  have hsame (hwf : h'.Wf fns) (hhas : ∀ key val, h'.Has key val ↔ h.Has key val) (key : κ) :
      h'.lookup fns key = h.lookup fns key := by
    have hm' : h'.Maps fns m := by
      intro key' val'
      rw [hm, entry_iff_has, entry_iff_has]
      simp only [hhas]
    rw [hw.lookup_eq hl hm, hwf.lookup_eq hl hm']
  refine ⟨ret, h', hresize, ?_⟩
  cases hr with
  | small hsize => exact ⟨by simp, fun _ => rfl⟩
  | failed hno hwf hhas hsize => exact ⟨fun _ => hno, hsame hwf hhas⟩
  | done hbound hdone => exact ⟨by simp, hsame hdone.wf hdone.has⟩

/-- A table of one key grows from 4 buckets to 32. -/
theorem oneNumber_resized :
    ∃ ret h', (⟨4, 1, 1, 3, [.initial, .initial, .initial, ⟨false, false⟩],
        [none, none, none, some 3], [none, none, none, some 1]⟩ : Khash Nat Nat).resize numberFns
        ⟨true, true, true⟩ 32 = .ok (ret, h') ∧
      (ret = -1 → (⟨true, true, true⟩ : ResizeAlloc) ≠ ⟨true, true, true⟩) ∧
      ∀ key, h'.lookup numberFns key =
        (⟨4, 1, 1, 3, [.initial, .initial, .initial, ⟨false, false⟩],
          [none, none, none, some 3], [none, none, none, some 1]⟩ : Khash Nat Nat).lookup numberFns key :=
  run_resize_lookup numberFns_lawful [.put 3 1 ⟨true, true, true⟩] (by decide)
    (show exec _ _ _ = .ok ([1], _) by decide +kernel) ⟨true, true, true⟩ (by decide) (by decide +kernel)

end Khash

end LiteHttp
