import LiteHttp.KhashResize

/-!
# The kick-out process

One invariant carries the rehash from the old flags to the new ones: the entries are
those in the buckets and the one in hand, each of the new buckets is reached by the probe
of its key over new buckets, and every round takes one entry out of the old flags.
-/

namespace LiteHttp

open Probe

set_option autoImplicit false

namespace Khash

variable {κ ν : Type}

namespace Rehash

/-- The old table still has its entry in the bucket. -/
def Old (st : Rehash κ ν) (i : Nat) : Prop :=
  ∃ flag, st.flags[i]? = some flag ∧ flag.isEither = false

def Holds (st : Rehash κ ν) (i : Nat) (key : κ) (val : ν) : Prop :=
  (st.Old i ∨ Busy st.newFlags i) ∧ st.keys[i]? = some (some key) ∧ st.vals[i]? = some (some val)

/-- What holds of the arrays while an entry is in hand, and between two buckets. -/
structure Inv (fns : KeyFns κ) (n m : Nat) (entries : κ → ν → Prop) (total : Nat)
    (hand : Option (κ × ν)) (st : Rehash κ ν) : Prop where
  flags_length : st.flags.length = n
  newFlags_length : st.newFlags.length = m
  keys_length : n ≤ st.keys.length ∧ m ≤ st.keys.length
  vals_length : st.vals.length = max n m
  plain : ∀ (i : Nat) (flag : Flag), st.newFlags[i]? = some flag → flag.isDel = false
  apart : ∀ i, st.Old i → ¬ Busy st.newFlags i
  stored : ∀ i, st.Old i ∨ Busy st.newFlags i → ∃ key val, st.Holds i key val
  items : ∀ key val, entries key val ↔ hand = some (key, val) ∨ ∃ i, st.Holds i key val
  unique : ∀ i j key val key' val', st.Holds i key val → st.Holds j key' val' →
    fns.hashEqual key key' = true → i = j
  hand_unique : ∀ key val, hand = some (key, val) → ∀ i key' val', st.Holds i key' val' →
    fns.hashEqual key key' = false
  reached : ∀ i key val, Busy st.newFlags i → st.Holds i key val →
    Reached m (fns.hashFunc key) (Busy st.newFlags) i
  count : st.flags.countP (!·.isEither) + st.newFlags.countP (!·.isEmpty) + hand.toList.length = total

instance (st : Rehash κ ν) (i : Nat) : Decidable (st.Old i) :=
  match h : st.flags[i]? with
  | some flag => decidable_of_iff (flag.isEither = false) (by simp [Old, h])
  | none => isFalse (by simp [Old, h])

theorem kicks_eq {n : Nat} {st : Rehash κ ν} (hlen : st.flags.length = n) (i : Nat) :
    st.kicks n i = .ok (decide (st.Old i)) := by
  unfold kicks
  split
  · rename_i hlt
    have hflag := List.getElem?_eq_getElem (hlen.symm ▸ hlt : i < st.flags.length)
    simp [flagAt, hflag, Old, bind, Except.bind, pure, Except.pure]
  · rename_i hge
    have hout : ¬ st.Old i := fun h => by
      obtain ⟨flag, hflag, -⟩ := h
      exact hge (hlen ▸ (List.getElem?_eq_some_iff.mp hflag).1)
    rw [decide_eq_false hout]

variable {fns : KeyFns κ} {n m total : Nat} {entries : κ → ν → Prop} {st : Rehash κ ν}

theorem busy_set {flags : List Flag} {i : Nat} (hi : i < flags.length) (j : Nat) :
    Busy (flags.set i ⟨false, false⟩) j ↔ Busy flags j ∨ j = i := by
  unfold Busy
  rw [List.getElem?_set]
  by_cases hij : i = j
  · subst hij
    simp [hi]
  · simp [hij, Ne.symm hij]

theorem old_set (st : Rehash κ ν) (flag : Flag) {i : Nat} (hi : i < st.flags.length)
    (hdel : flag.isDel = true)
    (newFlags : List Flag) (keys : List (Option κ)) (vals : List (Option ν)) (j : Nat) :
    (⟨st.flags.set i flag, newFlags, keys, vals⟩ : Rehash κ ν).Old j ↔ st.Old j ∧ j ≠ i := by
  unfold Old
  simp only
  rw [List.getElem?_set]
  by_cases hij : i = j
  · subst hij
    simp [hi, Flag.isEither, hdel]
  · simp [hij, Ne.symm hij]

/-- A bucket that is marked in the old flags counts no more. -/
theorem countP_mark {flags : List Flag} {i : Nat} {flag : Flag} (hflag : flags[i]? = some flag)
    (hlive : flag.isEither = false) :
    (flags.set i { flag with isDel := true }).countP (!·.isEither) + 1 =
      flags.countP (!·.isEither) := by
  obtain ⟨hi, hget⟩ := List.getElem?_eq_some_iff.mp hflag
  have hdead : ({ flag with isDel := true } : Flag).isEither = true := by simp [Flag.isEither]
  have hone : 0 < flags.countP (!·.isEither) :=
    List.countP_pos_iff.mpr ⟨flag, hget ▸ List.getElem_mem hi, by simp [hlive]⟩
  rw [List.countP_set hi, hget]
  simp only [hlive, hdead, Bool.not_true, Bool.not_false, if_true, Bool.false_eq_true, if_false]
  omega

/-- An entry that is put into a free bucket of the new table takes the place of what the old
one has there. -/
theorem holds_place {flags : List Flag} {i : Nat} (key : κ) (val : ν) (hi : i < st.newFlags.length)
    (hkeys : i < st.keys.length) (hvals : i < st.vals.length)
    (hold : ∀ j, (⟨flags, st.newFlags, st.keys, st.vals⟩ : Rehash κ ν).Old j ↔ st.Old j ∧ j ≠ i)
    (j : Nat) (k : κ) (v : ν) :
    (⟨flags, st.newFlags.set i ⟨false, false⟩, st.keys.set i (some key), st.vals.set i (some val)⟩ :
        Rehash κ ν).Holds j k v ↔
      (j = i ∧ k = key ∧ v = val) ∨ (j ≠ i ∧ st.Holds j k v) := by
  have hold' : (⟨flags, st.newFlags.set i ⟨false, false⟩, st.keys.set i (some key),
      st.vals.set i (some val)⟩ : Rehash κ ν).Old j ↔ st.Old j ∧ j ≠ i := hold j
  unfold Holds
  rw [hold', busy_set hi]
  simp only [List.getElem?_set]
  by_cases hij : i = j
  · subst hij
    simp only [hkeys, hvals, if_true, Option.some.injEq, ne_eq, not_true_eq_false, and_false,
      false_and, or_false, or_true, true_and]
    rw [eq_comm, and_congr_right_iff]
    exact fun _ => eq_comm
  · simp [hij, Ne.symm hij]

theorem Inv.place (hl : fns.Lawful) {key : κ} {val : ν}
    (hinv : Inv fns n m entries total (some (key, val)) st) {i : Nat} (hi : i < m)
    (hreached : Reached m (fns.hashFunc key) (Busy st.newFlags) i)
    (flags : List Flag) (hand : Option (κ × ν)) (hlen : flags.length = n)
    (hold : ∀ j, (⟨flags, st.newFlags, st.keys, st.vals⟩ : Rehash κ ν).Old j ↔ st.Old j ∧ j ≠ i)
    (hcount : flags.countP (!·.isEither) + hand.toList.length = st.flags.countP (!·.isEither))
    (hfree : ¬ Busy st.newFlags i) (hhand : ∀ k v, hand = some (k, v) ↔ st.Holds i k v) :
    Inv fns n m entries total hand
      ⟨flags, st.newFlags.set i ⟨false, false⟩, st.keys.set i (some key), st.vals.set i (some val)⟩ := by
  have hnew : i < st.newFlags.length := by rwa [hinv.newFlags_length]
  have hkeys : i < st.keys.length := Nat.lt_of_lt_of_le hi hinv.keys_length.2
  have hvals : i < st.vals.length := hinv.vals_length ▸ Nat.lt_of_lt_of_le hi (Nat.le_max_right n m)
  have hholds := holds_place key val hnew hkeys hvals hold
  have hbusy := busy_set hnew
  constructor
  · exact hlen
  · simpa using hinv.newFlags_length
  · simpa using hinv.keys_length
  · simpa using hinv.vals_length
  · intro j flag hflag
    simp only [List.getElem?_set, hnew, if_true] at hflag
    split at hflag
    · rw [← Option.some.inj hflag]
    · exact hinv.plain j flag hflag
  · intro j hj hb
    obtain ⟨hj, hne⟩ := (hold j).mp hj
    rcases (hbusy j).mp hb with hb | heq
    · exact hinv.apart j hj hb
    · exact hne heq
  · intro j hj
    by_cases hij : j = i
    · exact ⟨key, val, (hholds j key val).mpr (Or.inl ⟨hij, rfl, rfl⟩)⟩
    · have hj' : st.Old j ∨ Busy st.newFlags j := by
        rcases hj with hj | hj
        · exact Or.inl ((hold j).mp hj).1
        · exact Or.inr (((hbusy j).mp hj).resolve_right hij)
      obtain ⟨k, v, h⟩ := hinv.stored j hj'
      exact ⟨k, v, (hholds j k v).mpr (Or.inr ⟨hij, h⟩)⟩
  · intro k v
    rw [hinv.items, hhand]
    constructor
    · rintro (heq | ⟨j, h⟩)
      · obtain ⟨rfl, rfl⟩ := Prod.mk.inj (Option.some.inj heq)
        exact Or.inr ⟨i, (hholds i key val).mpr (Or.inl ⟨rfl, rfl, rfl⟩)⟩
      · by_cases hij : j = i
        · exact Or.inl (hij ▸ h)
        · exact Or.inr ⟨j, (hholds j k v).mpr (Or.inr ⟨hij, h⟩)⟩
    · rintro (h | ⟨j, h⟩)
      · exact Or.inr ⟨i, h⟩
      · rcases (hholds j k v).mp h with ⟨-, rfl, rfl⟩ | ⟨-, h⟩
        · exact Or.inl rfl
        · exact Or.inr ⟨j, h⟩
  · intro j j' k v k' v' h h' heq
    rcases (hholds j k v).mp h with ⟨rfl, rfl, rfl⟩ | ⟨hne, hk⟩
    · rcases (hholds j' k' v').mp h' with ⟨rfl, -, -⟩ | ⟨hne', hk'⟩
      · rfl
      · simp [hinv.hand_unique k v rfl j' k' v' hk'] at heq
    · rcases (hholds j' k' v').mp h' with ⟨rfl, rfl, rfl⟩ | ⟨hne', hk'⟩
      · have heq' := hl.symm heq
        simp [hinv.hand_unique k' v' rfl j k v hk] at heq'
      · exact hinv.unique j j' k v k' v' hk hk' heq
  · intro k v hkv j k' v' h
    have hi' := (hhand k v).mp hkv
    by_contra heq
    rw [Bool.not_eq_false] at heq
    rcases (hholds j k' v').mp h with ⟨rfl, rfl, rfl⟩ | ⟨hne, hk⟩
    · have heq' := hl.symm heq
      simp [hinv.hand_unique k' v' rfl j k v hi'] at heq'
    · exact hne (hinv.unique i j k v k' v' hi' hk heq).symm
  · intro j k v hb h
    rcases (hholds j k v).mp h with ⟨rfl, rfl, rfl⟩ | ⟨hne, h⟩
    · exact hreached.mono fun c hc => (hbusy c).mpr (Or.inl hc)
    · have hb' := ((hbusy j).mp hb).resolve_right hne
      exact (hinv.reached j k v hb' h).mono fun c hc => (hbusy c).mpr (Or.inl hc)
  · have hset : (st.newFlags.set i ⟨false, false⟩).countP (!·.isEmpty) =
        st.newFlags.countP (!·.isEmpty) + 1 := by
      have hempty : st.newFlags[i].isEmpty = true := by
        by_contra hno
        exact hfree ⟨_, List.getElem?_eq_getElem hnew, by simpa using hno⟩
      rw [List.countP_set hnew]
      simp [hempty]
    have htotal := hinv.count
    show flags.countP (!·.isEither) + (st.newFlags.set i ⟨false, false⟩).countP (!·.isEmpty) +
      hand.toList.length = total
    rw [hset]
    simp only [Option.toList_some, List.length_singleton] at htotal
    omega

/-- The entry of an old bucket is taken in hand. -/
theorem Inv.take (hinv : Inv fns n m entries total none st) {j : Nat} {flag : Flag} {key : κ} {val : ν}
    (hflag : st.flags[j]? = some flag) (hlive : flag.isEither = false)
    (hkey : st.keys[j]? = some (some key)) (hval : st.vals[j]? = some (some val)) :
    Inv fns n m entries total (some (key, val))
      { st with flags := st.flags.set j { flag with isDel := true } } := by
  have hj : j < st.flags.length := (List.getElem?_eq_some_iff.mp hflag).1
  have hold := old_set st { flag with isDel := true } hj rfl st.newFlags st.keys st.vals
  have hjold : st.Old j := ⟨flag, hflag, hlive⟩
  have hholds (i : Nat) (k : κ) (v : ν) :
      ({ st with flags := st.flags.set j { flag with isDel := true } } : Rehash κ ν).Holds i k v ↔
        i ≠ j ∧ st.Holds i k v := by
    unfold Holds
    rw [hold]
    by_cases hij : i = j
    · subst hij
      simp [hinv.apart i hjold]
    · simp [hij]
  have htaken : st.Holds j key val := ⟨Or.inl hjold, hkey, hval⟩
  constructor
  · simpa using hinv.flags_length
  · exact hinv.newFlags_length
  · exact hinv.keys_length
  · exact hinv.vals_length
  · exact hinv.plain
  · exact fun i hi => hinv.apart i ((hold i).mp hi).1
  · intro i hi
    have hne : i ≠ j := by
      rintro rfl
      rcases hi with hi | hi
      · exact ((hold i).mp hi).2 rfl
      · exact hinv.apart i hjold hi
    obtain ⟨k, v, h⟩ := hinv.stored i (hi.imp_left fun hi => ((hold i).mp hi).1)
    exact ⟨k, v, (hholds i k v).mpr ⟨hne, h⟩⟩
  · intro k v
    rw [hinv.items]
    constructor
    · intro h
      obtain ⟨i, h⟩ := h.resolve_left (by simp)
      by_cases hij : i = j
      · subst hij
        have hk := h.2.1.symm.trans hkey
        have hv := h.2.2.symm.trans hval
        simp only [Option.some.injEq] at hk hv
        exact Or.inl (by rw [hk, hv])
      · exact Or.inr ⟨i, (hholds i k v).mpr ⟨hij, h⟩⟩
    · rintro (heq | ⟨i, h⟩)
      · obtain ⟨rfl, rfl⟩ := Prod.mk.inj (Option.some.inj heq)
        exact Or.inr ⟨j, htaken⟩
      · exact Or.inr ⟨i, ((hholds i k v).mp h).2⟩
  · intro i i' k v k' v' h h' heq
    exact hinv.unique i i' k v k' v' ((hholds i k v).mp h).2 ((hholds i' k' v').mp h').2 heq
  · intro k v hkv i k' v' h
    obtain ⟨rfl, rfl⟩ := Prod.mk.inj (Option.some.inj hkv)
    obtain ⟨hne, h⟩ := (hholds i k' v').mp h
    by_contra heq
    rw [Bool.not_eq_false] at heq
    exact hne (hinv.unique j i key val k' v' htaken h heq).symm
  · exact fun i k v hb h => hinv.reached i k v hb ((hholds i k v).mp h).2
  · have hset := countP_mark hflag hlive
    have htotal := hinv.count
    show (st.flags.set j _).countP (!·.isEither) + st.newFlags.countP (!·.isEmpty) + 1 = total
    simp only [Option.toList_none, List.length_nil] at htotal
    omega

theorem freeBucket_ok {newFlags : List Flag} {k : Nat} (hk : k ≤ 31) (hlen : newFlags.length = 2 ^ k)
    {start s : Nat} (hs : s < 2 ^ k) (hfree : ¬ Busy newFlags (slot (2 ^ k) start s))
    (hbusy : ∀ t < s, Busy newFlags (slot (2 ^ k) start t)) {d t fuel : Nat} (ht : t + d = s)
    (hfuel : d < fuel) :
    freeBucket newFlags (2 ^ k - 1) fuel (slot (2 ^ k) start t) t = .ok (slot (2 ^ k) start s) := by
  have hpos : 0 < 2 ^ k := Nat.two_pow_pos k
  induction d generalizing t fuel with
  | zero =>
    obtain ⟨fuel, rfl⟩ := Nat.exists_eq_add_one.mpr hfuel
    obtain rfl : t = s := ht
    obtain ⟨flag, hflag⟩ : ∃ flag, newFlags[slot (2 ^ k) start t]? = some flag :=
      ⟨_, List.getElem?_eq_getElem (hlen ▸ slot_lt hpos t)⟩
    have hempty : flag.isEmpty = true := by
      by_contra hno
      exact hfree ⟨_, hflag, by simpa using hno⟩
    simp [freeBucket, flagAt, hflag, hempty, bind, Except.bind, pure, Except.pure]
  | succ d ih =>
    obtain ⟨fuel, rfl⟩ := Nat.exists_eq_add_one.mpr (Nat.lt_of_le_of_lt (Nat.zero_le _) hfuel)
    obtain ⟨flag, hflag, hempty⟩ := hbusy t (by omega)
    obtain ⟨hnext, hstep⟩ := nextBucket_slot hk start (s := t) (by omega)
    simp only [freeBucket, flagAt, hflag, hempty, bind, Except.bind, Bool.false_eq_true, if_false,
      hnext, hstep]
    exact ih (by omega) (by omega)

/-- The kick-out process ends: the hand is empty then, and no bucket is old that was not. -/
theorem kickOut_ok (hl : fns.Lawful) {k : Nat} (hk : k ≤ 31) (hm : m = 2 ^ k) (htotal : total ≤ m)
    {key : κ} {val : ν} (hinv : Inv fns n m entries total (some (key, val)) st) {fuel : Nat}
    (hfuel : st.flags.countP (!·.isEither) < fuel) :
    ∃ st', kickOut fns n m fuel key val st = .ok st' ∧ Inv fns n m entries total none st' ∧
      ∀ j, st'.Old j → st.Old j := by
  induction fuel generalizing st key val with
  | zero => omega
  | succ fuel ih =>
    have hcount := hinv.count
    simp only [Option.toList_some, List.length_singleton] at hcount
    obtain ⟨b, hb, hfree⟩ := exists_free st.newFlags (by
      rw [hinv.newFlags_length]
      omega)
    rw [hinv.newFlags_length, hm] at hb
    have hbusyDec : DecidablePred (Busy st.newFlags) := Classical.decPred _
    obtain ⟨s, hs, hfree, hbefore⟩ := exists_reached (fns.hashFunc key) _ hb hfree
    have hpos : 0 < 2 ^ k := Nat.two_pow_pos k
    have hi : slot (2 ^ k) (fns.hashFunc key) s < m := hm ▸ slot_lt hpos s
    have hwalk : freeBucket st.newFlags (m - 1) (2 * m) (u32 (fns.hashFunc key) &&& (m - 1)) 0 =
        .ok (slot (2 ^ k) (fns.hashFunc key) s) := by
      rw [hm, u32_and (by omega), ← slot_zero]
      exact freeBucket_ok hk (hinv.newFlags_length.trans hm) hs hfree hbefore (t := 0) (d := s)
        (by omega) (by omega)
    have hreached : Reached m (fns.hashFunc key) (Busy st.newFlags)
        (slot (2 ^ k) (fns.hashFunc key) s) := by
      rw [hm]
      exact ⟨s, hs, rfl, hbefore⟩
    generalize slot (2 ^ k) (fns.hashFunc key) s = i at hi hwalk hreached hfree
    have hnew : i < st.newFlags.length := by rwa [hinv.newFlags_length]
    have hkeys : i < st.keys.length := Nat.lt_of_lt_of_le hi hinv.keys_length.2
    have hvals : i < st.vals.length := hinv.vals_length ▸ Nat.lt_of_lt_of_le hi (Nat.le_max_right n m)
    have hflag : st.newFlags[i]? = some st.newFlags[i] := List.getElem?_eq_getElem hnew
    have hmark : ({ st.newFlags[i] with isEmpty := false } : Flag) = ⟨false, false⟩ :=
      Flag.mk.injEq .. ▸ ⟨rfl, hinv.plain i _ hflag⟩
    by_cases hold : st.Old i
    · have hkicked : st.kicks n i = .ok true := by
        rw [kicks_eq hinv.flags_length, decide_eq_true hold]
      obtain ⟨flag, hold, hlive⟩ := hold
      have hlt : i < st.flags.length := (List.getElem?_eq_some_iff.mp hold).1
      obtain ⟨tmpKey, tmpVal, hthere⟩ := hinv.stored i (Or.inl ⟨flag, hold, hlive⟩)
      have hset := countP_mark hold hlive
      have hplaced := hinv.place hl hi hreached
        (st.flags.set i { flag with isDel := true }) (some (tmpKey, tmpVal))
        (by simpa using hinv.flags_length) (old_set _ _ hlt rfl _ _ _) hset hfree (by
          intro k' v'
          constructor
          · intro heq
            obtain ⟨rfl, rfl⟩ := Prod.mk.inj (Option.some.inj heq)
            exact hthere
          · intro h
            have hk := hthere.2.1.symm.trans h.2.1
            have hv := hthere.2.2.symm.trans h.2.2
            simp only [Option.some.injEq] at hk hv
            rw [hk, hv])
      obtain ⟨st', hrun, hinv', hsub⟩ := ih hplaced (by
        show (st.flags.set i _).countP (!·.isEither) < fuel
        omega)
      refine ⟨st', ?_, hinv', fun j hj => ?_⟩
      · simp only [kickOut, hwalk, flagAt, hflag, hkicked, hold, hmark, peek, poke, hthere.2.1,
          hthere.2.2, hkeys, hvals, bind, Except.bind, if_true]
        exact hrun
      · exact ((old_set _ _ hlt rfl _ _ _ j).mp (hsub j hj)).1
    · have hno : ∀ k' v', ¬ st.Holds i k' v' := fun k' v' h => h.1.elim hold hfree
      have hplaced := hinv.place hl hi hreached st.flags none
        hinv.flags_length (fun j => (and_iff_left_of_imp (by rintro h rfl; exact hold h)).symm)
        (by simp) hfree (by simpa using hno)
      refine ⟨_, ?_, hplaced, fun j hj => hj⟩
      have hkicked : st.kicks n i = .ok false := by
        rw [kicks_eq hinv.flags_length, decide_eq_false hold]
      simp only [kickOut, hwalk, flagAt, hflag, hmark, poke, hkeys, hvals, bind, Except.bind, hkicked,
        pure, Except.pure, if_true, Bool.false_eq_true, if_false]

/-- One bucket of the old table: it is not old any more. -/
theorem rehashBucket_ok (hl : fns.Lawful) {k : Nat} (hk : k ≤ 31) (hm : m = 2 ^ k) (htotal : total ≤ m)
    (hinv : Inv fns n m entries total none st) {j : Nat} (hj : j < n) :
    ∃ st', rehashBucket fns n m st j = .ok st' ∧ Inv fns n m entries total none st' ∧
      ∀ i, st'.Old i → st.Old i ∧ i ≠ j := by
  obtain ⟨flag, hflag⟩ : ∃ flag, st.flags[j]? = some flag :=
    ⟨_, List.getElem?_eq_getElem (hinv.flags_length.symm ▸ hj)⟩
  cases hlive : flag.isEither with
  | true =>
    refine ⟨st, ?_, hinv, fun i hi => ⟨hi, ?_⟩⟩
    · simp [rehashBucket, flagAt, hflag, hlive, bind, Except.bind, pure, Except.pure]
    · rintro rfl
      obtain ⟨flag', hflag', hlive'⟩ := hi
      rw [hflag, Option.some.injEq] at hflag'
      simp [← hflag', hlive] at hlive'
  | false =>
    obtain ⟨key, val, -, hkey, hval⟩ := hinv.stored j (Or.inl ⟨flag, hflag, hlive⟩)
    have htaken := hinv.take hflag hlive hkey hval
    have hlt : j < st.flags.length := (List.getElem?_eq_some_iff.mp hflag).1
    have hfuel : (st.flags.set j { flag with isDel := true }).countP (!·.isEither) < n + 1 := by
      have := List.countP_le_length (p := (!·.isEither)) (l := st.flags.set j { flag with isDel := true })
      rw [List.length_set, hinv.flags_length] at this
      omega
    obtain ⟨st', hrun, hinv', hsub⟩ := kickOut_ok hl hk hm htotal htaken hfuel
    refine ⟨st', ?_, hinv', fun i hi => (old_set _ _ hlt rfl _ _ _ i).mp (hsub i hi)⟩
    simp only [rehashBucket, flagAt, hflag, hlive, peek, hkey, hval, bind, Except.bind,
      Bool.false_eq_true, if_false]
    exact hrun

theorem rehashBuckets_ok (hl : fns.Lawful) {k : Nat} (hk : k ≤ 31) (hm : m = 2 ^ k)
    (htotal : total ≤ m) (hinv : Inv fns n m entries total none st) (js : List Nat)
    (hjs : ∀ j ∈ js, j < n) :
    ∃ st', js.foldlM (rehashBucket fns n m) st = .ok st' ∧ Inv fns n m entries total none st' ∧
      ∀ i, st'.Old i → st.Old i ∧ i ∉ js := by
  induction js generalizing st with
  | nil => exact ⟨st, rfl, hinv, fun i hi => ⟨hi, List.not_mem_nil⟩⟩
  | cons j js ih =>
    rw [List.forall_mem_cons] at hjs
    obtain ⟨st₁, hone, hinv₁, hsub₁⟩ := rehashBucket_ok hl hk hm htotal hinv hjs.1
    obtain ⟨st₂, hrest, hinv₂, hsub₂⟩ := ih hinv₁ hjs.2
    refine ⟨st₂, ?_, hinv₂, fun i hi => ?_⟩
    · rw [List.foldlM_cons, hone]
      exact hrest
    · obtain ⟨hi₁, hnot⟩ := hsub₂ i hi
      obtain ⟨hi, hne⟩ := hsub₁ i hi₁
      exact ⟨hi, List.not_mem_cons_of_ne_of_not_mem hne hnot⟩

end Rehash

/-! ## The new table -/

section Table

variable {fns : KeyFns κ} {h h' : Khash κ ν}

/-- The entries of a table, under the very keys they were put with. -/
def Has (h : Khash κ ν) (key : κ) (val : ν) : Prop :=
  ∃ i : Nat, h.Used i key ∧ h.vals[i]? = some (some val)

theorem entry_iff_has (key : κ) (val : ν) :
    h.Entry fns key val ↔ ∃ k, h.Has k val ∧ fns.hashEqual k key = true := by
  constructor
  · intro he
    obtain ⟨i, k, hu, heq, hv⟩ := he
    exact ⟨k, ⟨i, hu, hv⟩, heq⟩
  · intro he
    obtain ⟨k, ⟨i, hu, hv⟩, heq⟩ := he
    exact ⟨i, k, hu, heq, hv⟩

theorem flag_eq_of_not_either {flag : Flag} (hlive : flag.isEither = false) : flag = ⟨false, false⟩ := by
  obtain ⟨isEmpty, isDel⟩ := flag
  simpa [Flag.isEither] using hlive

/-- The rehash starts with all entries in the old buckets. -/
theorem Wf.start (hw : h.Wf fns) {m : Nat} {keys : List (Option κ)} {vals : List (Option ν)}
    (hkeys : h.nBuckets ≤ keys.length ∧ m ≤ keys.length)
    (hvals : vals.length = max h.nBuckets m)
    (hkeysEq : ∀ i < h.nBuckets, keys[i]? = h.keys[i]?)
    (hvalsEq : ∀ i < h.nBuckets, vals[i]? = h.vals[i]?) :
    Rehash.Inv fns h.nBuckets m h.Has h.size none ⟨h.flags, List.replicate m .initial, keys, vals⟩ := by
  have hfree (i : Nat) : ¬ Busy (List.replicate m Flag.initial) i := by
    rintro ⟨flag, hflag, hempty⟩
    rw [List.getElem?_replicate] at hflag
    split at hflag
    · rw [← Option.some.inj hflag] at hempty
      simp [Flag.initial] at hempty
    · simp at hflag
  have hlt {i : Nat} {flag : Flag} (hflag : h.flags[i]? = some flag) : i < h.nBuckets :=
    hw.flags_length ▸ (List.getElem?_eq_some_iff.mp hflag).1
  have hused (i : Nat) (key : κ) (val : ν) :
      (⟨h.flags, List.replicate m .initial, keys, vals⟩ : Rehash κ ν).Holds i key val ↔
        h.Used i key ∧ h.vals[i]? = some (some val) := by
    constructor
    · intro hh
      obtain ⟨hold | hnew, hkey, hval⟩ := hh
      · obtain ⟨flag, hflag, hlive⟩ := hold
        have hi := hlt hflag
        rw [flag_eq_of_not_either hlive] at hflag
        exact ⟨⟨hflag, hkeysEq i hi ▸ hkey⟩, hvalsEq i hi ▸ hval⟩
      · exact absurd hnew (hfree i)
    · intro hh
      have hi := hlt hh.1.1
      exact ⟨Or.inl ⟨_, hh.1.1, rfl⟩, (hkeysEq i hi).trans hh.1.2, (hvalsEq i hi).trans hh.2⟩
  constructor
  · exact hw.flags_length
  · simp
  · exact hkeys
  · exact hvals
  · intro i flag hflag
    simp only [List.getElem?_replicate] at hflag
    split at hflag
    · rw [← Option.some.inj hflag]
      rfl
    · simp at hflag
  · exact fun i _ => hfree i
  · intro i hi
    obtain ⟨flag, hflag, hlive⟩ := hi.resolve_right (hfree i)
    rw [flag_eq_of_not_either hlive] at hflag
    obtain ⟨key, val, hkey, hval⟩ := hw.stored i hflag
    exact ⟨key, val, (hused i key val).mpr ⟨⟨hflag, hkey⟩, hval⟩⟩
  · intro key val
    simp only [reduceCtorEq, false_or, hused]
    rfl
  · intro i j key val key' val' hi hj heq
    exact hw.unique i j key key' ((hused i key val).mp hi).1 ((hused j key' val').mp hj).1 heq
  · simp
  · exact fun i _ _ hb _ => absurd hb (hfree i)
  · have hnone : (List.replicate m Flag.initial).countP (!·.isEmpty) = 0 := by
      rw [List.countP_eq_zero]
      intro flag hflag
      rw [List.eq_of_mem_replicate hflag]
      simp [Flag.initial]
    simp only [hnone, Option.toList_none, List.length_nil, Nat.add_zero]
    exact hw.size_eq.symm

/-- When no bucket is old any more the new arrays are a table with the same entries. -/
theorem Rehash.Inv.wf {n m k : Nat} {entries : κ → ν → Prop} {total : Nat} {st : Rehash κ ν}
    (hinv : Rehash.Inv fns n m entries total none st) (hdone : ∀ i, ¬ st.Old i) (hk : 2 ≤ k)
    (hk' : k ≤ 31) (hm : m = 2 ^ k) (hbound : total ≤ hashUpper m) (keys : List (Option κ))
    (vals : List (Option ν)) (hkeys : m ≤ keys.length) (hvals : vals.length = m)
    (hkeysEq : ∀ i < m, keys[i]? = st.keys[i]?) (hvalsEq : ∀ i < m, vals[i]? = st.vals[i]?) :
    (⟨m, total, total, hashUpper m, st.newFlags, keys, vals⟩ : Khash κ ν).Wf fns ∧
      ∀ key val, (⟨m, total, total, hashUpper m, st.newFlags, keys, vals⟩ : Khash κ ν).Has key val ↔
        entries key val := by
  have hlt {i : Nat} {flag : Flag} (hflag : st.newFlags[i]? = some flag) : i < m :=
    hinv.newFlags_length ▸ (List.getElem?_eq_some_iff.mp hflag).1
  have hholds {i : Nat} {key : κ} {val : ν} (hflag : st.newFlags[i]? = some ⟨false, false⟩)
      (hkey : keys[i]? = some (some key)) (hval : vals[i]? = some (some val)) : st.Holds i key val :=
    ⟨Or.inr ⟨_, hflag, rfl⟩, hkeysEq i (hlt hflag) ▸ hkey, hvalsEq i (hlt hflag) ▸ hval⟩
  have hstored (i : Nat) (hflag : st.newFlags[i]? = some ⟨false, false⟩) :
      ∃ key val, keys[i]? = some (some key) ∧ vals[i]? = some (some val) := by
    obtain ⟨key, val, -, hkey, hval⟩ := hinv.stored i (Or.inr ⟨_, hflag, rfl⟩)
    exact ⟨key, val, hkeysEq i (hlt hflag) ▸ hkey, hvalsEq i (hlt hflag) ▸ hval⟩
  have hnoOld : st.flags.countP (!·.isEither) = 0 := by
    rw [List.countP_eq_zero]
    intro flag hmem hlive
    obtain ⟨i, hi, hget⟩ := List.mem_iff_getElem.mp hmem
    exact hdone i ⟨flag, hget ▸ List.getElem?_eq_getElem hi, by simpa using hlive⟩
  have hcount : st.newFlags.countP (!·.isEmpty) = total := by
    have := hinv.count
    simp only [hnoOld, Option.toList_none, List.length_nil] at this
    omega
  refine ⟨?_, ?_⟩
  · constructor
    · exact Or.inr ⟨k, hk, hk', hm⟩
    · exact hinv.newFlags_length
    · exact hkeys
    · exact hvals
    · exact hstored
    · intro i key hu
      obtain ⟨key', val, hkey, hval⟩ := hstored i hu.1
      have hsame : key' = key := by simpa [hu.2] using hkey.symm
      subst hsame
      exact hinv.reached i key' val ⟨_, hu.1, rfl⟩ (hholds hu.1 hkey hval)
    · intro i j key key' hi hj heq
      obtain ⟨_, val, -, hval⟩ := hstored i hi.1
      obtain ⟨_, val', -, hval'⟩ := hstored j hj.1
      exact hinv.unique i j key val key' val' (hholds hi.1 hi.2 hval) (hholds hj.1 hj.2 hval') heq
    · show total = st.newFlags.countP (!·.isEither)
      rw [← hcount]
      apply List.countP_congr
      intro flag hmem
      obtain ⟨i, hi, hget⟩ := List.mem_iff_getElem.mp hmem
      have hplain := hinv.plain i flag (hget ▸ List.getElem?_eq_getElem hi)
      simp [Flag.isEither, hplain]
    · exact hcount.symm
    · rfl
    · exact hbound
  · intro key val
    rw [hinv.items]
    simp only [reduceCtorEq, false_or]
    constructor
    · intro hh
      obtain ⟨i, hu, hv⟩ := hh
      exact ⟨i, hholds hu.1 hu.2 hv⟩
    · intro hh
      obtain ⟨i, hnew, hkey, hval⟩ := hh
      obtain ⟨flag, hflag, hempty⟩ := hnew.resolve_left (hdone i)
      have hplain := hinv.plain i flag hflag
      have hi := hlt hflag
      refine ⟨i, ⟨?_, (hkeysEq i hi).trans hkey⟩, (hvalsEq i hi).trans hval⟩
      rw [show (⟨false, false⟩ : Flag) = flag by cases flag; simp_all]
      exact hflag

end Table

end Khash

end LiteHttp
