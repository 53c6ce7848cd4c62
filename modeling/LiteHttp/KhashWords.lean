import LiteHttp.KhashFlags
import LiteHttp.KhashMap

/-!
# khash.h over its flag words

The functions of khash.h once more, with the flags in the words they are in. Every
access a function makes is one the functions over a list of flags make, so a run of
the table in its words goes where the run over flags goes, inside the words there are.
-/

namespace LiteHttp

open Run Simulate

set_option autoImplicit false

/-- `kh_##name##_t`. -/
structure WordKhash (κ ν : Type) where
  nBuckets : Nat
  size : Nat
  nOccupied : Nat
  upperBound : Nat
  flags : List (BitVec 32)
  keys : List (Option κ)
  vals : List (Option ν)
  deriving DecidableEq, Repr

namespace WordKhash

variable {κ ν : Type}

/-- `kh_init`. -/
def init : WordKhash κ ν := ⟨0, 0, 0, 0, [], [], []⟩

/-- The condition of the loops of `kh_get` and `kh_put`. -/
def skips (fns : KeyFns κ) (h : WordKhash κ ν) (key : κ) (i : Nat) : Except Fault Bool := do
  if ← acIsempty h.flags i then return false
  else if ← acIsdel h.flags i then return true
  else
    let k ← peek h.keys i
    return !fns.hashEqual k key

/-- The loop of `kh_get` and its `return`. -/
def getLoop (fns : KeyFns κ) (h : WordKhash κ ν) (key : κ) (last : Nat) :
    Nat → Nat → Nat → Except Fault Nat
  | 0, _, _ => .error .diverges
  | fuel + 1, i, step => do
    if ← h.skips fns key i then
      let i := Khash.nextBucket (h.nBuckets - 1) i step
      if i = last then return h.nBuckets
      else getLoop fns h key last fuel i (u32 (step + 1))
    else return if ← acIseither h.flags i then h.nBuckets else i

/-- `kh_get`. -/
def get (fns : KeyFns κ) (h : WordKhash κ ν) (key : κ) : Except Fault Nat :=
  if h.nBuckets ≠ 0 then
    let i := u32 (fns.hashFunc key) &&& (h.nBuckets - 1)
    getLoop fns h key i (2 * h.nBuckets) i 0
  else .ok 0

/-- What the rehash of `kh_resize` works on. -/
structure Rehash (κ ν : Type) where
  flags : List (BitVec 32)
  newFlags : List (BitVec 32)
  keys : List (Option κ)
  vals : List (Option ν)
  deriving DecidableEq, Repr

/-- The loop to the first bucket that is still empty in the new flags. -/
def freeBucket (newFlags : List (BitVec 32)) (mask : Nat) : Nat → Nat → Nat → Except Fault Nat
  | 0, _, _ => .error .diverges
  | fuel + 1, i, step => do
    if ← acIsempty newFlags i then return i
    else freeBucket newFlags mask fuel (Khash.nextBucket mask i step) (u32 (step + 1))

/-- The old table still has an entry where one is to be put. -/
def Rehash.kicks (nBuckets : Nat) (st : Rehash κ ν) (i : Nat) : Except Fault Bool :=
  if i < nBuckets then do return !(← acIseither st.flags i) else .ok false

/-- The kick-out process. -/
def kickOut (fns : KeyFns κ) (nBuckets newBuckets : Nat) :
    Nat → κ → ν → Rehash κ ν → Except Fault (Rehash κ ν)
  | 0, _, _, _ => .error .diverges
  | fuel + 1, key, val, st => do
    let start := u32 (fns.hashFunc key) &&& (newBuckets - 1)
    let i ← freeBucket st.newFlags (newBuckets - 1) (2 * newBuckets) start 0
    let newFlags ← acSetIsemptyFalse st.newFlags i
    if ← st.kicks nBuckets i then
      let tmpKey ← peek st.keys i
      let keys ← poke st.keys i key
      let tmpVal ← peek st.vals i
      let vals ← poke st.vals i val
      let flags ← acSetIsdelTrue st.flags i
      kickOut fns nBuckets newBuckets fuel tmpKey tmpVal ⟨flags, newFlags, keys, vals⟩
    else
      let keys ← poke st.keys i key
      let vals ← poke st.vals i val
      return ⟨st.flags, newFlags, keys, vals⟩

/-- One turn of the rehash, for bucket `j` of the old table. -/
def rehashBucket (fns : KeyFns κ) (nBuckets newBuckets : Nat) (st : Rehash κ ν) (j : Nat) :
    Except Fault (Rehash κ ν) := do
  if ← acIseither st.flags j then return st
  else
    let key ← peek st.keys j
    let val ← peek st.vals j
    let flags ← acSetIsdelTrue st.flags j
    kickOut fns nBuckets newBuckets (nBuckets + 1) key val { st with flags := flags }

/-- The rehash of all buckets, and the new table. -/
def rehash (fns : KeyFns κ) (alloc : ResizeAlloc) (h : WordKhash κ ν) (newBuckets : Nat)
    (keys : List (Option κ)) (vals : List (Option ν)) : Except Fault (WordKhash κ ν) := do
  let start : Rehash κ ν := ⟨h.flags, acFlags newBuckets, keys, vals⟩
  let st ← (List.range h.nBuckets).foldlM (rehashBucket fns h.nBuckets newBuckets) start
  let shrinks := newBuckets < h.nBuckets
  return {
    nBuckets := newBuckets
    size := h.size
    nOccupied := h.size
    upperBound := hashUpper newBuckets
    flags := st.newFlags
    keys := if shrinks then if alloc.keysOk then krealloc st.keys newBuckets else [] else st.keys
    vals := if shrinks then if alloc.valsOk then krealloc st.vals newBuckets else [] else st.vals }

/-- `kh_resize`. -/
def resize (fns : KeyFns κ) (alloc : ResizeAlloc) (h : WordKhash κ ν) (newBuckets : Nat) :
    Except Fault (Int × WordKhash κ ν) :=
  let newBuckets := Khash.resizeTo newBuckets
  if hashUpper newBuckets ≤ h.size then .ok (0, h)
  else if !alloc.flagsOk then .ok (-1, h)
  else if h.nBuckets < newBuckets then
    if !alloc.keysOk then .ok (-1, h)
    else if !alloc.valsOk then .ok (-1, { h with keys := krealloc h.keys newBuckets })
    else do
      let h ← rehash fns alloc h newBuckets (krealloc h.keys newBuckets) (krealloc h.vals newBuckets)
      return (0, h)
  else do
    let h ← rehash fns alloc h newBuckets h.keys h.vals
    return (0, h)

/-- The loop of `kh_put`, with the bucket it stops at, `site` and `x`. -/
def putLoop (fns : KeyFns κ) (h : WordKhash κ ν) (key : κ) (last : Nat) :
    Nat → Nat → Nat → Nat → Except Fault (Nat × Nat × Nat)
  | 0, _, _, _ => .error .diverges
  | fuel + 1, i, step, site => do
    if ← h.skips fns key i then
      let site := if ← acIsdel h.flags i then i else site
      let i := Khash.nextBucket (h.nBuckets - 1) i step
      if i = last then return (i, site, site)
      else putLoop fns h key last fuel i (u32 (step + 1)) site
    else return (i, site, h.nBuckets)

/-- The bucket `kh_put` puts a key into. -/
def putBucket (fns : KeyFns κ) (h : WordKhash κ ν) (key : κ) : Except Fault Nat := do
  let i := u32 (fns.hashFunc key) &&& (h.nBuckets - 1)
  if ← acIsempty h.flags i then return i
  else
    let (i, site, x) ← putLoop fns h key i (2 * h.nBuckets) i 0 h.nBuckets
    if x = h.nBuckets then
      return if (← acIsempty h.flags i) ∧ site ≠ h.nBuckets then site else i
    else return x

/-- What `kh_put` does with the bucket: its `*ret` and the table. -/
def putAt (h : WordKhash κ ν) (key : κ) (x : Nat) : Except Fault (Nat × Int × WordKhash κ ν) := do
  if ← acIsempty h.flags x then
    let keys ← poke h.keys x key
    let flags ← acSetIsbothFalse h.flags x
    return (x, 1, { h with
      keys := keys
      flags := flags
      size := u32 (h.size + 1)
      nOccupied := u32 (h.nOccupied + 1) })
  else if ← acIsdel h.flags x then
    let keys ← poke h.keys x key
    let flags ← acSetIsbothFalse h.flags x
    return (x, 2, { h with
      keys := keys
      flags := flags
      size := u32 (h.size + 1) })
  else return (x, 0, h)

/-- How `kh_put` begins. -/
def makeRoom (fns : KeyFns κ) (alloc : ResizeAlloc) (h : WordKhash κ ν) :
    Except Fault (Int × WordKhash κ ν) :=
  if h.upperBound ≤ h.nOccupied then
    if u32 (h.size <<< 1) < h.nBuckets then h.resize fns alloc (u32 (h.nBuckets + (2 ^ 32 - 1)))
    else h.resize fns alloc (u32 (h.nBuckets + 1))
  else .ok (0, h)

/-- `kh_put`: the bucket, `*ret` and the table. -/
def put (fns : KeyFns κ) (alloc : ResizeAlloc) (h : WordKhash κ ν) (key : κ) :
    Except Fault (Nat × Int × WordKhash κ ν) := do
  let (ret, h) ← h.makeRoom fns alloc
  if ret < 0 then return (h.nBuckets, -1, h)
  else
    let x ← h.putBucket fns key
    h.putAt key x

/-- `kh_del`. -/
def del (h : WordKhash κ ν) (x : Nat) : Except Fault (WordKhash κ ν) :=
  if x ≠ h.nBuckets then do
    if ← acIseither h.flags x then return h
    else
      let flags ← acSetIsdelTrue h.flags x
      return { h with
        flags := flags
        size := u32 (h.size + (2 ^ 32 - 1)) }
  else .ok h

/-- `kh_value(h, x)` as it is read and as it is written. -/
def value (h : WordKhash κ ν) (x : Nat) : Except Fault ν := peek h.vals x

def setValue (h : WordKhash κ ν) (x : Nat) (val : ν) : Except Fault (WordKhash κ ν) := do
  let vals ← poke h.vals x val
  return { h with vals := vals }

/-- `kh_put`, and `kh_value(h, x) = val` unless it failed. -/
def assign (fns : KeyFns κ) (alloc : ResizeAlloc) (h : WordKhash κ ν) (key : κ) (val : ν) :
    Except Fault (Int × WordKhash κ ν) := do
  let (x, ret, h) ← h.put fns alloc key
  if ret = -1 then return (ret, h)
  else
    let h ← h.setValue x val
    return (ret, h)

/-- `kh_del` of the bucket `kh_get` gives. -/
def remove (fns : KeyFns κ) (h : WordKhash κ ν) (key : κ) : Except Fault (WordKhash κ ν) := do
  let x ← h.get fns key
  h.del x

/-- `kh_get`, and `kh_value` unless it gives the end of the table. -/
def lookup (fns : KeyFns κ) (h : WordKhash κ ν) (key : κ) : Except Fault (Option ν) := do
  let x ← h.get fns key
  if x = h.nBuckets then return none
  else
    let val ← h.value x
    return some val

/-- The operation on the table, with the `*ret` of a put. -/
def run (fns : KeyFns κ) (h : WordKhash κ ν) : TableOp κ ν → Except Fault (Int × WordKhash κ ν)
  | .put key val alloc => h.assign fns alloc key val
  | .del key => do
    let h ← h.remove fns key
    return (0, h)

/-! ## The words refine the flags -/

/-- The table over a list of flags in place of its words. -/
def withFlags (h : WordKhash κ ν) (flags : List Flag) : Khash κ ν :=
  ⟨h.nBuckets, h.size, h.nOccupied, h.upperBound, flags, h.keys, h.vals⟩

/-- The table of words is the table of flags, packed. -/
def Stores (w : WordKhash κ ν) (h : Khash κ ν) : Prop :=
  ∃ flags, Packs w.flags flags ∧ h = w.withFlags flags

variable {fns : KeyFns κ} {w : WordKhash κ ν} {h : Khash κ ν} {words : List (BitVec 32)}
variable {flags : List Flag}

/-- A flag that can be read is there. -/
theorem refines_flag {α β : Type} {S : α → β → Prop} {x : Except Fault α} {i : Nat}
    {g : Flag → Except Fault β} (hg : ∀ flag, flags[i]? = some flag → Refines S x (g flag)) :
    Refines S x (flagAt flags i >>= g) := by
  unfold flagAt
  cases hi : flags[i]? with
  | none => exact refines_error
  | some flag => exact hg flag hi

theorem refines_skips (hp : Packs w.flags flags) (key : κ) (i : Nat) :
    Refines Eq (w.skips fns key i) ((w.withFlags flags).skips fns key i) := by
  apply refines_flag
  intro flag hi
  unfold skips
  rw [hp.isempty hi, hp.isdel hi]
  simp only [bind, Except.bind]
  exact refines_refl _

theorem refines_getLoop (hp : Packs w.flags flags) (key : κ) (last fuel : Nat) (i step : Nat) :
    Refines Eq (getLoop fns w key last fuel i step)
      (Khash.getLoop fns (w.withFlags flags) key last fuel i step) := by
  induction fuel generalizing i step with
  | zero => exact refines_error
  | succ fuel ih =>
    unfold getLoop Khash.getLoop
    apply (refines_skips hp key i).bind
    intro go go' hgo
    subst hgo
    cases go with
    | true =>
      simp only [if_true]
      exact refines_ite Iff.rfl (refines_refl _) (ih _ _)
    | false =>
      apply refines_flag
      intro flag hi
      rw [hp.iseither hi]
      exact refines_refl _

theorem refines_get (hs : Stores w h) (key : κ) : Refines Eq (w.get fns key) (h.get fns key) := by
  obtain ⟨flags, hp, rfl⟩ := hs
  exact refines_ite Iff.rfl (refines_getLoop hp key _ _ _ _) (refines_refl _)

theorem refines_freeBucket (hp : Packs words flags) (mask fuel : Nat) (i step : Nat) :
    Refines Eq (freeBucket words mask fuel i step) (Khash.freeBucket flags mask fuel i step) := by
  induction fuel generalizing i step with
  | zero => exact refines_error
  | succ fuel ih =>
    apply refines_flag
    intro flag hi
    unfold freeBucket
    rw [hp.isempty hi]
    exact refines_ite Iff.rfl (refines_refl _) (ih _ _)

/-- What the rehash works on, in words and in flags. -/
def Rehash.Stores (st : Rehash κ ν) (st' : Khash.Rehash κ ν) : Prop :=
  Packs st.flags st'.flags ∧ Packs st.newFlags st'.newFlags ∧ st.keys = st'.keys ∧
    st.vals = st'.vals

theorem refines_kicks {st : Rehash κ ν} {st' : Khash.Rehash κ ν} (hs : st.Stores st')
    (nBuckets i : Nat) : Refines Eq (st.kicks nBuckets i) (st'.kicks nBuckets i) := by
  apply refines_ite Iff.rfl
  · apply refines_flag
    intro flag hi
    rw [hs.1.iseither hi]
    exact refines_refl _
  · exact refines_refl _

theorem refines_kickOut (nBuckets newBuckets fuel : Nat) (key : κ) (val : ν) {st : Rehash κ ν}
    {st' : Khash.Rehash κ ν} (hs : st.Stores st') :
    Refines Rehash.Stores (kickOut fns nBuckets newBuckets fuel key val st)
      (Khash.kickOut fns nBuckets newBuckets fuel key val st') := by
  induction fuel generalizing key val st st' with
  | zero => exact refines_error
  | succ fuel ih =>
    have hkicks := refines_kicks hs
    obtain ⟨hold, hnew, hkeys, hvals⟩ := hs
    unfold kickOut Khash.kickOut
    apply (refines_freeBucket hnew _ _ _ _).bind
    intro i i' hi
    subst hi
    apply refines_flag
    intro newFlag hnewFlag
    obtain ⟨newWords, hset, hnew'⟩ := hnew.setIsemptyFalse hnewFlag
    rw [hset]
    apply (hkicks nBuckets i).bind
    intro kick kick' hkick
    subst hkick
    rw [hkeys, hvals]
    cases kick with
    | true =>
      simp only [if_true]
      apply refines_flag
      intro flag hflag
      obtain ⟨oldWords, hdel, hold'⟩ := hold.setIsdelTrue hflag
      rw [hdel]
      apply refines_bind_same
      intro tmpKey
      apply refines_bind_same
      intro keys
      apply refines_bind_same
      intro tmpVal
      apply refines_bind_same
      intro vals
      exact ih tmpKey tmpVal ⟨hold', hnew', rfl, rfl⟩
    | false =>
      simp only [Bool.false_eq_true, if_false]
      apply refines_bind_same
      intro keys
      apply refines_bind_same
      intro vals
      exact refines_ok ⟨hold, hnew', rfl, rfl⟩

theorem refines_rehashBucket (nBuckets newBuckets : Nat) (st : Rehash κ ν) (st' : Khash.Rehash κ ν)
    (j : Nat) (hs : st.Stores st') :
    Refines Rehash.Stores (rehashBucket fns nBuckets newBuckets st j)
      (Khash.rehashBucket fns nBuckets newBuckets st' j) := by
  apply refines_flag
  intro flag hflag
  unfold rehashBucket
  rw [hs.1.iseither hflag]
  apply refines_ite Iff.rfl
  · exact refines_ok hs
  · obtain ⟨hold, hnew, hkeys, hvals⟩ := hs
    obtain ⟨words, hdel, hold'⟩ := hold.setIsdelTrue hflag
    rw [hdel, hkeys, hvals]
    apply refines_bind_same
    intro key
    apply refines_bind_same
    intro val
    exact refines_kickOut nBuckets newBuckets _ key val ⟨hold', hnew, rfl, rfl⟩

theorem u32_lt (n : Nat) : u32 n < 2 ^ 32 := Nat.mod_lt n (Nat.pow_pos Nat.two_pos)

/-- The new size is a power of two for any argument, also where the rounding overflows. -/
theorem resizeTo_isPow (newBuckets : Nat) : ∃ k, Khash.resizeTo newBuckets = 2 ^ k := by
  have hfour {n : Nat} (hn : n < 4) : ∃ k, (if n < 4 then 4 else n) = 2 ^ k :=
    ⟨2, if_pos hn⟩
  have hlt := u32_lt (newBuckets + (2 ^ 32 - 1))
  rw [Khash.resizeTo, kroundup32]
  generalize u32 (newBuckets + (2 ^ 32 - 1)) = x at hlt
  by_cases hzero : x = 0
  · apply hfour
    rw [hzero]
    simp [smear, u32]
  · rw [smear_eq hzero hlt, Nat.sub_add_cancel Nat.one_le_two_pow]
    have hlog : x.log2 + 1 ≤ 32 := (Nat.log2_lt hzero).mpr hlt
    rcases Nat.lt_or_eq_of_le hlog with hlog | hlog
    · have hpow : 2 ^ (x.log2 + 1) < 2 ^ 32 := Nat.pow_lt_pow_right (by decide) hlog
      rw [u32, Nat.mod_eq_of_lt hpow]
      split
      · exact ⟨2, rfl⟩
      · exact ⟨_, rfl⟩
    · apply hfour
      rw [hlog, u32, Nat.mod_self]
      decide

theorem refines_rehash (alloc : ResizeAlloc) (hp : Packs w.flags flags) {newBuckets : Nat}
    (hpow : ∃ k, newBuckets = 2 ^ k) (keys : List (Option κ)) (vals : List (Option ν)) :
    Refines Stores (w.rehash fns alloc newBuckets keys vals)
      ((w.withFlags flags).rehash fns alloc newBuckets keys vals) := by
  obtain ⟨k, rfl⟩ := hpow
  apply (refines_foldlM (R := Rehash.Stores) (refines_rehashBucket _ _) _
    ⟨hp, packs_acFlags k, rfl, rfl⟩).bind
  intro st st' hst
  obtain ⟨-, hnew, hkeys, hvals⟩ := hst
  apply refines_ok
  rw [hkeys, hvals]
  exact ⟨st'.newFlags, hnew, rfl⟩

/-- Two answers that agree, with tables that do. -/
def SameTable {α : Type} (p : α × WordKhash κ ν) (q : α × Khash κ ν) : Prop :=
  p.1 = q.1 ∧ Stores p.2 q.2

theorem refines_resize (alloc : ResizeAlloc) (hs : Stores w h) (newBuckets : Nat) :
    Refines SameTable (w.resize fns alloc newBuckets) (h.resize fns alloc newBuckets) := by
  obtain ⟨flags, hp, rfl⟩ := hs
  have hpow := resizeTo_isPow newBuckets
  unfold resize Khash.resize
  simp only
  generalize Khash.resizeTo newBuckets = n at hpow ⊢
  apply refines_ite Iff.rfl
  · exact refines_ok ⟨rfl, flags, hp, rfl⟩
  · apply refines_ite Iff.rfl
    · exact refines_ok ⟨rfl, flags, hp, rfl⟩
    · apply refines_ite Iff.rfl
      · apply refines_ite Iff.rfl
        · exact refines_ok ⟨rfl, flags, hp, rfl⟩
        · apply refines_ite Iff.rfl
          · have hkeys : Stores { w with keys := krealloc w.keys n }
                { w.withFlags flags with keys := krealloc w.keys n } := ⟨flags, hp, rfl⟩
            exact refines_ok ⟨rfl, hkeys⟩
          · apply (refines_rehash alloc hp hpow _ _).bind
            intro w' h' hs'
            exact refines_ok ⟨rfl, hs'⟩
      · apply (refines_rehash alloc hp hpow _ _).bind
        intro w' h' hs'
        exact refines_ok ⟨rfl, hs'⟩

theorem refines_putLoop (hp : Packs w.flags flags) (key : κ) (last fuel : Nat)
    (i step site : Nat) : Refines Eq (putLoop fns w key last fuel i step site)
      (Khash.putLoop fns (w.withFlags flags) key last fuel i step site) := by
  induction fuel generalizing i step site with
  | zero => exact refines_error
  | succ fuel ih =>
    unfold putLoop Khash.putLoop
    apply (refines_skips hp key i).bind
    intro go go' hgo
    subst hgo
    cases go with
    | true =>
      simp only [if_true]
      apply refines_flag
      intro flag hi
      rw [hp.isdel hi]
      exact refines_ite Iff.rfl (refines_refl _) (ih _ _ _)
    | false => exact refines_refl _

theorem refines_putBucket (hp : Packs w.flags flags) (key : κ) :
    Refines Eq (w.putBucket fns key) ((w.withFlags flags).putBucket fns key) := by
  apply refines_flag
  intro flag hi
  have htest : acIsempty w.flags (u32 (fns.hashFunc key) &&& (w.nBuckets - 1)) = .ok flag.isEmpty :=
    hp.isempty hi
  unfold putBucket
  simp only
  rw [htest]
  apply refines_ite Iff.rfl
  · exact refines_refl _
  · apply (refines_putLoop hp key _ _ _ _ _).bind
    intro r r' hr
    subst hr
    obtain ⟨i, site, x⟩ := r
    apply refines_ite Iff.rfl
    · apply refines_flag
      intro flag hi
      rw [hp.isempty hi]
      exact refines_refl _
    · exact refines_refl _

theorem refines_putAt (hp : Packs w.flags flags) (key : κ) (x : Nat) :
    Refines (fun p q => p.1 = q.1 ∧ SameTable p.2 q.2) (w.putAt key x)
      ((w.withFlags flags).putAt key x) := by
  apply refines_flag
  intro flag hi
  obtain ⟨words, hset, hp'⟩ := hp.setIsbothFalse hi
  unfold putAt
  rw [hp.isempty hi, hset]
  apply refines_ite Iff.rfl
  · apply refines_bind_same
    intro keys
    exact refines_ok ⟨rfl, rfl, _, hp', rfl⟩
  · rw [hp.isdel hi]
    apply refines_ite Iff.rfl
    · apply refines_bind_same
      intro keys
      exact refines_ok ⟨rfl, rfl, _, hp', rfl⟩
    · exact refines_ok ⟨rfl, rfl, flags, hp, rfl⟩

theorem refines_put (alloc : ResizeAlloc) (hs : Stores w h) (key : κ) :
    Refines (fun p q => p.1 = q.1 ∧ SameTable p.2 q.2) (w.put fns alloc key)
      (h.put fns alloc key) := by
  have hroom : Refines SameTable (w.makeRoom fns alloc) (h.makeRoom fns alloc) := by
    have hs' := hs
    obtain ⟨flags, hp, rfl⟩ := hs'
    apply refines_ite Iff.rfl
    · exact refines_ite Iff.rfl (refines_resize alloc hs _) (refines_resize alloc hs _)
    · exact refines_ok ⟨rfl, hs⟩
  apply hroom.bind
  intro r r' hr
  obtain ⟨ret, w'⟩ := r
  obtain ⟨ret', h'⟩ := r'
  obtain ⟨rfl, flags, hp, rfl⟩ := hr
  apply refines_ite Iff.rfl
  · exact refines_ok ⟨rfl, rfl, flags, hp, rfl⟩
  · apply (refines_putBucket hp key).bind
    intro x x' hx
    subst hx
    exact refines_putAt hp key x

theorem refines_del (hs : Stores w h) (x : Nat) : Refines Stores (w.del x) (h.del x) := by
  obtain ⟨flags, hp, rfl⟩ := hs
  apply refines_ite Iff.rfl
  · apply refines_flag
    intro flag hi
    rw [hp.iseither hi]
    apply refines_ite Iff.rfl
    · exact refines_ok ⟨flags, hp, rfl⟩
    · obtain ⟨words, hdel, hp'⟩ := hp.setIsdelTrue hi
      rw [hdel]
      exact refines_ok ⟨_, hp', rfl⟩
  · exact refines_ok ⟨flags, hp, rfl⟩

theorem refines_assign (alloc : ResizeAlloc) (hs : Stores w h) (key : κ) (val : ν) :
    Refines SameTable (w.assign fns alloc key val) (h.assign fns alloc key val) := by
  apply (refines_put alloc hs key).bind
  intro r r' hr
  obtain ⟨x, ret, w'⟩ := r
  obtain ⟨x', ret', h'⟩ := r'
  obtain ⟨rfl, rfl, flags, hp, rfl⟩ := hr
  apply refines_ite Iff.rfl
  · exact refines_ok ⟨rfl, flags, hp, rfl⟩
  · unfold setValue Khash.setValue
    simp only [bind_assoc]
    apply refines_bind_same
    intro vals
    exact refines_ok ⟨rfl, flags, hp, rfl⟩

theorem refines_run (hs : Stores w h) (op : TableOp κ ν) :
    Refines SameTable (w.run fns op) (op.run fns h) := by
  cases op with
  | put key val alloc => exact refines_assign alloc hs key val
  | del key =>
    have hremove : Refines Stores (w.remove fns key) (h.remove fns key) := by
      apply (refines_get hs key).bind
      intro x x' hx
      subst hx
      exact refines_del hs x
    apply hremove.bind
    intro w' h' hs'
    exact refines_ok ⟨rfl, hs'⟩

theorem refines_lookup (hs : Stores w h) (key : κ) :
    Refines Eq (w.lookup fns key) (h.lookup fns key) := by
  apply (refines_get hs key).bind
  intro x x' hx
  subst hx
  obtain ⟨flags, hp, rfl⟩ := hs
  exact refines_refl _

end WordKhash

open WordKhash in
/-- Every run of at most 2^30 operations on a new table goes the same in words as over flags: it
stays inside the words there are, answers the same, and ends with the same table, packed,
in which every lookup finds the same. -/
theorem run_packed {κ ν : Type} {fns : KeyFns κ} (hl : fns.Lawful) (ops : List (TableOp κ ν))
    (hlen : ops.length ≤ 2 ^ 30) :
    ∃ rets h w, exec (fun h op => TableOp.run fns h op) Khash.init ops = .ok (rets, h) ∧
      exec (fun w op => WordKhash.run fns w op) WordKhash.init ops = .ok (rets, w) ∧
      Stores w h ∧ ∀ key, w.lookup fns key = h.lookup fns key := by
  obtain ⟨rets, h, m, hrun, -, hw, hm⟩ := Khash.maps_init.exec hl ops (Khash.wf_init fns)
    (show 0 + ops.length ≤ 2 ^ 30 by omega)
  have hinit : Stores (WordKhash.init : WordKhash κ ν) Khash.init :=
    ⟨[], by intro i flag hi; simp at hi, rfl⟩
  have hrefines := refines_exec (R := Stores) (f := fun w op => WordKhash.run fns w op)
    (g := fun h op => TableOp.run fns h op) (fun w h op hs => refines_run hs op) ops hinit
  obtain ⟨⟨rets', w⟩, hrun', rfl, hs⟩ := hrefines _ hrun
  refine ⟨rets', h, w, hrun, hrun', hs, ?_⟩
  intro key
  have hfinds := hw.lookup_eq hl hm key
  obtain ⟨r, hr, rfl⟩ := refines_lookup hs key _ hfinds
  rw [hr, hfinds]

open WordKhash in
theorem numbers_packed :
    ∃ rets h w, exec (fun h op => TableOp.run Khash.numberFns h op) (Khash.init : Khash Nat Nat)
        [.put 3 1 ⟨true, true, true⟩, .put 7 2 ⟨true, true, false⟩, .del 3] = .ok (rets, h) ∧
      exec (fun w op => WordKhash.run Khash.numberFns w op) (WordKhash.init : WordKhash Nat Nat)
        [.put 3 1 ⟨true, true, true⟩, .put 7 2 ⟨true, true, false⟩, .del 3] = .ok (rets, w) ∧
      Stores w h ∧ ∀ key, w.lookup Khash.numberFns key = h.lookup Khash.numberFns key :=
  run_packed Khash.numberFns_lawful _ (by decide)

end LiteHttp
