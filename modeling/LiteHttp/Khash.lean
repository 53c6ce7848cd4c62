import LiteHttp.Platform

/-!
# khash.h

The hash table that `KHASH_INIT` makes of a key type, a hash and an equality: buckets
in three arrays, two bits of flags for each bucket, quadratic probing, and a rehash
that moves the entries inside the arrays they are in. A cell that was never written
holds nothing that may be read.
-/

namespace LiteHttp

set_option autoImplicit false

/-- `khint_t` has 32 bits. -/
def u32 (n : Nat) : Nat := n % 2 ^ 32

/-- `__hash_func` and `__hash_equal`. -/
structure KeyFns (κ : Type) where
  hashFunc : κ → Nat
  hashEqual : κ → κ → Bool

/-- The bits `__ac_isempty` and `__ac_isdel` of a bucket. -/
structure Flag where
  isEmpty : Bool
  isDel : Bool
  deriving DecidableEq, Repr

/-- `__ac_iseither`. -/
def Flag.isEither (flag : Flag) : Bool := flag.isEmpty || flag.isDel

/-- What 0xaa sets the bits of a bucket to. -/
def Flag.initial : Flag := ⟨true, false⟩

structure Khash (κ ν : Type) where
  nBuckets : Nat
  size : Nat
  nOccupied : Nat
  upperBound : Nat
  flags : List Flag
  keys : List (Option κ)
  vals : List (Option ν)
  deriving DecidableEq, Repr

/-- What `kmalloc` and the two `krealloc` of a resize answer. -/
structure ResizeAlloc where
  flagsOk : Bool
  keysOk : Bool
  valsOk : Bool
  deriving DecidableEq, Repr

section Cells

variable {α : Type}

/-- A cell that is read has to be in its array and to have been written. -/
def peek (cells : List (Option α)) (i : Nat) : Except Fault α :=
  match cells[i]? with
  | some (some a) => .ok a
  | _ => .error .undefined

def poke (cells : List (Option α)) (i : Nat) (a : α) : Except Fault (List (Option α)) :=
  if i < cells.length then .ok (cells.set i (some a)) else .error .undefined

def flagAt (flags : List Flag) (i : Nat) : Except Fault Flag :=
  match flags[i]? with
  | some flag => .ok flag
  | none => .error .undefined

/-- `krealloc` of an array to `n` elements. -/
def krealloc (cells : List (Option α)) (n : Nat) : List (Option α) :=
  cells.take n ++ List.replicate (n - cells.length) none

end Cells

/-- One `(x)|=(x)>>d` of kroundup32. -/
def smear (d x : Nat) : Nat := x ||| x >>> d

/-- `kroundup32`. -/
def kroundup32 (x : Nat) : Nat :=
  u32 (smear 16 (smear 8 (smear 4 (smear 2 (smear 1 (u32 (x + (2 ^ 32 - 1))))))) + 1)

/-- `n * __ac_HASH_UPPER + 0.5` as a `khint_t`; for a power of two the double is on the
same side of every integer as the fraction. -/
def hashUpper (n : Nat) : Nat := (77 * n + 50) / 100

namespace Khash

variable {κ ν : Type}

/-- `kh_init`. -/
def init : Khash κ ν := ⟨0, 0, 0, 0, [], [], []⟩

/-- The condition of the loops of `kh_get` and `kh_put`: a bucket that is in use for
another key, or was. -/
def skips (fns : KeyFns κ) (h : Khash κ ν) (key : κ) (i : Nat) : Except Fault Bool := do
  let flag ← flagAt h.flags i
  if flag.isEmpty then return false
  else if flag.isDel then return true
  else
    let k ← peek h.keys i
    return !fns.hashEqual k key

def nextBucket (mask i step : Nat) : Nat := u32 (i + u32 (step + 1)) &&& mask

/-- The loop of `kh_get` and its `return`. The first argument bounds its rounds: a probe
is back at its start after twice the buckets there are. -/
def getLoop (fns : KeyFns κ) (h : Khash κ ν) (key : κ) (last : Nat) :
    Nat → Nat → Nat → Except Fault Nat
  | 0, _, _ => .error .diverges
  | fuel + 1, i, step => do
    if ← h.skips fns key i then
      let i := nextBucket (h.nBuckets - 1) i step
      if i = last then return h.nBuckets
      else getLoop fns h key last fuel i (u32 (step + 1))
    else
      let flag ← flagAt h.flags i
      return if flag.isEither then h.nBuckets else i

/-- `kh_get`. -/
def get (fns : KeyFns κ) (h : Khash κ ν) (key : κ) : Except Fault Nat :=
  if h.nBuckets ≠ 0 then
    let i := u32 (fns.hashFunc key) &&& (h.nBuckets - 1)
    getLoop fns h key i (2 * h.nBuckets) i 0
  else .ok 0

/-- What the rehash of `kh_resize` works on. -/
structure Rehash (κ ν : Type) where
  flags : List Flag
  newFlags : List Flag
  keys : List (Option κ)
  vals : List (Option ν)
  deriving DecidableEq, Repr

/-- The loop to the first bucket that is still empty in the new flags. -/
def freeBucket (newFlags : List Flag) (mask : Nat) : Nat → Nat → Nat → Except Fault Nat
  | 0, _, _ => .error .diverges
  | fuel + 1, i, step => do
    let flag ← flagAt newFlags i
    if flag.isEmpty then return i
    else freeBucket newFlags mask fuel (nextBucket mask i step) (u32 (step + 1))

/-- The old table still has an entry where one is to be put. -/
def Rehash.kicks (nBuckets : Nat) (st : Rehash κ ν) (i : Nat) : Except Fault Bool :=
  if i < nBuckets then do
    let flag ← flagAt st.flags i
    return !flag.isEither
  else .ok false

/-- The kick-out process: an entry that is put where an old one still is takes its place,
and the old one is put next. Every round but the last takes one out of the old flags. -/
def kickOut (fns : KeyFns κ) (nBuckets newBuckets : Nat) :
    Nat → κ → ν → Rehash κ ν → Except Fault (Rehash κ ν)
  | 0, _, _, _ => .error .diverges
  | fuel + 1, key, val, st => do
    let start := u32 (fns.hashFunc key) &&& (newBuckets - 1)
    let i ← freeBucket st.newFlags (newBuckets - 1) (2 * newBuckets) start 0
    let newFlag ← flagAt st.newFlags i
    let newFlags := st.newFlags.set i { newFlag with isEmpty := false }
    if ← st.kicks nBuckets i then
      let flag ← flagAt st.flags i
      let tmpKey ← peek st.keys i
      let keys ← poke st.keys i key
      let tmpVal ← peek st.vals i
      let vals ← poke st.vals i val
      kickOut fns nBuckets newBuckets fuel tmpKey tmpVal
        ⟨st.flags.set i { flag with isDel := true }, newFlags, keys, vals⟩
    else
      let keys ← poke st.keys i key
      let vals ← poke st.vals i val
      return ⟨st.flags, newFlags, keys, vals⟩

/-- One turn of the rehash, for bucket `j` of the old table. -/
def rehashBucket (fns : KeyFns κ) (nBuckets newBuckets : Nat) (st : Rehash κ ν) (j : Nat) :
    Except Fault (Rehash κ ν) := do
  let flag ← flagAt st.flags j
  if flag.isEither then return st
  else
    let key ← peek st.keys j
    let val ← peek st.vals j
    kickOut fns nBuckets newBuckets (nBuckets + 1) key val
      { st with flags := st.flags.set j { flag with isDel := true } }

/-- The rehash of all buckets, and the new table; a table that shrinks gives back the
end of its arrays, and does not look at what `krealloc` answers. -/
def rehash (fns : KeyFns κ) (alloc : ResizeAlloc) (h : Khash κ ν) (newBuckets : Nat)
    (keys : List (Option κ)) (vals : List (Option ν)) : Except Fault (Khash κ ν) := do
  let start : Rehash κ ν := ⟨h.flags, List.replicate newBuckets .initial, keys, vals⟩
  let st ← (List.range h.nBuckets).foldlM (rehashBucket fns h.nBuckets newBuckets) start
  let shrinks := newBuckets < h.nBuckets
  return {
    nBuckets := newBuckets
    size := h.size
    nOccupied := h.size
    upperBound := hashUpper newBuckets
    flags := st.newFlags
    keys := if shrinks then if alloc.keysOk then krealloc st.keys newBuckets else [] else st.keys
    vals := if shrinks then if alloc.valsOk then krealloc st.vals newBuckets else [] else st.vals }

/-- The number of buckets `kh_resize` goes for. -/
def resizeTo (newBuckets : Nat) : Nat :=
  if kroundup32 newBuckets < 4 then 4 else kroundup32 newBuckets

/-- `kh_resize`. -/
def resize (fns : KeyFns κ) (alloc : ResizeAlloc) (h : Khash κ ν) (newBuckets : Nat) :
    Except Fault (Int × Khash κ ν) :=
  let newBuckets := resizeTo newBuckets
  if hashUpper newBuckets ≤ h.size then .ok (0, h)
  else if !alloc.flagsOk then .ok (-1, h)
  else if h.nBuckets < newBuckets then
    if !alloc.keysOk then .ok (-1, h)
    else if !alloc.valsOk then .ok (-1, { h with keys := krealloc h.keys newBuckets })
    else do
      let h ← rehash fns alloc h newBuckets (krealloc h.keys newBuckets) (krealloc h.vals newBuckets)
      return (0, h)
  else do
    let h ← rehash fns alloc h newBuckets h.keys h.vals
    return (0, h)

/-- The loop of `kh_put`, with the bucket it stops at, `site` and `x`. -/
def putLoop (fns : KeyFns κ) (h : Khash κ ν) (key : κ) (last : Nat) :
    Nat → Nat → Nat → Nat → Except Fault (Nat × Nat × Nat)
  | 0, _, _, _ => .error .diverges
  | fuel + 1, i, step, site => do
    if ← h.skips fns key i then
      let flag ← flagAt h.flags i
      let site := if flag.isDel then i else site
      let i := nextBucket (h.nBuckets - 1) i step
      if i = last then return (i, site, site)
      else putLoop fns h key last fuel i (u32 (step + 1)) site
    else return (i, site, h.nBuckets)

/-- The bucket `kh_put` puts a key into. -/
def putBucket (fns : KeyFns κ) (h : Khash κ ν) (key : κ) : Except Fault Nat := do
  let i := u32 (fns.hashFunc key) &&& (h.nBuckets - 1)
  let flag ← flagAt h.flags i
  if flag.isEmpty then return i
  else
    let (i, site, x) ← putLoop fns h key i (2 * h.nBuckets) i 0 h.nBuckets
    if x = h.nBuckets then
      let flag ← flagAt h.flags i
      return if flag.isEmpty ∧ site ≠ h.nBuckets then site else i
    else return x

/-- What `kh_put` does with the bucket: its `*ret` and the table. -/
def putAt (h : Khash κ ν) (key : κ) (x : Nat) : Except Fault (Nat × Int × Khash κ ν) := do
  let flag ← flagAt h.flags x
  if flag.isEmpty then
    let keys ← poke h.keys x key
    return (x, 1, { h with
      keys := keys
      flags := h.flags.set x ⟨false, false⟩
      size := u32 (h.size + 1)
      nOccupied := u32 (h.nOccupied + 1) })
  else if flag.isDel then
    let keys ← poke h.keys x key
    return (x, 2, { h with
      keys := keys
      flags := h.flags.set x ⟨false, false⟩
      size := u32 (h.size + 1) })
  else return (x, 0, h)

/-- How `kh_put` begins: a table with no room for another key is rehashed, to the size it
has if less than half of it is in use. -/
def makeRoom (fns : KeyFns κ) (alloc : ResizeAlloc) (h : Khash κ ν) : Except Fault (Int × Khash κ ν) :=
  if h.upperBound ≤ h.nOccupied then
    if u32 (h.size <<< 1) < h.nBuckets then h.resize fns alloc (u32 (h.nBuckets + (2 ^ 32 - 1)))
    else h.resize fns alloc (u32 (h.nBuckets + 1))
  else .ok (0, h)

/-- `kh_put`: the bucket, `*ret` and the table. -/
def put (fns : KeyFns κ) (alloc : ResizeAlloc) (h : Khash κ ν) (key : κ) :
    Except Fault (Nat × Int × Khash κ ν) := do
  let (ret, h) ← h.makeRoom fns alloc
  if ret < 0 then return (h.nBuckets, -1, h)
  else
    let x ← h.putBucket fns key
    h.putAt key x

/-- `kh_del`. -/
def del (h : Khash κ ν) (x : Nat) : Except Fault (Khash κ ν) :=
  if x ≠ h.nBuckets then do
    let flag ← flagAt h.flags x
    if flag.isEither then return h
    else return { h with
      flags := h.flags.set x { flag with isDel := true }
      size := u32 (h.size + (2 ^ 32 - 1)) }
  else .ok h

/-- `kh_value(h, x)` as it is read and as it is written. -/
def value (h : Khash κ ν) (x : Nat) : Except Fault ν := peek h.vals x

def setValue (h : Khash κ ν) (x : Nat) (val : ν) : Except Fault (Khash κ ν) := do
  let vals ← poke h.vals x val
  return { h with vals := vals }

end Khash

end LiteHttp
