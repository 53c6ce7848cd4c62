import LiteHttp.Platform
import Mathlib.Data.List.TakeWhile

/-!
# Strings as the parser sees them

`string_t` and `string_view_t` of util/string_t.c, each read as the bytes it
covers. An operation that allocates takes the allocator's answer and gives the
`bool` the source returns together with the string it leaves behind.
-/

namespace LiteHttp

set_option autoImplicit false

/-- `__builtin_clzl` on a non-zero 64-bit value. -/
def clzl (n : Nat) : Nat := 63 - n.log2

/-- `next_capacity`, on the compiler-builtin path. The literal `1` is an `int`,
so a shift by 31 or more has no defined value. -/
def nextCapacity (n : Nat) : Option Nat :=
  if n = 0 then some 1
  else if n &&& (n - 1) = 0 then some n
  else
    let shift := 64 - clzl n
    if shift < 31 then some (1 <<< shift) else none

/-- PTRDIFF_MAX, one byte more than which no object has. -/
def ptrdiffMax : Nat := 2 ^ 63 - 1

/-- The allocator's answer to a request of `size` bytes; a yes to more than
PTRDIFF_MAX bytes has no meaning. -/
def malloc (mallocOk : Bool) (size : Nat) : Except Fault Bool :=
  if mallocOk ∧ ptrdiffMax < size then .error .undefined else .ok mallocOk

def stringAppendView (mallocOk : Bool) (s sv : Bytes) : Except Fault (Bool × Bytes) :=
  let oldLen := s.length
  let newSize := sv.length + oldLen + 1
  match nextCapacity newSize with
  | none => .error .undefined
  | some newCapacity => do
    let ok ← malloc mallocOk newCapacity
    if !ok then return (false, s)
    else if 2 ^ 31 ≤ oldLen then
      -- `cpy_sv2str` takes the offset as an `int`
      .error .undefined
    else return (true, s ++ sv)

def smallBufSize : Nat := 16

/-- `string_init_from_string_view`: views shorter than the small buffer need no allocation. -/
def stringInitFromStringView (mallocOk : Bool) (sv : Bytes) : Except Fault (Bool × Bytes) :=
  if sv.length < smallBufSize then .ok (true, sv)
  else
    match nextCapacity (sv.length + 1) with
    | none => .error .undefined
    | some newCapacity => do
      let ok ← malloc mallocOk newCapacity
      if !ok then return (false, []) else return (true, sv)

/-- `string_resize`; the growing cases zero-fill. The answer is a yes too where
the small buffer or the capacity at hand is enough. -/
def stringResize (mallocOk : Bool) (s : Bytes) (newLen : Nat) : Bool × Bytes :=
  if newLen = 0 then (true, [])
  else if newLen < s.length + 1 then (true, s.take newLen)
  else if mallocOk then (true, s ++ List.replicate (newLen - s.length) 0)
  else (false, s)

def npos : Nat := sizeMod - 1

def stringViewSubstr (sv : Bytes) (pos len : Nat) : Bytes :=
  let svLen := sv.length
  if svLen ≤ pos then []
  else
    let maxLen := svLen - pos
    let subLen := if len < maxLen then len else maxLen
    (sv.drop pos).take subLen

/-- The C library's `strncmp` on two buffers of at least `n` bytes. -/
def strncmp : Nat → Bytes → Bytes → Int
  | 0, _, _ => 0
  | n + 1, a :: as, b :: bs =>
    if a = b then if a = 0 then 0 else strncmp n as bs
    else (a.toNat : Int) - b.toNat
  | _ + 1, _, _ => 0

/-- `string_view_compare`. The difference of the lengths is a `size_t` that the
return type cuts down to a 32-bit `int`. -/
def stringViewCompare (lhs rhs : Bytes) : Int :=
  let llen := lhs.length
  let rlen := rhs.length
  let minlen := if llen < rlen then llen else rlen
  let cmp := strncmp minlen lhs rhs
  if cmp ≠ 0 then cmp else ((llen : Int) - rlen).bmod (2 ^ 32)

/-- What a `char*` made by `string_view_to_buf` holds: the bytes up to the first NUL. -/
def toCstr (sv : Bytes) : Bytes := sv.takeWhile (· ≠ 0)

theorem toCstr_of_free {s : Bytes} (h : 0 ∉ s) : toCstr s = s := by
  rw [toCstr, List.takeWhile_eq_self_iff]
  intro c hc
  have hne : c ≠ 0 := by
    rintro rfl
    exact h hc
  simpa using hne

theorem toCstr_free (s : Bytes) : 0 ∉ toCstr s := by
  intro h0
  simpa using List.mem_takeWhile_imp h0

theorem toCstr_append_of_free {s : Bytes} (h : 0 ∉ s) (t : Bytes) : toCstr (s ++ t) = s ++ toCstr t := by
  rw [toCstr, List.takeWhile_append_of_pos, toCstr]
  intro c hc
  have hne : c ≠ 0 := by
    rintro rfl
    exact h hc
  simpa using hne

theorem toCstr_append_of_mem {s : Bytes} (h : 0 ∈ s) (t : Bytes) : toCstr (s ++ t) = toCstr s := by
  induction s with
  | nil => simp at h
  | cons c s ih =>
    by_cases hc : c = 0
    · simp [toCstr, hc]
    · have hs := ih ((List.mem_cons.mp h).resolve_left fun h0 => hc h0.symm)
      simp only [toCstr, List.cons_append] at hs ⊢
      rw [List.takeWhile_cons_of_pos (by simpa using hc), List.takeWhile_cons_of_pos (by simpa using hc), hs]

theorem stringViewSubstr_eq (sv : Bytes) (pos len : Nat) :
    stringViewSubstr sv pos len = (sv.drop pos).take len := by
  unfold stringViewSubstr
  by_cases hpos : sv.length ≤ pos
  · simp [hpos]
  · simp only [hpos, if_false]
    split
    · rfl
    · rename_i hlen
      rw [List.take_of_length_le (by simp), List.take_of_length_le (by simp; omega)]

theorem nextCapacity_ge {n c : Nat} (h : nextCapacity n = some c) : n ≤ c := by
  unfold nextCapacity at h
  split at h
  · simp_all
  · split at h
    · simp_all
    · simp only at h
      split at h
      · rename_i hlt
        have hshift : 64 - clzl n = n.log2 + 1 := by
          unfold clzl at hlt ⊢
          omega
        simp only [hshift, Nat.one_shiftLeft, Option.some.injEq] at h
        rw [← h]
        exact Nat.le_of_lt Nat.lt_log2_self
      · simp at h

theorem nextCapacity_isSome {n : Nat} (h : n ≤ 2 ^ 30) : (nextCapacity n).isSome := by
  unfold nextCapacity
  split
  · rfl
  · rename_i hpos
    split
    · rfl
    · rename_i hpow
      have hlt : n < 2 ^ 30 := by
        rcases Nat.lt_or_eq_of_le h with h | rfl
        · exact h
        · exact absurd (by decide) hpow
      have hlog : n.log2 < 30 := (Nat.log2_lt hpos).mpr hlt
      have hshift : 64 - clzl n < 31 := by
        unfold clzl
        omega
      simp only [hshift, if_true, Option.isSome_some]

/-- The lengths for which the growth arithmetic is defined and an object can exist. -/
def Storable (len : Nat) : Prop := ∃ c, nextCapacity (len + 1) = some c ∧ c ≤ ptrdiffMax

theorem nextCapacity_le {n c : Nat} (h : nextCapacity n = some c) : c ≤ max n (2 ^ 30) := by
  unfold nextCapacity at h
  split at h
  · simp only [Option.some.injEq] at h
    omega
  · split at h
    · simp only [Option.some.injEq] at h
      omega
    · simp only at h
      split at h
      · rename_i hlt
        simp only [Nat.one_shiftLeft, Option.some.injEq] at h
        have hpow : 2 ^ (64 - clzl n) ≤ 2 ^ 30 := Nat.pow_le_pow_right (by decide) (by omega)
        omega
      · simp at h

theorem storable_of_lt {len : Nat} (h : len < 2 ^ 30) : Storable len := by
  obtain ⟨c, hc⟩ := Option.isSome_iff_exists.mp (nextCapacity_isSome (n := len + 1) h)
  have hle := nextCapacity_le hc
  exact ⟨c, hc, by unfold ptrdiffMax; omega⟩

/-- An append that returns has stored everything, or failed and left the string alone. -/
theorem stringAppendView_ok {ok : Bool} {s sv : Bytes} {r : Bool × Bytes}
    (h : stringAppendView ok s sv = .ok r) :
    (ok = true ∧ r = (true, s ++ sv) ∧ (s ++ sv).length < ptrdiffMax) ∨
    (ok = false ∧ r = (false, s)) := by
  unfold stringAppendView at h
  simp only at h
  split at h
  · simp at h
  · rename_i c hc
    have hge := nextCapacity_ge hc
    cases ok with
    | false =>
      simp only [malloc, Bool.false_eq_true, false_and, if_false, bind, Except.bind,
        Bool.not_false, if_true, pure, Except.pure, Except.ok.injEq] at h
      exact Or.inr ⟨rfl, h.symm⟩
    | true =>
      by_cases hbig : ptrdiffMax < c
      · simp [malloc, hbig, bind, Except.bind] at h
      · simp only [malloc, hbig, and_false, if_false, bind, Except.bind, Bool.not_true,
          Bool.false_eq_true] at h
        split at h
        · simp at h
        · simp only [pure, Except.pure, Except.ok.injEq] at h
          refine Or.inl ⟨rfl, h.symm, ?_⟩
          rw [List.length_append]
          omega

theorem stringAppendView_error {ok : Bool} {s sv : Bytes} {e : Fault}
    (h : stringAppendView ok s sv = .error e) : e = .undefined := by
  unfold stringAppendView malloc at h
  simp only at h
  split at h
  · simpa using h.symm
  · split at h
    · simpa [bind, Except.bind] using h.symm
    · cases ok with
      | false => simp [bind, Except.bind, pure, Except.pure] at h
      | true =>
        simp only [bind, Except.bind, Bool.not_true, Bool.false_eq_true, if_false] at h
        split at h
        · simpa using h.symm
        · simp [pure, Except.pure] at h

theorem stringAppendView_true {s sv : Bytes} (hs : Storable (s.length + sv.length))
    (hold : s.length < 2 ^ 31) : stringAppendView true s sv = .ok (true, s ++ sv) := by
  obtain ⟨c, hc, hle⟩ := hs
  rw [Nat.add_comm s.length sv.length] at hc
  have hbig : ¬ ptrdiffMax < c := by omega
  have hold' : ¬ 2 ^ 31 ≤ s.length := by omega
  simp only [stringAppendView, hc, malloc, hbig, hold', and_false, if_false, bind, Except.bind,
    Bool.not_true, Bool.false_eq_true, pure, Except.pure]

/-- An append that gets its memory returns exactly on lengths the growth arithmetic can take. -/
theorem stringAppendView_true_iff {s sv : Bytes} :
    (∃ r, stringAppendView true s sv = .ok r) ↔
      Storable (s.length + sv.length) ∧ s.length < 2 ^ 31 := by
  constructor
  · rintro ⟨r, h⟩
    unfold stringAppendView malloc at h
    simp only [Nat.add_comm sv.length s.length] at h
    cases hc : nextCapacity (s.length + sv.length + 1) with
    | none => simp [hc] at h
    | some c =>
      by_cases hbig : ptrdiffMax < c
      · simp [hc, hbig, bind, Except.bind] at h
      · refine ⟨⟨c, hc, Nat.le_of_not_lt hbig⟩, Nat.lt_of_not_le fun hold => ?_⟩
        simp only [hc, hbig, and_false, if_false, bind, Except.bind, Bool.not_true,
          Bool.false_eq_true, hold, if_true, reduceCtorEq] at h
  · rintro ⟨hs, hold⟩
    exact ⟨_, stringAppendView_true hs hold⟩

theorem stringInitFromStringView_cases (ok : Bool) (sv : Bytes) :
    stringInitFromStringView ok sv = .error .undefined ∨
    ((ok = true ∨ sv.length < smallBufSize) ∧ stringInitFromStringView ok sv = .ok (true, sv)) ∨
    (ok = false ∧ smallBufSize ≤ sv.length ∧ stringInitFromStringView ok sv = .ok (false, [])) := by
  unfold stringInitFromStringView malloc
  by_cases hsmall : sv.length < smallBufSize
  · simp [hsmall]
  · simp only [hsmall, if_false]
    cases hc : nextCapacity (sv.length + 1) with
    | none => simp
    | some c =>
      cases ok with
      | false => simp [bind, Except.bind, pure, Except.pure]; omega
      | true =>
        by_cases hbig : ptrdiffMax < c
        · simp [hbig, bind, Except.bind]
        · simp [hbig, bind, Except.bind, pure, Except.pure]

theorem stringInitFromStringView_true {sv : Bytes} (hs : Storable sv.length) :
    stringInitFromStringView true sv = .ok (true, sv) := by
  obtain ⟨c, hc, hle⟩ := hs
  have hbig : ¬ ptrdiffMax < c := by omega
  unfold stringInitFromStringView malloc
  split
  · rfl
  · simp [hc, hbig, bind, Except.bind, pure, Except.pure]

theorem eq_of_strncmp {n : Nat} {a b : Bytes} (hb : 0 ∉ b) (hna : n ≤ a.length)
    (hnb : n ≤ b.length) (h : strncmp n a b = 0) : a.take n = b.take n := by
  induction n generalizing a b with
  | zero => simp
  | succ n ih =>
    cases a with
    | nil => simp at hna
    | cons x a =>
      cases b with
      | nil => simp at hnb
      | cons y b =>
        rw [List.mem_cons, not_or] at hb
        by_cases hxy : x = y
        · have hx : x ≠ 0 := fun hx => hb.1 (hx.symm.trans hxy)
          simp only [strncmp, hxy, if_true, hxy ▸ hx, if_false] at h
          rw [List.take_succ_cons, List.take_succ_cons, hxy,
            ih hb.2 (by simpa using hna) (by simpa using hnb) h]
        · simp only [strncmp, hxy, if_false] at h
          exact absurd (UInt8.toNat_inj.mp (by omega)) hxy

theorem strncmp_self (n : Nat) (a : Bytes) : strncmp n a a = 0 := by
  induction n generalizing a with
  | zero => rfl
  | succ n ih =>
    cases a with
    | nil => rfl
    | cons x a =>
      simp only [strncmp, if_true, ih]
      split <;> rfl

theorem stringViewCompare_eq_zero_iff {lhs rhs : Bytes} (hl : lhs.length < 2 ^ 31)
    (hr : rhs.length < 2 ^ 31) (hrhs : 0 ∉ rhs) : stringViewCompare lhs rhs = 0 ↔ lhs = rhs := by
  unfold stringViewCompare
  simp only
  constructor
  · intro h
    generalize hmin : (if lhs.length < rhs.length then lhs.length else rhs.length) = minlen at h
    split at h
    · rename_i hcmp
      exact absurd h hcmp
    · rename_i hcmp
      have hlen : lhs.length = rhs.length := by
        rw [Int.bmod_def] at h
        split at h <;> omega
      rw [hlen, if_neg (Nat.lt_irrefl _)] at hmin
      rw [← hmin] at hcmp
      have hcmp := not_not.mp hcmp
      have htake := eq_of_strncmp hrhs (Nat.le_of_eq hlen.symm) (Nat.le_refl _) hcmp
      rwa [List.take_of_length_le (Nat.le_of_eq hlen), List.take_of_length_le (Nat.le_refl _)] at htake
  · rintro rfl
    simp [strncmp_self]

end LiteHttp
