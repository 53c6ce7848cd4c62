import LiteHttp.StringSpec

/-!
# Resizing

A resize to a length that is not zero cuts the content or fills it up with zeros,
in the storage at hand as long as that is enough and in a new block otherwise.
-/

namespace LiteHttp

set_option autoImplicit false

/-- The bytes cut to `n`, or filled up to it with zeros. -/
def fit (n : Nat) (bytes : Bytes) : Bytes := bytes.take n ++ List.replicate (n - bytes.length) 0

@[simp] theorem length_fit (n : Nat) (bytes : Bytes) : (fit n bytes).length = n := by
  rw [fit, List.length_append, List.length_take, List.length_replicate]
  omega

theorem fit_of_le {n : Nat} {bytes : Bytes} (h : n ≤ bytes.length) : fit n bytes = bytes.take n := by
  rw [fit, Nat.sub_eq_zero_of_le h, List.replicate_zero, List.append_nil]

theorem getElem?_fit {n i : Nat} {bytes : Bytes} (h : i < n) :
    (fit n bytes)[i]? = some (bytes.getD i 0) := by
  by_cases hi : i < bytes.length
  · rw [fit, List.getElem?_append_left (by rw [List.length_take]; omega), List.getElem?_take_of_lt h,
      List.getD_eq_getElem?_getD, List.getElem?_eq_getElem hi, Option.getD_some]
  · rw [fit, List.getElem?_append_right (by rw [List.length_take]; omega), List.getElem?_replicate,
      List.getD_eq_getElem?_getD, List.getElem?_eq_none (by omega), Option.getD_none, if_pos]
    rw [List.length_take]
    omega

/-- Fitting twice leaves what both lengths cover, and zeros behind it. -/
theorem fit_fit (m n : Nat) (bytes : Bytes) :
    fit n (fit m bytes) = fit n ((fit n bytes).take (min m n)) := by
  apply List.ext_getElem?
  intro i
  by_cases hn : i < n
  · rw [getElem?_fit hn, getElem?_fit hn, List.getD_eq_getElem?_getD, List.getD_eq_getElem?_getD]
    by_cases hm : i < m
    · rw [getElem?_fit hm, List.getElem?_take_of_lt (by omega), getElem?_fit hn]
    · rw [List.getElem?_eq_none (by rw [length_fit]; omega),
        List.getElem?_eq_none (by rw [List.length_take]; omega)]
  · rw [List.getElem?_eq_none (by rw [length_fit]; omega),
      List.getElem?_eq_none (by rw [length_fit]; omega)]

namespace StringImpl

theorem truncate_holds {s : StringImpl} (newLen : Nat) (hfit : newLen + 1 ≤ s.buffer.length) :
    ∃ t, ({ s with size := newLen + 1 } : StringImpl).store newLen [0] = .ok t ∧
      t.Holds s (s.buffer.take newLen) := by
  refine ⟨_, ?_, terminated_holds newLen hfit⟩
  rw [← write_with_size]
  exact store_of_le hfit

/-- The NUL behind the content is the first of the zeros that fill it up. -/
theorem padded_text {s : StringImpl} (hs : s.Stored) {newLen : Nat} (hle : s.size ≤ newLen) :
    s.buffer.take s.size ++ List.replicate (newLen - s.size) 0 = fit newLen s.bytes := by
  have hlen := hs.placed.bytes_length
  have hlenSize := s.len_le_size
  have hall : s.bytes.take newLen = s.bytes := List.take_of_length_le (by omega)
  rw [fit, hall, hlen]
  by_cases hsize : s.size = 0
  · rw [bytes, len_of_size_zero hsize, hsize]
  · have hnul := hs.nul hsize
    have hzeros : newLen - s.len = newLen - s.size + 1 := by
      rw [len, if_neg hsize]
      omega
    have hsucc : s.size = s.len + 1 := by
      rw [len, if_neg hsize]
      omega
    rw [hzeros, List.replicate_succ, hsucc, List.take_add_one, hnul, bytes, Option.toList_some,
      List.append_assoc]
    rfl

/-- Growing a string that has the room, or has been given it. -/
theorem grown_spec {u : StringImpl} {newLen : Nat} {s : StringImpl} (hs : s.Stored)
    (hsize : u.size = s.size) (htake : u.buffer.take s.size = s.buffer.take s.size)
    (hle : s.size ≤ newLen) (hfit : newLen + 1 ≤ u.buffer.length) :
    ∃ t, u.zeroFill newLen = .ok t ∧ t.Holds u (fit newLen s.bytes) := by
  obtain ⟨t, hfill, hholds⟩ := zeroFill_holds (hsize ▸ hle) hfit
  rw [hsize, htake, padded_text hs hle] at hholds
  exact ⟨t, hfill, hholds⟩

section Resize

variable {s : StringImpl} (hs : s.Stored) (b : Build) (a : StringAlloc) {newLen : Nat}
variable (hne : newLen ≠ 0)
include hs hne

theorem resize_cut (hcut : newLen < s.size) :
    ∃ t, s.resize b a newLen = .ok (true, t) ∧ t.Sound ∧ t.capacity = s.capacity ∧
      t.bytes = fit newLen s.bytes := by
  have hlen := hs.placed.bytes_length
  have hsize := hs.placed.size_le
  have hlenSize := s.size_le_len
  obtain ⟨t, hstore, hholds⟩ := truncate_holds (s := s) newLen (by omega)
  have htext : (s.buffer.take newLen).length = newLen := by
    rw [List.length_take]
    omega
  refine ⟨t, ?_, ?_, hholds.capacity, ?_⟩
  · simp only [resize, hne, if_false, hcut, if_true, hstore, bind, Except.bind, pure, Except.pure]
  · apply hholds.sound hs.capacity_iff
    · intro hsmall
      have := hs.small hsmall
      omega
    · intro hheap
      have := hs.heap hheap
      omega
  · rw [hholds.bytes_eq, fit_of_le (by omega), bytes, List.take_take, Nat.min_eq_left (by omega)]

variable (hle : s.size ≤ newLen)
include hle

theorem resize_room (hroom : newLen < s.capacity) :
    ∃ t, s.resize b a newLen = .ok (true, t) ∧ t.Sound ∧ t.capacity = s.capacity ∧
      t.bytes = fit newLen s.bytes := by
  have hheap : s.data ≠ .small := by
    intro hsmall
    have := hs.capacity_iff.mpr hsmall
    omega
  have hfits := hs.heap hheap
  obtain ⟨t, hfill, hholds⟩ := grown_spec (u := s) hs rfl rfl hle (by omega)
  obtain ⟨t', hstore, hholds'⟩ := hholds.store_nul (by rw [hholds.length, length_fit]; omega)
  rw [length_fit] at hstore
  refine ⟨t', ?_, ?_, hholds'.capacity, hholds'.bytes_eq⟩
  · simp only [resize, hne, if_false, Nat.not_lt.mpr hle, hroom, if_true, hfill, hstore, bind,
      Except.bind, pure, Except.pure]
  · exact hholds'.sound_heap hheap (by omega) (by rw [length_fit]; omega) hfits.2

variable (hroom : ¬ newLen < s.capacity)
include hroom

theorem resize_small (hsmall : s.data = .small) (hshort : newLen < smallBufSize) :
    ∃ t, s.resize b a newLen = .ok (true, t) ∧ t.Sound ∧ t.bytes = fit newLen s.bytes := by
  have hbuf := buffer_small hsmall
  obtain ⟨t, hfill, hholds⟩ := grown_spec (u := s) hs rfl rfl hle (by omega)
  obtain ⟨t', hstore, hholds'⟩ := hholds.store_nul (by rw [hholds.length, length_fit]; omega)
  rw [length_fit] at hstore
  refine ⟨t', ?_, ?_, hholds'.bytes_eq⟩
  · simp only [resize, hne, if_false, Nat.not_lt.mpr hle, hroom, hs.placed.useSbuf_eq b, hsmall,
      decide_true, if_true, assert_of, hshort, hfill, hstore, bind, Except.bind, pure, Except.pure]
  · apply hholds'.sound hs.capacity_iff
    · intro _
      rw [length_fit]
      omega
    · exact fun h => absurd hsmall h

variable (hlong : s.data = .small → ¬ newLen < smallBufSize) {c : Nat}
variable (hc : nextCapacity (newLen + 1) = some c)
include hlong hc

theorem resize_refused {a : StringAlloc} (hok : a.ok = false) :
    s.resize b a newLen = .ok (false, s) := by
  have hge := nextCapacity_ge hc
  have hfit : a.ok = true → c ≤ ptrdiffMax := by simp [hok]
  by_cases hsmall : s.data = .small
  · have hmoved := cpySmbuf2data_eq hs.placed hsmall (show 0 < c by omega) (by omega) b hfit
    rw [hok, if_neg (by simp)] at hmoved
    simp [resize, hne, Nat.not_lt.mpr hle, hroom, hs.placed.useSbuf_eq b, hsmall, assert_of,
      hlong hsmall, hc, hmoved, bind, Except.bind, pure, Except.pure]
  · simp [resize, hne, Nat.not_lt.mpr hle, hroom, hs.placed.useSbuf_eq b, hsmall, hc,
      realloc_eq hfit, hok, bind, Except.bind, pure, Except.pure]

theorem resize_moved {a : StringAlloc} (hok : a.ok = true) (hfits : c ≤ ptrdiffMax) :
    ∃ t, s.resize b a newLen = .ok (true, t) ∧ t.Sound ∧ t.bytes = fit newLen s.bytes := by
  have hge := nextCapacity_ge hc
  have hgiven : a.ok = true → c ≤ ptrdiffMax := fun _ => hfits
  suffices h : ∃ t, s.resize b a newLen = .ok (true, t) ∧
      t.Holds (s.reheaped a c) (fit newLen s.bytes) by
    obtain ⟨t, hresize, hholds⟩ := h
    refine ⟨t, hresize, ?_, hholds.bytes_eq⟩
    apply hholds.sound_heap
    · exact reheaped_not_small s a c
    · rw [reheaped_capacity]
      omega
    · rw [reheaped_capacity, length_fit]
      exact hge
    · rw [reheaped_capacity, reheaped_length]
  have htake := take_reheaped hs.placed a (Nat.le_refl s.size) (show s.size ≤ c by omega)
  have hroomy : newLen + 1 ≤ (s.reheaped a c).buffer.length := by
    rw [reheaped_length]
    exact hge
  by_cases hsmall : s.data = .small
  · have hmoved := cpySmbuf2data_eq hs.placed hsmall (show 0 < c by omega) (by omega) b hgiven
    have hheaped : s.heaped a c = s.reheaped a c := (if_pos hsmall).symm
    rw [hok, if_pos rfl, hheaped] at hmoved
    obtain ⟨t, hfill, hholds⟩ := grown_spec hs (reheaped_size s a c) htake hle hroomy
    have hkept := hholds.with_capacity c
    have hsame : ({ s.reheaped a c with capacity := c } : StringImpl) = s.reheaped a c := by
      have hcap := reheaped_capacity s a c
      generalize s.reheaped a c = u at hcap
      rw [← hcap]
    rw [hsame] at hkept
    obtain ⟨t', hstore, hholds'⟩ := hkept.store_nul (by rw [hkept.length, length_fit]; exact hroomy)
    rw [length_fit] at hstore
    refine ⟨t', ?_, hholds'⟩
    simp only [resize, hne, if_false, Nat.not_lt.mpr hle, hroom, hs.placed.useSbuf_eq b, hsmall,
      decide_true, if_true, assert_of, hlong hsmall, hc, hmoved, hfill, hstore, bind, Except.bind,
      pure, Except.pure, Bool.not_true, Bool.false_eq_true]
  · have hother : s.reheaped a c =
        { s with data := .heap (Block.moved a.fill c s.buffer), capacity := c } := if_neg hsmall
    rw [hother] at htake hroomy ⊢
    let u : StringImpl := { s with data := .heap (Block.moved a.fill c s.buffer) }
    obtain ⟨t, hfill, hholds⟩ := grown_spec (u := u) hs rfl htake hle hroomy
    refine ⟨{ t with capacity := c }, ?_, hholds.with_capacity c⟩
    simp only [resize, hne, if_false, Nat.not_lt.mpr hle, hroom, hs.placed.useSbuf_eq b, hsmall,
      decide_false, Bool.false_eq_true, hc, realloc_eq hgiven, hok, if_true, hfill, u, bind,
      Except.bind, pure, Except.pure]

end Resize

/-- A resize to a length that is not zero returns: the content fits the length, or there is no
memory and the string is as before. -/
theorem resize_spec {s : StringImpl} (hs : s.Stored) (b : Build) (a : StringAlloc) {newLen : Nat}
    (hne : newLen ≠ 0) (hlen : newLen < 2 ^ 30) :
    (∃ t, s.resize b a newLen = .ok (true, t) ∧ t.Sound ∧ t.bytes = fit newLen s.bytes) ∨
      (a.ok = false ∧ s.resize b a newLen = .ok (false, s)) := by
  by_cases hcut : newLen < s.size
  · obtain ⟨t, hresize, hsound, -, hbytes⟩ := resize_cut hs b a hne hcut
    exact Or.inl ⟨t, hresize, hsound, hbytes⟩
  have hle : s.size ≤ newLen := Nat.le_of_not_lt hcut
  by_cases hroom : newLen < s.capacity
  · obtain ⟨t, hresize, hsound, -, hbytes⟩ := resize_room hs b a hne hle hroom
    exact Or.inl ⟨t, hresize, hsound, hbytes⟩
  by_cases hshort : s.data = .small ∧ newLen < smallBufSize
  · exact Or.inl (resize_small hs b a hne hle hroom hshort.1 hshort.2)
  have hlong : s.data = .small → ¬ newLen < smallBufSize := fun hsmall h => hshort ⟨hsmall, h⟩
  obtain ⟨c, hc, -, -, hfits⟩ := nextCapacity_fits (show newLen + 1 ≤ 2 ^ 30 from hlen)
  cases hok : a.ok with
  | false => exact Or.inr ⟨rfl, resize_refused hs b hne hle hroom hlong hc hok⟩
  | true => exact Or.inl (resize_moved hs b hne hle hroom hlong hc hok hfits)

/-- On a stored string the resize is the resize of the bytes. -/
theorem resize_refines {s : StringImpl} (hs : s.Stored) (b : Build) (a : StringAlloc) {newLen : Nat}
    (hne : newLen ≠ 0) (hlen : newLen < 2 ^ 30) :
    ∃ ok r t, s.resize b a newLen = .ok (r, t) ∧ stringResize ok s.bytes newLen = (r, t.bytes) := by
  have hlenEq := hs.placed.bytes_length
  by_cases hcut : newLen < s.size
  · obtain ⟨t, hresize, -, -, hbytes⟩ := resize_cut hs b a hne hcut
    have hle := s.size_le_len
    refine ⟨true, true, t, hresize, ?_⟩
    rw [stringResize, if_neg hne, if_pos (by omega), hbytes, fit_of_le (by omega)]
  · have hgrow : ¬ newLen < s.bytes.length + 1 := by
      rw [hlenEq, len]
      split <;> omega
    have hall : s.bytes.take newLen = s.bytes := List.take_of_length_le (by omega)
    have hmodel (ok : Bool) : stringResize ok s.bytes newLen =
        if ok then (true, fit newLen s.bytes) else (false, s.bytes) := by
      rw [stringResize, if_neg hne, if_neg hgrow, fit, hall]
    rcases resize_spec hs b a hne hlen with ⟨t, hresize, -, hbytes⟩ | ⟨-, hresize⟩
    · exact ⟨true, true, t, hresize, by rw [hmodel, hbytes, if_pos rfl]⟩
    · exact ⟨false, false, s, hresize, hmodel false⟩

/-- `t` is `s` cut or filled up to `n` bytes, with its end marked. -/
structure Resized (s t : StringImpl) (n : Nat) : Prop where
  bytes : t.bytes = s.bytes.take (min s.len n) ++ List.replicate (n - s.len) 0
  len : t.len = n
  nul : t.buffer[n]? = some 0

theorem resized_of_fit {s t : StringImpl} {n : Nat} (hs : s.Stored) (ht : t.Sound)
    (h : t.bytes = fit n s.bytes) : Resized s t n := by
  have hlen := hs.placed.bytes_length
  have hlenT : t.len = n := by
    rw [← ht.placed.bytes_length, h, length_fit]
  refine ⟨?_, hlenT, hlenT ▸ ht.nul⟩
  rw [h, fit, hlen, Nat.min_comm, ← hlen, ← List.take_take, List.take_length]

/-- A resize with memory cuts or fills up in every storage state, and of two of them only the
shorter length is left to see. Every byte is stored within the buffer: a store past it does not
return. -/
theorem resize_resized (b : Build) {s : StringImpl} (hs : s.Stored) {alloc alloc' alloc'' : StringAlloc}
    (hok : alloc.ok = true) (hok' : alloc'.ok = true) (hok'' : alloc''.ok = true) {m n : Nat}
    (hm : 1 ≤ m) (hm' : m < 2 ^ 30) (hn : 1 ≤ n) (hn' : n < 2 ^ 30) :
    ∃ t, s.resize b alloc m = .ok (true, t) ∧ Resized s t m ∧
      ∃ u v, t.resize b alloc' n = .ok (true, u) ∧ Resized t u n ∧
        s.resize b alloc'' n = .ok (true, v) ∧
        u.bytes = v.bytes.take (min m n) ++ List.replicate (n - min m n) 0 := by
  have given {s : StringImpl} (hs : s.Stored) {a : StringAlloc} (ha : a.ok = true) {k : Nat}
      (hk : 1 ≤ k) (hk' : k < 2 ^ 30) :
      ∃ t, s.resize b a k = .ok (true, t) ∧ t.Sound ∧ t.bytes = fit k s.bytes := by
    rcases resize_spec hs b a (show k ≠ 0 by omega) hk' with h | ⟨hfalse, -⟩
    · exact h
    · rw [ha] at hfalse
      simp at hfalse
  obtain ⟨t, ht, htSound, htBytes⟩ := given hs hok hm hm'
  obtain ⟨u, hu, huSound, huBytes⟩ := given htSound.stored hok' hn hn'
  obtain ⟨v, hv, -, hvBytes⟩ := given hs hok'' hn hn'
  refine ⟨t, ht, resized_of_fit hs htSound htBytes, u, v, hu,
    resized_of_fit htSound.stored huSound huBytes, hv, ?_⟩
  have hcover : (v.bytes.take (min m n)).length = min m n := by
    rw [hvBytes, List.length_take, length_fit]
    omega
  rw [huBytes, htBytes, fit_fit, ← hvBytes]
  generalize v.bytes.take (min m n) = cut at hcover
  rw [fit, hcover, List.take_of_length_le (by omega)]

/-- Sixteen bytes in a block, which grow out of it and are cut again. -/
theorem resize_resized_sixteen :
    ∃ t, sixteen.resize .debug usedMemory 40 = .ok (true, t) ∧ Resized sixteen t 40 ∧
      ∃ u v, t.resize .debug usedMemory 3 = .ok (true, u) ∧ Resized t u 3 ∧
        sixteen.resize .debug usedMemory 3 = .ok (true, v) ∧
        u.bytes = v.bytes.take (min 40 3) ++ List.replicate (3 - min 40 3) 0 := by
  apply resize_resized .debug sixteen_sound.stored
  · rfl
  · rfl
  · rfl
  · omega
  · omega
  · omega
  · omega

end StringImpl

end LiteHttp
