import LiteHttp.Message
import LiteHttp.StringSpec
import LiteHttp.ViewToBuf

/-!
# Printing an `int`

`int_to_string_t` of util/string_t.c: the digits are counted, a buffer of that size is
printed into and the string is made of the buffer. The count takes the absolute value of
the number as an `int`, and the smallest `int` has none.
-/

namespace LiteHttp

set_option autoImplicit false

def intMin : Int := -2 ^ 31
def intMax : Int := 2 ^ 31 - 1

/-- An `int` has 32 bits. -/
abbrev CInt := { n : Int // intMin ≤ n ∧ n ≤ intMax }

/-- The unary minus of C, undefined where its value is no `int`. -/
def CInt.neg (d : CInt) : Except Fault CInt :=
  if h : intMin ≤ -d.1 ∧ -d.1 ≤ intMax then .ok ⟨-d.1, h⟩ else .error .undefined

/-- `while (num > 0) { num /= 10; ++buf_len; }`. -/
def digitLoop (num : Int) (bufLen : Nat) : Nat :=
  if 0 < num then digitLoop (num / 10) (bufLen + 1) else bufLen
termination_by num.toNat
decreasing_by omega

/-- The `buf_len` that `int_to_string_t` computes for a number other than zero. -/
def intBufLen (d : CInt) : Except Fault Nat := do
  let num ← if d.1 < 0 then d.neg else pure d
  let bufLen := digitLoop num.1 1
  return if d.1 < 0 then bufLen + 1 else bufLen

/-- What `%d` prints. -/
def printInt (d : Int) : Bytes := if d < 0 then 45 :: decimal d.natAbs else decimal d.natAbs

/-- The C library's `snprintf` of a text: what has room with the NUL is stored. -/
def snprintf (buf : CharBuf) (n : Nat) (text : Bytes) : Except Fault CharBuf :=
  if n = 0 then .ok buf
  else do
    let buf ← buf.store 0 (text.take (n - 1))
    buf.store (text.take (n - 1)).length [0]

/-- `int_to_string_t`; no string where it answers false. `stack` is what `digit_buf` holds
before. -/
def intToStringT (a : StringAlloc) (stack : Nat → Byte) (d : CInt) :
    Except Fault (Option StringImpl) :=
  if d.1 = 0 then StringImpl.initFromCstr a (some (ascii ['0']))
  else do
    let bufLen ← intBufLen d
    let digitBuf ← snprintf (.fresh ((List.range bufLen).map stack)) bufLen (printInt d.1)
    StringImpl.initFromCstr a (some digitBuf.cells)

/-- The length of a number in decimal grows with each division by ten. -/
theorem length_decimal_of_le {n : Nat} (h : 10 ≤ n) :
    (decimal n).length = (decimal (n / 10)).length + 1 := by
  rw [decimal, ascii, Nat.toDigits_of_base_le (by decide) h]
  simp [decimal, ascii]

theorem digitLoop_eq {n : Nat} (hn : 0 < n) (k : Nat) :
    digitLoop n k = (decimal n).length + k := by
  induction n using Nat.strong_induction_on generalizing k with
  | _ n ih =>
    rw [digitLoop, if_pos (by omega)]
    by_cases hlt : n < 10
    · have hzero : ((n : Int) / 10) = 0 := by omega
      rw [hzero, digitLoop, if_neg (by omega), decimal, Nat.toDigits_of_lt_base hlt]
      simp [ascii, Nat.add_comm]
    · have hdiv : ((n : Int) / 10) = ((n / 10 : Nat) : Int) := by omega
      rw [hdiv, ih (n / 10) (by omega) (by omega), length_decimal_of_le (n := n) (by omega)]
      omega

theorem decimal_head {n : Nat} (hn : 0 < n) : (decimal n).head? ≠ some 48 := by
  induction n using Nat.strong_induction_on with
  | _ n ih =>
    by_cases hlt : n < 10
    · have hall : ∀ n < 10, 0 < n → (decimal n).head? ≠ some 48 := by decide
      exact hall n hlt hn
    · have hsplit : decimal n = decimal (n / 10) ++ ascii [Nat.digitChar (n % 10)] := by
        rw [decimal, ascii, Nat.toDigits_of_base_le (by decide) (by omega), List.map_append]
        rfl
      rw [hsplit, List.head?_append_of_ne_nil _ (decimal_ne_nil _)]
      exact ih (n / 10) (by omega) (by omega)

theorem decimal_no_nul (n : Nat) : 0 ∉ decimal n := by
  intro hnul
  exact (not_isSpace_of_isDigit (isDigit_of_mem_decimal hnul)).2.2.2 rfl

theorem printInt_no_nul (d : Int) : 0 ∉ printInt d := by
  unfold printInt
  split
  · rw [List.mem_cons, not_or]
    exact ⟨by decide, decimal_no_nul d.natAbs⟩
  · exact decimal_no_nul d.natAbs

/-- `text` is the canonical decimal representation of `d`: a minus sign in front of the digits
of a negative number only, no zero in front of other digits, and `strtoll` reads all of it
back as `d`. -/
structure CanonicalInt (d : Int) (text : Bytes) : Prop where
  parts : ∃ digits, text = (if d < 0 then 45 :: digits else digits) ∧ digits ≠ [] ∧
    (∀ c ∈ digits, isDigit c = true) ∧ (digits.head? = some 48 → digits = [48])
  reads : strtoll text = (d, text.length)

/-- `strtoll` on digits behind at most a minus sign. -/
theorem strtoll_digits {text digits : Bytes} (neg : Bool)
    (htext : text = if neg then 45 :: digits else digits) (hne : digits ≠ [])
    (hdigits : ∀ c ∈ digits, isDigit c = true)
    (hfits : (decimalValue digits : Int) ≤ int64Max) :
    strtoll text = ((if neg then -(decimalValue digits : Int) else decimalValue digits),
      text.length) := by
  obtain ⟨c, cs, rfl⟩ := List.exists_cons_of_ne_nil hne
  obtain ⟨hspace, hminus, hplus, -⟩ := not_isSpace_of_isDigit (hdigits c List.mem_cons_self)
  have hscan : (c :: cs).takeWhile isDigit = c :: cs := takeWhile_isDigit hdigits
  have hmax : min int64Max (decimalValue (c :: cs) : Int) = decimalValue (c :: cs) := by omega
  cases neg with
  | true =>
    have hskip : ((45 : Byte) :: c :: cs).dropWhile isSpace = 45 :: c :: cs :=
      List.dropWhile_cons_of_neg (by decide)
    have hlow : max int64Min (min int64Max (-(decimalValue (c :: cs) : Int))) =
        -(decimalValue (c :: cs) : Int) := by
      unfold int64Max int64Min at *
      omega
    simp only [if_true] at htext ⊢
    rw [htext]
    simp only [strtoll, hskip, List.head?_cons, true_or, if_true, List.tail_cons, hscan,
      reduceCtorEq, if_false, hlow, List.length_cons, Prod.mk.injEq, true_and]
    omega
  | false =>
    have hskip : (c :: cs).dropWhile isSpace = c :: cs :=
      List.dropWhile_cons_of_neg (by rw [hspace]; decide)
    have hlow : max int64Min (min int64Max (decimalValue (c :: cs) : Int)) =
        decimalValue (c :: cs) := by
      unfold int64Max int64Min at *
      omega
    simp only [Bool.false_eq_true, if_false] at htext ⊢
    rw [htext]
    simp only [strtoll, hskip, List.head?_cons, Option.some.injEq, hminus, hplus, or_self,
      if_false, hscan, reduceCtorEq, hlow, Prod.mk.injEq, true_and]
    omega

/-- What `%d` prints is canonical. -/
theorem canonicalInt_printInt (d : CInt) : CanonicalInt d.1 (printInt d.1) := by
  have hne := decimal_ne_nil d.1.natAbs
  have hdigits : ∀ c ∈ decimal d.1.natAbs, isDigit c = true := fun c hc => isDigit_of_mem_decimal hc
  have hrange := d.2
  have hvalue : (decimalValue (decimal d.1.natAbs) : Int) = d.1.natAbs := by
    rw [decimalValue_decimal]
  constructor
  · refine ⟨decimal d.1.natAbs, rfl, hne, hdigits, ?_⟩
    intro hzero
    by_cases hpos : 0 < d.1.natAbs
    · exact absurd hzero (decimal_head hpos)
    · rw [show d.1.natAbs = 0 by omega]
      rfl
  · have htext : printInt d.1 = if decide (d.1 < 0) then 45 :: decimal d.1.natAbs
        else decimal d.1.natAbs := by
      simp only [decide_eq_true_eq]
      rfl
    have hfits : (decimalValue (decimal d.1.natAbs) : Int) ≤ int64Max := by
      rw [hvalue]
      unfold intMin intMax at hrange
      unfold int64Max
      omega
    rw [strtoll_digits (decide (d.1 < 0)) htext hne hdigits hfits, hvalue]
    simp only [decide_eq_true_eq, Prod.mk.injEq, and_true]
    split
    · omega
    · omega

theorem neg_eq {d : CInt} (hneg : d.1 < 0) (hmin : d.1 ≠ intMin) :
    ∃ n : CInt, d.neg = .ok n ∧ n.1 = (d.1.natAbs : Int) := by
  have hrange := d.2
  have hfits : intMin ≤ -d.1 ∧ -d.1 ≤ intMax := by
    unfold intMin intMax at *
    omega
  exact ⟨⟨-d.1, hfits⟩, dif_pos hfits, show -d.1 = (d.1.natAbs : Int) by omega⟩

theorem neg_intMin {d : CInt} (hmin : d.1 = intMin) : d.neg = .error .undefined := by
  apply dif_neg
  rw [hmin]
  unfold intMin intMax
  omega

/-- The buffer has room for the text and its NUL, and no more. -/
theorem intBufLen_eq {d : CInt} (hzero : d.1 ≠ 0) (hmin : d.1 ≠ intMin) :
    intBufLen d = .ok ((printInt d.1).length + 1) := by
  have hpos : 0 < d.1.natAbs := by omega
  unfold intBufLen printInt
  by_cases hneg : d.1 < 0
  · obtain ⟨n, hn, habs⟩ := neg_eq hneg hmin
    simp only [hneg, if_true, hn, habs, digitLoop_eq hpos, List.length_cons, bind, Except.bind,
      pure, Except.pure]
  · have habs : d.1 = (d.1.natAbs : Int) := by omega
    have hcount := digitLoop_eq hpos 1
    rw [← habs] at hcount
    simp only [hneg, if_false, hcount, bind, Except.bind, pure, Except.pure]

theorem intBufLen_intMin {d : CInt} (hmin : d.1 = intMin) : intBufLen d = .error .undefined := by
  have hneg : d.1 < 0 := by
    rw [hmin]
    decide
  simp only [intBufLen, hneg, if_true, neg_intMin hmin, bind, Except.bind]

/-- A text printed into a buffer with room for it and its NUL is all of it there. -/
theorem snprintf_fits {cells text : Bytes} (h : cells.length = text.length + 1) :
    ∃ buf, snprintf (.fresh cells) (text.length + 1) text = .ok buf ∧
      toCstr buf.cells = toCstr text := by
  obtain ⟨buf, hbuf, hrun⟩ := CharBuf.store_terminated (show text.length < cells.length by omega)
  refine ⟨buf, ?_, hbuf.cstr⟩
  simp only [snprintf, Nat.add_one_ne_zero, if_false, Nat.add_one_sub_one, List.take_length]
  exact hrun

/-- A text shorter than the small buffer needs no memory of the allocator. -/
theorem initFromCstr_short (a : StringAlloc) {cstr : Bytes}
    (h : (toCstr cstr).length < smallBufSize) : ∃ s,
      StringImpl.initFromCstr a (some cstr) = .ok (some s) ∧ s.bytes = toCstr cstr := by
  have hfit : 0 + (toCstr cstr).length + 1 ≤ StringImpl.init.buffer.length := by
    rw [StringImpl.buffer_small rfl]
    omega
  obtain ⟨s, hcpy, -⟩ := StringImpl.cpySv2str_holds (by decide) hfit
  have hinit : StringImpl.initFromCstr a (some cstr) = .ok (some s) := by
    simp only [StringImpl.initFromCstr, StringView.fromCstr, Option.map_some,
      StringImpl.initFromStringView, h, if_true, hcpy, bind, Except.bind, pure, Except.pure]
  exact ⟨s, hinit, (StringImpl.initFromStringView_sound hinit).2⟩

theorem length_printInt_lt (d : CInt) : (printInt d.1).length < smallBufSize := by
  have hdigits : (decimal d.1.natAbs).length ≤ 10 := by
    rw [decimal, ascii, List.length_map, Nat.length_toDigits_le_iff (by decide) (by decide)]
    have hrange := d.2
    unfold intMin intMax at hrange
    omega
  unfold printInt smallBufSize
  split
  · rw [List.length_cons]
    omega
  · omega

/-- The call makes a string of the canonical text of `d`, out of a buffer with room for it. -/
def PrintsInt (a : StringAlloc) (stack : Nat → Byte) (d : CInt) : Prop :=
  ∃ s, intToStringT a stack d = .ok (some s) ∧ CanonicalInt d.1 s.bytes ∧
    (d.1 ≠ 0 → ∃ bufLen, intBufLen d = .ok bufLen ∧ s.bytes.length < bufLen)

theorem printsInt_of_ne {a : StringAlloc} {stack : Nat → Byte} {d : CInt} (hmin : d.1 ≠ intMin) :
    PrintsInt a stack d := by
  have hcstr := toCstr_of_free (printInt_no_nul d.1)
  by_cases hzero : d.1 = 0
  · have hprint : toCstr (ascii ['0']) = printInt d.1 := by
      rw [hzero]
      rfl
    have hshort : (toCstr (ascii ['0'])).length < smallBufSize := by decide
    obtain ⟨s, hinit, hbytes⟩ := initFromCstr_short a hshort
    refine ⟨s, by rw [intToStringT, if_pos hzero, hinit], ?_, fun h => absurd hzero h⟩
    rw [hbytes, hprint]
    exact canonicalInt_printInt d
  · have hlen := intBufLen_eq hzero hmin
    have hroom : ((List.range ((printInt d.1).length + 1)).map stack).length =
        (printInt d.1).length + 1 := by
      rw [List.length_map, List.length_range]
    obtain ⟨buf, hsnprintf, hbuf⟩ := snprintf_fits hroom
    rw [hcstr] at hbuf
    have hshort : (toCstr buf.cells).length < smallBufSize := by
      rw [hbuf]
      exact length_printInt_lt d
    obtain ⟨s, hinit, hbytes⟩ := initFromCstr_short a hshort
    refine ⟨s, ?_, ?_, ?_⟩
    · simp only [intToStringT, hzero, if_false, hlen, hsnprintf, hinit, bind, Except.bind]
    · rw [hbytes, hbuf]
      exact canonicalInt_printInt d
    · intro _
      refine ⟨(printInt d.1).length + 1, hlen, ?_⟩
      rw [hbytes, hbuf]
      omega

theorem intToStringT_intMin {d : CInt} (hmin : d.1 = intMin) (a : StringAlloc)
    (stack : Nat → Byte) : intToStringT a stack d = .error .undefined := by
  have hzero : ¬ d.1 = 0 := by
    rw [hmin]
    decide
  simp only [intToStringT, hzero, if_false, intBufLen_intMin hmin, bind, Except.bind]

/-- Every `int` but the smallest is printed. -/
theorem printsInt_iff (a : StringAlloc) (stack : Nat → Byte) (d : CInt) :
    PrintsInt a stack d ↔ d.1 ≠ intMin := by
  constructor
  · intro h hmin
    obtain ⟨s, hrun, -⟩ := h
    rw [intToStringT_intMin hmin] at hrun
    cases hrun
  · exact printsInt_of_ne

/-- The negation of the smallest `int` overflows. -/
theorem intMin_not_printsInt :
    intToStringT usedMemory (fun _ => 170) ⟨intMin, by decide⟩ = .error .undefined ∧
      ¬ PrintsInt usedMemory (fun _ => 170) ⟨intMin, by decide⟩ := by
  have hrun := intToStringT_intMin (d := ⟨intMin, by decide⟩) rfl usedMemory fun _ => 170
  refine ⟨hrun, ?_⟩
  intro h
  obtain ⟨s, hs, -⟩ := h
  rw [hrun] at hs
  cases hs

end LiteHttp
