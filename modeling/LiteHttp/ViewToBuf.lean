import LiteHttp.StringRep

/-!
# Copying a view into a buffer

`string_view_to_buf` of util/string_t.c on the object its pointer leads to. A view as
long as the buffer is taken for one that fits, and its terminator goes behind the
buffer.
-/

namespace LiteHttp

set_option autoImplicit false

/-- The object a `char*` points to, and the indices stored to through the pointer. -/
structure CharBuf where
  cells : Bytes
  written : List Nat
  deriving DecidableEq, Repr

namespace CharBuf

def fresh (cells : Bytes) : CharBuf := ⟨cells, []⟩

/-- Bytes stored from `off` on. -/
def store (buf : CharBuf) (off : Nat) (xs : Bytes) : Except Fault CharBuf :=
  if off + xs.length ≤ buf.cells.length then
    .ok ⟨Block.write buf.cells off xs, buf.written ++ List.range' off xs.length⟩
  else .error .undefined

end CharBuf

/-- `string_view_to_buf`. A null view covers no bytes, and none are copied from it. -/
def stringViewToBuf (sv : StringView) (buf : CharBuf) (bufLen : Nat) :
    Except Fault (Bool × CharBuf) :=
  let cpyLen := sv.bytes.length
  if bufLen < cpyLen then
    if bufLen < 1 then .ok (false, buf)
    else do
      let buf ← buf.store 0 (sv.bytes.take (bufLen - 1))
      let buf ← buf.store (bufLen - 1) [0]
      return (false, buf)
  else do
    let buf ← buf.store 0 sv.bytes
    let buf ← buf.store cpyLen [0]
    return (true, buf)

namespace CharBuf

variable {buf : CharBuf} {off : Nat} {xs text cells : Bytes}

theorem store_of_le (h : off + xs.length ≤ buf.cells.length) : buf.store off xs =
    .ok ⟨Block.write buf.cells off xs, buf.written ++ List.range' off xs.length⟩ := if_pos h

theorem store_of_lt (h : buf.cells.length < off + xs.length) :
    buf.store off xs = .error .undefined := if_neg (Nat.not_le.mpr h)

/-- A buffer after a text and its NUL were stored at the start. -/
structure Holds (buf : CharBuf) (cells text : Bytes) : Prop where
  content : buf.cells.take (text.length + 1) = text ++ [0]
  same_length : buf.cells.length = cells.length
  indices : ∀ i, i ∈ buf.written ↔ i ≤ text.length

/-- A text and its NUL, stored one behind the other, have room exactly in a longer object. -/
theorem store_terminated (h : text.length < cells.length) : ∃ buf : CharBuf, buf.Holds cells text ∧
    ((fresh cells).store 0 text >>= fun buf => buf.store text.length [0]) = .ok buf := by
  have htext : 0 + text.length ≤ cells.length := by omega
  have hnul : text.length + [(0 : Byte)].length ≤ (Block.write cells 0 text).length := by
    rw [Block.length_write]
    exact h
  refine ⟨⟨Block.write (Block.write cells 0 text) text.length [0],
    List.range' 0 text.length ++ List.range' text.length 1⟩, ?_, ?_⟩
  · constructor
    · have hput := Block.take_write htext
      rw [Nat.zero_add, List.take_zero, List.nil_append] at hput
      exact (Block.take_write hnul).trans (by rw [hput])
    · simp only [Block.length_write]
    · intro i
      simp only [List.mem_append, List.mem_range'_1]
      omega
  · rw [fresh, store_of_le htext]
    exact store_of_le hnul

theorem store_unterminated (h : cells.length = text.length) :
    ((fresh cells).store 0 text >>= fun buf => buf.store text.length [0]) = .error .undefined := by
  rw [fresh, store_of_le (show 0 + text.length ≤ cells.length by omega)]
  apply store_of_lt
  simp only [Block.length_write, List.length_singleton]
  omega

theorem Holds.cstr (h : buf.Holds cells text) : toCstr buf.cells = toCstr text := by
  have hsplit := List.take_append_drop (text.length + 1) buf.cells
  rw [h.content] at hsplit
  rw [← hsplit, toCstr_append_of_mem (List.mem_append_right _ List.mem_cons_self)]
  by_cases hnul : 0 ∈ text
  · exact toCstr_append_of_mem hnul [0]
  · rw [toCstr_append_of_free hnul, toCstr_of_free hnul]
    exact List.append_nil text

end CharBuf

section Cases

variable {sv : StringView} {cells : Bytes} {bufLen : Nat}

theorem stringViewToBuf_long (hlen : bufLen < sv.bytes.length) (hpos : 1 ≤ bufLen)
    (hfits : bufLen ≤ cells.length) : ∃ buf : CharBuf,
    buf.Holds cells (sv.bytes.take (bufLen - 1)) ∧
      stringViewToBuf sv (.fresh cells) bufLen = .ok (false, buf) := by
  have htake : (sv.bytes.take (bufLen - 1)).length = bufLen - 1 := by
    rw [List.length_take]
    omega
  obtain ⟨buf, hbuf, hrun⟩ :=
    CharBuf.store_terminated (show (sv.bytes.take (bufLen - 1)).length < cells.length by omega)
  obtain ⟨mid, hmid, hrun⟩ := bind_ok hrun
  rw [htake] at hrun
  refine ⟨buf, hbuf, ?_⟩
  simp only [stringViewToBuf, hlen, Nat.not_lt.mpr hpos, if_true, if_false, hmid, hrun, bind,
    Except.bind, pure, Except.pure]

theorem stringViewToBuf_short (hlen : sv.bytes.length < bufLen) (hfits : bufLen ≤ cells.length) :
    ∃ buf : CharBuf, buf.Holds cells sv.bytes ∧
      stringViewToBuf sv (.fresh cells) bufLen = .ok (true, buf) := by
  obtain ⟨buf, hbuf, hrun⟩ :=
    CharBuf.store_terminated (show sv.bytes.length < cells.length by omega)
  obtain ⟨mid, hmid, hrun⟩ := bind_ok hrun
  refine ⟨buf, hbuf, ?_⟩
  simp only [stringViewToBuf, Nat.not_lt.mpr (Nat.le_of_lt hlen), if_false, hmid, hrun, bind,
    Except.bind, pure, Except.pure]

theorem stringViewToBuf_equal (hlen : sv.bytes.length = bufLen) {r : Bool × CharBuf}
    (h : stringViewToBuf sv (.fresh cells) bufLen = .ok r) : r.1 = true := by
  simp only [stringViewToBuf, hlen, Nat.lt_irrefl, if_false] at h
  obtain ⟨buf, -, h⟩ := bind_ok h
  obtain ⟨buf', -, h⟩ := bind_ok h
  rw [← pure_ok.mp h]

/-- The terminator of a view as long as the buffer is stored behind the buffer. -/
theorem stringViewToBuf_overrun (hlen : sv.bytes.length = bufLen) (hcells : cells.length = bufLen) :
    stringViewToBuf sv (.fresh cells) bufLen = .error .undefined := by
  have hrun := CharBuf.store_unterminated (hcells.trans hlen.symm)
  have hcopy : (CharBuf.fresh cells).store 0 sv.bytes = .ok
      ⟨Block.write cells 0 sv.bytes, [] ++ List.range' 0 sv.bytes.length⟩ :=
    CharBuf.store_of_le (show 0 + sv.bytes.length ≤ cells.length by omega)
  rw [hcopy] at hrun
  simp only [bind, Except.bind] at hrun
  simp only [stringViewToBuf, ← hlen, Nat.lt_irrefl, if_false, hcopy, hrun, bind, Except.bind]

end Cases

/-- What a `char*` made of a view reads as, in a buffer with room for the view and its NUL. -/
theorem stringViewToBuf_cstr {sv : StringView} {cells : Bytes}
    (h : cells.length = sv.bytes.length + 1) : ∃ buf : CharBuf,
      stringViewToBuf sv (.fresh cells) cells.length = .ok (true, buf) ∧
        toCstr buf.cells = toCstr sv.bytes := by
  obtain ⟨buf, hbuf, hrun⟩ :=
    stringViewToBuf_short (show sv.bytes.length < cells.length by omega) (Nat.le_refl _)
  exact ⟨buf, hrun, hbuf.cstr⟩

/-- The call keeps to the first `bufLen` indices, leaves there as much of the view as fits with
its NUL, and says whether that is all of it. -/
def RespectsBuf (sv : StringView) (cells : Bytes) (bufLen : Nat) : Prop :=
  ∃ fits buf, stringViewToBuf sv (.fresh cells) bufLen = .ok (fits, buf) ∧
    (∀ i ∈ buf.written, i < bufLen) ∧
    buf.cells.take (min sv.bytes.length (bufLen - 1) + 1) =
      sv.bytes.take (min sv.bytes.length (bufLen - 1)) ++ [0] ∧
    (fits = true ↔ sv.bytes.length < bufLen)

theorem CharBuf.Holds.respects {sv : StringView} {cells : Bytes} {bufLen : Nat} {buf : CharBuf}
    (hpos : 1 ≤ bufLen) (h : buf.Holds cells (sv.bytes.take (min sv.bytes.length (bufLen - 1)))) :
    (∀ i ∈ buf.written, i < bufLen) ∧ buf.cells.take (min sv.bytes.length (bufLen - 1) + 1) =
      sv.bytes.take (min sv.bytes.length (bufLen - 1)) ++ [0] := by
  have hlen : (sv.bytes.take (min sv.bytes.length (bufLen - 1))).length =
      min sv.bytes.length (bufLen - 1) := by
    rw [List.length_take]
    omega
  constructor
  · intro i hi
    have hle := (h.indices i).mp hi
    omega
  · have hcontent := h.content
    rwa [hlen] at hcontent

/-- A copy keeps to its buffer exactly when the view is not as long as the buffer. -/
theorem respectsBuf_iff {sv : StringView} {cells : Bytes} {bufLen : Nat} (hpos : 1 ≤ bufLen)
    (hfits : bufLen ≤ cells.length) :
    RespectsBuf sv cells bufLen ↔ sv.bytes.length ≠ bufLen := by
  constructor
  · intro h hlen
    obtain ⟨fits, buf, hrun, -, -, hret⟩ := h
    have hlt := hret.mp (stringViewToBuf_equal hlen hrun)
    omega
  · intro hne
    rcases Nat.lt_or_gt_of_ne hne with hlt | hlt
    · have hmin : min sv.bytes.length (bufLen - 1) = sv.bytes.length := by omega
      obtain ⟨buf, hbuf, hrun⟩ := stringViewToBuf_short hlt hfits
      rw [← List.take_length (l := sv.bytes), ← hmin] at hbuf
      obtain ⟨hin, hcontent⟩ := hbuf.respects hpos
      exact ⟨true, buf, hrun, hin, hcontent, iff_of_true rfl hlt⟩
    · have hmin : min sv.bytes.length (bufLen - 1) = bufLen - 1 := by omega
      obtain ⟨buf, hbuf, hrun⟩ := stringViewToBuf_long hlt hpos hfits
      rw [← hmin] at hbuf
      obtain ⟨hin, hcontent⟩ := hbuf.respects hpos
      exact ⟨false, buf, hrun, hin, hcontent, iff_of_false (by decide) (by omega)⟩

/-- Four bytes of a longer text into a buffer of five. -/
theorem respectsBuf_part : RespectsBuf (some (stringViewSubstr (ascii "header".toList) 1 4))
    (List.replicate 5 170) 5 :=
  (respectsBuf_iff (by decide) (by decide)).mpr (by decide)

/-- Four bytes into a buffer of four: the NUL is stored at index 4, which a buffer of its own
does not have, and the call answers that the view fits. -/
theorem equal_not_respectsBuf :
    stringViewToBuf (some (ascii "head".toList)) (.fresh (List.replicate 6 170)) 4 =
      .ok (true, ⟨ascii "head".toList ++ [0, 170], [0, 1, 2, 3, 4]⟩) ∧
    stringViewToBuf (some (ascii "head".toList)) (.fresh (List.replicate 4 170)) 4 =
      .error .undefined ∧
    ¬ RespectsBuf (some (ascii "head".toList)) (List.replicate 6 170) 4 ∧
    ¬ RespectsBuf (some (ascii "head".toList)) (List.replicate 4 170) 4 := by
  have hlong : stringViewToBuf (some (ascii "head".toList)) (.fresh (List.replicate 6 170)) 4 =
      .ok (true, ⟨ascii "head".toList ++ [0, 170], [0, 1, 2, 3, 4]⟩) := by rfl
  have hexact : stringViewToBuf (some (ascii "head".toList)) (.fresh (List.replicate 4 170)) 4 =
      .error .undefined := stringViewToBuf_overrun rfl rfl
  refine ⟨hlong, hexact, ?_, ?_⟩
  · intro h
    obtain ⟨fits, buf, hrun, -, -, hret⟩ := h
    rw [hlong, Except.ok.injEq, Prod.mk.injEq] at hrun
    exact absurd (hret.mp hrun.1.symm) (by decide)
  · intro h
    obtain ⟨fits, buf, hrun, -⟩ := h
    rw [hexact] at hrun
    cases hrun

end LiteHttp
