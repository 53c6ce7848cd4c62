import LiteHttp.Appending
import LiteHttp.Growth

/-!
# Reserved capacity

A reserve that succeeds gives the capacity it was asked for. What of it is left
depends on the calls behind it: an append takes the capacity of its own result
instead, from memory of its own.
-/

namespace LiteHttp

open Run Power

set_option autoImplicit false

/-- The content an append or a resize makes of `content`. -/
def StringOp.result (content : Bytes) : StringOp → Option Bytes
  | .resize newLen => some (fit newLen content)
  | op => op.piece?.map (content ++ ·)

/-- An append or a resize whose result, with its NUL, has `c` bytes at most. -/
def StaysWithin (c : Nat) (s : StringImpl) (call : StringCall) : Prop :=
  ∃ text, call.op.result s.bytes = some text ∧ text.length + 1 ≤ c

/-- The call succeeds, with the content it should have, and the capacity is still there. -/
def Kept (b : Build) (c : Nat) (s : StringImpl) (call : StringCall) : Prop :=
  ∃ t, stringStep b s call = .ok (true, t) ∧ c ≤ t.capacity ∧ call.op.result s.bytes = some t.bytes

/-- An append needs memory, sizes that the growth arithmetic can take, and no power of two below
`c` that would do for its result; a resize only a length that is not zero. -/
def KeepsRoom (c : Nat) (s : StringImpl) (call : StringCall) : Prop :=
  match call.op.piece? with
  | some piece =>
    let newSize := piece.length + s.len + 1
    call.alloc.ok = true ∧ s.len < 2 ^ 31 ∧ newSize ≤ ptrdiffMax ∧
      (newSize.isPowerOfTwo ∨ newSize ≤ 2 ^ 30) ∧ ∀ k, k.isPowerOfTwo → newSize ≤ k → c ≤ k
  | none => call.op ≠ .resize 0

namespace StringImpl

theorem reserve_true {s t : StringImpl} (hs : s.Stored) {b : Build} {a : StringAlloc} {c : Nat}
    (h : s.reserve b a c = .ok (true, t)) : t.Stored ∧ c ≤ t.capacity := by
  by_cases hsize : c ≤ s.size
  · simp [reserve, hsize] at h
  by_cases hmore : c ≤ s.capacity
  · simp only [reserve, hsize, hmore, if_false, if_true, Except.ok.injEq, Prod.mk.injEq, true_and] at h
    exact h ▸ ⟨hs, hmore⟩
  cases hc : nextCapacity c with
  | none => simp [reserve, hsize, hmore, hc] at h
  | some k =>
    have hge := nextCapacity_ge hc
    by_cases hfits : a.ok = true → k ≤ ptrdiffMax
    · have hmoved := reserve_moved hs.placed b hsize hmore hc hfits
      rw [hmoved, Except.ok.injEq] at h
      split at h
      · rw [Prod.mk.injEq] at h
        obtain ⟨-, rfl⟩ := h
        exact ⟨reheaped_stored hs a (by omega) (by omega), by rw [reheaped_capacity]; exact hge⟩
      · simp at h
    · rw [Classical.not_imp] at hfits
      have hbig : malloc a.ok k = .error .undefined := by
        rw [malloc, if_pos ⟨hfits.1, Nat.lt_of_not_le hfits.2⟩]
      by_cases hsmall : s.data = .small
      · simp [reserve, hsize, hmore, hc, hs.placed.useSbuf_eq b, hsmall, cpySmbuf2data, hbig,
          assert_of (hs.placed.small hsmall), assert_of (show k ≠ 0 by omega), assert_of, bind,
          Except.bind] at h
      · simp [reserve, hsize, hmore, hc, hs.placed.useSbuf_eq b, hsmall, realloc, hbig, bind,
          Except.bind] at h

/-- An append that returned had memory, and sizes the growth arithmetic can take. -/
theorem appendView_inv {s t : StringImpl} (hs : s.Placed) {b : Build} {a : StringAlloc}
    {sv : StringView} (hok : a.ok = true) {r : Bool} (h : s.appendView b a sv = .ok (r, t)) :
    s.len < 2 ^ 31 ∧ ∃ c, nextCapacity (sv.bytes.length + s.len + 1) = some c ∧ c ≤ ptrdiffMax := by
  cases hc : nextCapacity (sv.bytes.length + s.len + 1) with
  | none => simp [appendView, hc] at h
  | some c =>
    have hge := nextCapacity_ge hc
    by_cases hfits : c ≤ ptrdiffMax
    · refine ⟨?_, c, rfl, hfits⟩
      by_contra hold
      by_cases hsmall : s.data = .small
      · have hlen := s.len_le_size
        have hsize : s.size ≤ smallBufSize := buffer_small hsmall ▸ hs.size_le
        unfold smallBufSize at hsize
        omega
      · have hcpy (u : StringImpl) : u.cpySv2str sv.bytes s.len = .error .undefined :=
          if_pos (Nat.le_of_not_lt hold)
        simp [appendView, hc, hs.useSbuf_eq b, hsmall, realloc_eq fun _ => hfits, hok, hcpy, bind,
          Except.bind] at h
    · have hbig : malloc a.ok c = .error .undefined := by
        rw [malloc, if_pos ⟨hok, Nat.lt_of_not_le hfits⟩]
      by_cases hsmall : s.data = .small
      · simp [appendView, hc, hs.useSbuf_eq b, hsmall, cpySmbuf2data, hbig,
          assert_of (hs.small hsmall), assert_of (show c ≠ 0 by omega), assert_of, bind,
          Except.bind] at h
      · simp [appendView, hc, hs.useSbuf_eq b, hsmall, realloc, hbig, bind, Except.bind] at h

end StringImpl

section Step

variable (b : Build) {s : StringImpl} (hs : s.Stored) {c : Nat} {call : StringCall}

/-- What a call that stays within the reserve is: a resize, or an append. -/
theorem staysWithin_cases (hin : StaysWithin c s call) :
    (∃ newLen, call.op = .resize newLen ∧ newLen + 1 ≤ c) ∨
      ∃ piece, call.op.piece? = some piece ∧ call.op.result s.bytes = some (s.bytes ++ piece) := by
  obtain ⟨text, hresult, hlen⟩ := hin
  by_cases hop : ∃ newLen, call.op = .resize newLen
  · obtain ⟨newLen, hop⟩ := hop
    rw [hop, StringOp.result, Option.some.injEq] at hresult
    rw [← hresult, length_fit] at hlen
    exact Or.inl ⟨newLen, hop, hlen⟩
  · have hmap : call.op.result s.bytes = call.op.piece?.map (s.bytes ++ ·) := by
      unfold StringOp.result
      split
      · rename_i newLen heq
        exact absurd ⟨newLen, heq⟩ hop
      · rfl
    rw [hmap] at hresult
    obtain ⟨piece, hpiece, -⟩ := Option.map_eq_some_iff.mp hresult
    exact Or.inr ⟨piece, hpiece, by rw [hmap, hpiece, Option.map_some]⟩

theorem piece_of_isPushBack {op : StringOp} (h : op.isPushBack = true) : op.piece? ≠ some [] := by
  cases op with
  | pushBack ch => simp [StringOp.piece?]
  | _ => simp [StringOp.isPushBack] at h

include hs

theorem append_keepsRoom {piece : Bytes} (hpiece : call.op.piece? = some piece)
    (hresult : call.op.result s.bytes = some (s.bytes ++ piece)) (h : Kept b c s call) :
    KeepsRoom c s call := by
  obtain ⟨sv, hsv, hstep⟩ := stringStep_piece b s hpiece
  obtain ⟨t, hkept, hcap, htext⟩ := h
  rw [hresult, Option.some.injEq] at htext
  rw [hstep] at hkept
  cases happend : s.appendView b call.alloc sv with
  | error e => simp [happend, Except.map] at hkept
  | ok p =>
    simp only [happend, Except.map, Except.ok.injEq, Prod.mk.injEq] at hkept
    obtain ⟨hyes, rfl⟩ := hkept
    cases hok : call.alloc.ok with
    | false =>
      -- only a push back says yes here, and it had a character to append
      cases hc : nextCapacity (sv.bytes.length + s.len + 1) with
      | none => simp [StringImpl.appendView, hc] at happend
      | some k =>
        rw [StringImpl.appendView_refused hs.placed b hc hok, Except.ok.injEq] at happend
        subst happend
        rw [List.append_right_eq_self.mp htext] at hpiece
        exact absurd hpiece (piece_of_isPushBack hyes)
    | true =>
      obtain ⟨hold, k, hk, hfits⟩ := StringImpl.appendView_inv hs.placed hok happend
      obtain ⟨u, hu, -, hucap, -⟩ := StringImpl.appendView_grown hs.placed b hk hok hfits hold
      have hge := nextCapacity_ge hk
      have hbig : sv.bytes.length + s.len + 1 ≤ 2 ^ 63 := by
        unfold ptrdiffMax at hfits
        omega
      rw [hu, Except.ok.injEq] at happend
      subst happend
      rw [hsv] at hk hge hbig
      have hleast := nextCapacity_isLeast (by omega) hbig hk
      simp only [KeepsRoom, hpiece]
      refine ⟨hok, hold, by omega, ?_, ?_⟩
      · exact (builtin_iff (by omega) hbig).mp ⟨k, hk, hleast⟩
      · exact (le_iff_of_isLeast hleast).mp (hucap ▸ hcap)

theorem append_keeps {piece : Bytes} (hpiece : call.op.piece? = some piece)
    (hresult : call.op.result s.bytes = some (s.bytes ++ piece)) (h : KeepsRoom c s call) :
    ∃ t, stringStep b s call = .ok (true, t) ∧ t.Sound ∧ c ≤ t.capacity ∧
      call.op.result s.bytes = some t.bytes := by
  obtain ⟨sv, hsv, hstep⟩ := stringStep_piece b s hpiece
  simp only [KeepsRoom, hpiece] at h
  obtain ⟨hok, hold, hfits, hdefined, hroom⟩ := h
  have hbig : piece.length + s.len + 1 ≤ 2 ^ 63 := by
    unfold ptrdiffMax at hfits
    omega
  obtain ⟨k, hk, hleast⟩ := (builtin_iff (by omega) hbig).mpr hdefined
  have hle : k ≤ ptrdiffMax := by
    have hmax := nextCapacity_le hk
    have hsmall : 2 ^ 30 ≤ ptrdiffMax := by decide
    omega
  rw [← hsv] at hk
  obtain ⟨t, happend, hsound, hcap, hbytes⟩ :=
    StringImpl.appendView_grown hs.placed b hk hok hle hold
  refine ⟨t, ?_, hsound, ?_, ?_⟩
  · rw [hstep, happend]
    rfl
  · rw [hcap]
    exact (le_iff_of_isLeast hleast).mpr hroom
  · rw [hresult, hbytes, hsv]

theorem resize_keepsRoom {newLen : Nat} (hop : call.op = .resize newLen) (hin : newLen + 1 ≤ c)
    (h : Kept b c s call) : KeepsRoom c s call := by
  obtain ⟨op, alloc⟩ := call
  subst hop
  obtain ⟨t, hkept, hroom, -⟩ := h
  simp only [KeepsRoom, StringOp.piece?, ne_eq, StringOp.resize.injEq]
  intro hzero
  simp only [stringStep, StringImpl.resize, hzero, if_true, StringImpl.clear_eq hs.placed b, bind,
    Except.bind, pure, Except.pure, Except.ok.injEq, Prod.mk.injEq, true_and] at hkept
  have hnone : s.cleared.capacity = 0 := rfl
  rw [← hkept] at hroom
  omega

theorem keepsRoom_of_kept (hin : StaysWithin c s call) (h : Kept b c s call) :
    KeepsRoom c s call := by
  rcases staysWithin_cases hin with ⟨newLen, hop, hlen⟩ | ⟨piece, hpiece, hresult⟩
  · exact resize_keepsRoom b hs hop hlen h
  · exact append_keepsRoom b hs hpiece hresult h

variable (hcap : c ≤ s.capacity)
include hcap

theorem resize_keeps {newLen : Nat} (hop : call.op = .resize newLen) (hin : newLen + 1 ≤ c)
    (h : KeepsRoom c s call) :
    ∃ t, stringStep b s call = .ok (true, t) ∧ t.Sound ∧ c ≤ t.capacity ∧
      call.op.result s.bytes = some t.bytes := by
  obtain ⟨op, alloc⟩ := call
  subst hop
  simp only [KeepsRoom, StringOp.piece?, ne_eq, StringOp.resize.injEq] at h
  by_cases hcut : newLen < s.size
  · obtain ⟨t, hresize, hsound, hroom, hbytes⟩ := StringImpl.resize_cut hs b alloc h hcut
    exact ⟨t, hresize, hsound, by omega, by rw [hbytes]; rfl⟩
  · obtain ⟨t, hresize, hsound, hroom, hbytes⟩ :=
      StringImpl.resize_room hs b alloc h (Nat.le_of_not_lt hcut) (by omega)
    exact ⟨t, hresize, hsound, by omega, by rw [hbytes]; rfl⟩


theorem keeps_of_keepsRoom (hin : StaysWithin c s call) (h : KeepsRoom c s call) :
    ∃ t, stringStep b s call = .ok (true, t) ∧ t.Sound ∧ c ≤ t.capacity ∧
      call.op.result s.bytes = some t.bytes := by
  rcases staysWithin_cases hin with ⟨newLen, hop, hlen⟩ | ⟨piece, hpiece, hresult⟩
  · exact resize_keeps b hs hcap hop hlen h
  · exact append_keeps b hs hpiece hresult h

end Step

/-- Behind a reserve that succeeded, a run that stays within it keeps the capacity and succeeds
throughout exactly when every call of it keeps the room. -/
theorem run_reserved_iff (b : Build) {s t : StringImpl} (hs : s.Stored) {alloc : StringAlloc}
    {c : Nat} (hreserve : s.reserve b alloc c = .ok (true, t)) {calls : List StringCall}
    (hin : Meets (stringStep b) (StaysWithin c) t calls) :
    Meets (stringStep b) (Kept b c) t calls ↔ Meets (stringStep b) (KeepsRoom c) t calls := by
  apply meets_iff_of_inv (P := fun s => s.Stored ∧ c ≤ s.capacity) ?_ ?_
    (StringImpl.reserve_true hs hreserve) hin
  · intro s call good hin
    constructor
    · exact keepsRoom_of_kept b good.1 hin
    · intro h
      obtain ⟨t, hstep, -, hcap, hresult⟩ := keeps_of_keepsRoom b good.1 good.2 hin h
      exact ⟨t, hstep, hcap, hresult⟩
  · intro s call r u good hin h hstep
    obtain ⟨t, hkeeps, hsound, hcap, -⟩ := keeps_of_keepsRoom b good.1 good.2 hin h
    rw [hkeeps, Except.ok.injEq, Prod.mk.injEq] at hstep
    exact hstep.2 ▸ ⟨hsound.stored, hcap⟩

/-- The empty string, after a reserve of eight bytes. -/
def eight : StringImpl := StringImpl.init.reheaped usedMemory 8

def eightCalls : List StringCall :=
  [⟨.appendView (some (ascii "hello!".toList)), usedMemory⟩, ⟨.resize 3, usedMemory⟩]

/-- Six bytes and their NUL need the eight there are, and a resize keeps them. -/
theorem eightCalls_kept : Meets (stringStep .debug) (Kept .debug 8) eight eightCalls := by
  have hreserve : StringImpl.init.reserve .debug usedMemory 8 = .ok (true, eight) := by decide +kernel
  have hseven (k : Nat) (hk : k.isPowerOfTwo) (hle : 7 ≤ k) : 8 ≤ k :=
    (le_iff_of_isLeast (nextCapacity_isLeast (by decide) (by decide)
      (show nextCapacity 7 = some 8 by decide +kernel))).mp (Nat.le_refl 8) k hk hle
  apply (run_reserved_iff .debug StringImpl.init_sound.stored hreserve _).mpr
  · refine ⟨?_, fun r t hstep => ⟨?_, fun _ _ _ => trivial⟩⟩
    · exact ⟨rfl, by decide, by decide, Or.inr (by decide), hseven⟩
    · simp [KeepsRoom, StringOp.piece?]
  · refine ⟨⟨_, rfl, by decide⟩, fun r t hstep => ⟨⟨_, rfl, ?_⟩, fun _ _ _ => trivial⟩⟩
    rw [length_fit]
    decide

/-- The empty string, after a reserve of a hundred bytes. -/
def hundred : StringImpl := StringImpl.init.reheaped usedMemory 128

def hundredCall (ok : Bool) : StringCall :=
  ⟨.appendView (some (ascii "hi".toList)), ⟨ok, usedMemory.fill⟩⟩

/-- A hundred bytes are reserved and two appended: with memory the capacity is four, without it
nothing is appended. -/
theorem hundred_not_kept :
    StringImpl.init.reserve .debug usedMemory 100 = .ok (true, hundred) ∧
      (∀ ok, StaysWithin 100 hundred (hundredCall ok)) ∧
      ∀ ok, ¬ Kept .debug 100 hundred (hundredCall ok) := by
  refine ⟨by decide +kernel, fun ok => ⟨_, rfl, by decide +kernel⟩, ?_⟩
  intro ok h
  obtain ⟨t, hstep, hcap, -⟩ := h
  cases ok with
  | true =>
    have hfour : (stringStep .debug hundred (hundredCall true)).map (fun p => p.2.capacity) = .ok 4 := by
      decide +kernel
    rw [hstep, Except.map, Except.ok.injEq] at hfour
    simp only at hfour
    omega
  | false =>
    have hfalse : (stringStep .debug hundred (hundredCall false)).map Prod.fst = .ok false := by
      decide +kernel
    rw [hstep, Except.map, Except.ok.injEq] at hfalse
    simp at hfalse

end LiteHttp
