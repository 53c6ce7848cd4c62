import LiteHttp.Appending

/-!
# Refused memory

What a mutator asks the allocator for, and what is left of the string where it
gets nothing.
-/

namespace LiteHttp

set_option autoImplicit false

/-- The operations on an initialised string, and a substring put into one. -/
inductive Mutator where
  | plain (op : StringOp)
  | substr (str : Bytes) (pos len : Nat)

namespace Mutator

def run (b : Build) (a : StringAlloc) (s : StringImpl) : Mutator → Except Fault (Bool × StringImpl)
  | .plain op => stringStep b s ⟨op, a⟩
  | .substr str pos len => s.substr b a str pos len

/-- The bytes an assignment asks for. -/
def assignRequest (s : StringImpl) : StringView → Option Nat
  | none => none
  | some bytes =>
    if (s.data = .small ∧ bytes.length < smallBufSize) ∨
        (s.data ≠ .small ∧ bytes.length < s.capacity) then none
    else nextCapacity (bytes.length + 1)

/-- The bytes a call asks `malloc` or `realloc` for; `none` where it gets that far in no way. -/
def request (s : StringImpl) : Mutator → Option Nat
  | .plain (.reserve capacity) =>
    if capacity ≤ s.size ∨ capacity ≤ s.capacity then none else nextCapacity capacity
  | .plain (.resize newLen) =>
    if newLen = 0 ∨ newLen < s.size ∨ newLen < s.capacity ∨
        (s.data = .small ∧ newLen < smallBufSize) then none
    else nextCapacity (newLen + 1)
  | .plain (.assign cstr) => assignRequest s (.fromCstr cstr)
  | .plain (.assignView sv) => assignRequest s sv
  | .plain op =>
    match op.piece? with
    | none => none
    | some piece => nextCapacity (piece.length + s.len + 1)
  | .substr str pos len =>
    if (stringViewSubstr str pos len).length < smallBufSize then none
    else nextCapacity ((stringViewSubstr str pos len).length + 1)

/-- A push back does not hand on what its append returned; a substring has cleared its target
before it asks. -/
def ReportsFailure : Mutator → Prop
  | .plain (.pushBack _) => False
  | .plain _ => True
  | .substr _ _ _ => False

instance : DecidablePred ReportsFailure := by
  intro m
  unfold ReportsFailure
  split <;> infer_instance

end Mutator

section NoRequest

variable (b : Build) {s : StringImpl} (a a' : StringAlloc)

theorem assignView_of_no_request (hs : s.Placed) {sv : StringView}
    (h : Mutator.assignRequest s sv = none) : s.assignView b a sv = s.assignView b a' sv := by
  cases sv with
  | none => rfl
  | some bytes =>
    unfold Mutator.assignRequest at h
    simp only at h
    split at h
    · rename_i hfits
      rcases hfits with ⟨hsmall, hshort⟩ | ⟨hheap, hroom⟩
      · simp [StringImpl.assignView, hs.useSbuf_eq b, hsmall, hshort, bind, Except.bind]
      · simp [StringImpl.assignView, hs.useSbuf_eq b, hheap, hroom, bind, Except.bind]
    · simp [StringImpl.assignView, StringView.bytes, h]

theorem appendView_of_no_request {sv : StringView}
    (h : nextCapacity (sv.bytes.length + s.len + 1) = none) :
    s.appendView b a sv = .error .undefined := by
  simp [StringImpl.appendView, h]

/-- A call that asks for nothing does not look at the allocator. -/
theorem run_of_no_request (hs : s.Placed) {m : Mutator} (h : m.request s = none) :
    m.run b a s = m.run b a' s := by
  cases m with
  | substr str pos len =>
    unfold Mutator.request at h
    simp only at h
    split at h
    · rename_i hshort
      simp [Mutator.run, StringImpl.substr, StringImpl.initFromStringView, hshort]
    · rename_i hlong
      simp [Mutator.run, StringImpl.substr, StringImpl.initFromStringView, hlong, h]
  | plain op =>
    cases op with
    | reserve capacity =>
      unfold Mutator.request at h
      simp only at h
      split at h
      · rename_i hfits
        rcases hfits with hsize | hmore
        · simp [Mutator.run, stringStep, StringImpl.reserve, hsize]
        · simp [Mutator.run, stringStep, StringImpl.reserve, hmore]
      · simp [Mutator.run, stringStep, StringImpl.reserve, h]
    | resize newLen =>
      unfold Mutator.request at h
      simp only at h
      split at h
      · rename_i hfits
        rcases hfits with hzero | hcut | hroom | ⟨hsmall, hshort⟩
        · simp [Mutator.run, stringStep, StringImpl.resize, hzero]
        · simp [Mutator.run, stringStep, StringImpl.resize, hcut]
        · simp [Mutator.run, stringStep, StringImpl.resize, hroom]
        · simp [Mutator.run, stringStep, StringImpl.resize, hs.useSbuf_eq b, hsmall, hshort, bind,
            Except.bind]
      · simp [Mutator.run, stringStep, StringImpl.resize, h]
    | assign cstr => exact assignView_of_no_request b a a' hs h
    | assignView sv => exact assignView_of_no_request b a a' hs h
    | append cstr =>
      have hnone := fun a => @appendView_of_no_request b s a (.fromCstr cstr) h
      simp [Mutator.run, stringStep, StringImpl.append, hnone]
    | appendView sv =>
      have hnone := fun a => @appendView_of_no_request b s a (sv) h
      simp [Mutator.run, stringStep, hnone]
    | appendString appendS =>
      have hnone := fun a => @appendView_of_no_request b s a (some appendS) h
      simp [Mutator.run, stringStep, StringImpl.appendString, hnone]
    | appendCstr cstr =>
      by_cases hnull : cstr = none
      · simp [Mutator.run, stringStep, StringImpl.appendCstr, hnull]
      · simp only [Mutator.request, StringOp.piece?, hnull, if_false] at h
        have hnone := fun a => @appendView_of_no_request b s a (.fromCstr cstr) h
        simp [Mutator.run, stringStep, StringImpl.appendCstr, hnull, hnone]
    | appendParts cstr len =>
      by_cases hnull : cstr = none ∧ 0 < len
      · simp [Mutator.run, stringStep, StringImpl.appendParts, hnull]
      · simp only [Mutator.request, StringOp.piece?, hnull, if_false] at h
        have hnone := fun a => @appendView_of_no_request b s a (.fromParts cstr len) h
        simp [Mutator.run, stringStep, StringImpl.appendParts, hnull, hnone]
    | pushBack ch =>
      have hnone := fun a => @appendView_of_no_request b s a (some [ch]) h
      simp [Mutator.run, stringStep, StringImpl.pushBack, hnone, bind, Except.bind]
    | clear => rfl
    | takeOwnership data len => rfl

end NoRequest

theorem zeroed_not_stored : ¬ StringImpl.zeroed.Stored := by
  intro h
  exact absurd (h.capacity_iff.mp rfl) (by simp [StringImpl.zeroed])

theorem assignView_atomic (b : Build) {s : StringImpl} (hs : s.Stored) {a : StringAlloc}
    (hok : a.ok = false) {sv : StringView} {c : Nat} (h : Mutator.assignRequest s sv = some c) :
    s.assignView b a sv = .ok (false, s) := by
  cases sv with
  | none => simp [Mutator.assignRequest] at h
  | some bytes =>
    unfold Mutator.assignRequest at h
    simp only at h
    split at h
    · simp at h
    · rename_i hneeds
      rw [not_or] at hneeds
      apply StringImpl.assignView_refused hs b h hok
      · exact fun hsmall hshort => hneeds.1 ⟨hsmall, hshort⟩
      · exact fun hheap hroom => hneeds.2 ⟨hheap, hroom⟩

theorem reserve_atomic (b : Build) {s : StringImpl} (hs : s.Placed) {a : StringAlloc}
    (hok : a.ok = false) {capacity c : Nat}
    (h : Mutator.request s (.plain (.reserve capacity)) = some c) :
    s.reserve b a capacity = .ok (false, s) := by
  unfold Mutator.request at h
  simp only at h
  split at h
  · simp at h
  · rename_i hneeds
    rw [not_or] at hneeds
    have hmoved := StringImpl.reserve_moved hs b (a := a) hneeds.1 hneeds.2 h (by simp [hok])
    rw [hmoved, hok, if_neg (by simp)]

theorem resize_atomic (b : Build) {s : StringImpl} (hs : s.Stored) {a : StringAlloc}
    (hok : a.ok = false) {newLen c : Nat}
    (h : Mutator.request s (.plain (.resize newLen)) = some c) :
    s.resize b a newLen = .ok (false, s) := by
  unfold Mutator.request at h
  simp only at h
  split at h
  · simp at h
  · rename_i hneeds
    simp only [not_or, not_and] at hneeds
    obtain ⟨hne, hcut, hroom, hlong⟩ := hneeds
    exact StringImpl.resize_refused hs b hne (Nat.le_of_not_lt hcut) hroom hlong h hok

/-- A refused append leaves the string alone; only a push back says otherwise. -/
theorem append_refused (b : Build) {s : StringImpl} (hs : s.Placed) {call : StringCall}
    {piece : Bytes} (hpiece : call.op.piece? = some piece) (hok : call.alloc.ok = false) {c : Nat}
    (hc : nextCapacity (piece.length + s.len + 1) = some c) :
    stringStep b s call = .ok (call.op.isPushBack, s) := by
  obtain ⟨sv, hsv, hstep⟩ := stringStep_piece b s hpiece
  rw [← hsv] at hc
  rw [hstep, StringImpl.appendView_refused hs b hc hok]
  simp [Except.map]

theorem substr_refused (b : Build) {s : StringImpl} (hs : s.Placed) {a : StringAlloc}
    (hok : a.ok = false) {str : Bytes} {pos len c : Nat}
    (h : Mutator.request s (.substr str pos len) = some c) :
    s.substr b a str pos len = .ok (false, .zeroed) := by
  unfold Mutator.request at h
  simp only at h
  split at h
  · simp at h
  · rename_i hlong
    have halloc : malloc false c = .ok false := StringImpl.malloc_of_le (by simp)
    simp [StringImpl.substr, StringImpl.clear_eq hs b, StringImpl.initFromStringView, hlong, h, hok,
      halloc, bind, Except.bind, pure, Except.pure]

/-- A call that is refused the memory it asks for returns false and leaves the string as it was,
unless it is a push back or a substring. -/
theorem refused_atomic_iff (b : Build) {s : StringImpl} (hs : s.Stored) (m : Mutator)
    {a : StringAlloc} {c : Nat} (hask : m.request s = some c) (hrefused : a.ok = false) :
    m.run b a s = .ok (false, s) ↔ m.ReportsFailure := by
  have append (op : StringOp) {piece : Bytes} (hpiece : op.piece? = some piece)
      (hc : nextCapacity (piece.length + s.len + 1) = some c) :
      Mutator.run b a s (.plain op) = .ok (op.isPushBack, s) :=
    @append_refused b s hs.placed ⟨op, a⟩ piece hpiece hrefused c hc
  cases m with
  | substr str pos len =>
    have hrun : Mutator.run b a s (.substr str pos len) = .ok (false, .zeroed) :=
      substr_refused b hs.placed hrefused hask
    refine iff_of_false ?_ id
    rw [hrun, Except.ok.injEq, Prod.mk.injEq]
    intro h
    exact zeroed_not_stored (h.2 ▸ hs)
  | plain op =>
    cases op with
    | reserve capacity => exact iff_of_true (reserve_atomic b hs.placed hrefused hask) trivial
    | resize newLen => exact iff_of_true (resize_atomic b hs hrefused hask) trivial
    | assign cstr => exact iff_of_true (assignView_atomic b hs hrefused hask) trivial
    | assignView sv => exact iff_of_true (assignView_atomic b hs hrefused hask) trivial
    | append cstr => exact iff_of_true (append (.append cstr) rfl hask) trivial
    | appendView sv => exact iff_of_true (append (.appendView sv) rfl hask) trivial
    | appendString appendS => exact iff_of_true (append (.appendString appendS) rfl hask) trivial
    | appendCstr cstr =>
      unfold Mutator.request at hask
      simp only at hask
      split at hask
      · simp at hask
      · rename_i piece hpiece
        exact iff_of_true (append (.appendCstr cstr) hpiece hask) trivial
    | appendParts cstr len =>
      unfold Mutator.request at hask
      simp only at hask
      split at hask
      · simp at hask
      · rename_i piece hpiece
        exact iff_of_true (append (.appendParts cstr len) hpiece hask) trivial
    | pushBack ch =>
      have hrun : Mutator.run b a s (.plain (.pushBack ch)) = .ok (true, s) :=
        append (.pushBack ch) rfl hask
      refine iff_of_false ?_ id
      rw [hrun]
      simp
    | clear => simp [Mutator.request, StringOp.piece?] at hask
    | takeOwnership data len => simp [Mutator.request, StringOp.piece?] at hask

/-- Memory that is always refused. -/
def noMemory : StringAlloc := ⟨false, fun _ => 0⟩

/-- A block that cannot be regrown keeps its sixteen bytes. -/
theorem append_sixteen_atomic :
    Mutator.run .debug noMemory .sixteen (.plain (.appendView (some (List.replicate 20 98)))) =
      .ok (false, .sixteen) :=
  (refused_atomic_iff .debug StringImpl.sixteen_sound.stored _ (c := 64) (by decide) rfl).mpr trivial

/-- A character that was not appended is reported as appended, and a substring that was not made
leaves no string. -/
theorem pushBack_substr_not_atomic :
    Mutator.request .init (.plain (.pushBack 33)) = some 2 ∧
      Mutator.run .debug noMemory .init (.plain (.pushBack 33)) = .ok (true, .init) ∧
      Mutator.request .init (.substr (List.replicate 16 97) 0 16) = some 32 ∧
      Mutator.run .debug noMemory .init (.substr (List.replicate 16 97) 0 16) =
        .ok (false, .zeroed) := by
  decide +kernel

end LiteHttp
