import LiteHttp.StringSpec

/-!
# Appending and reserving

Every append moves the string to a block of the capacity it computes, whatever
room there is, and adds the bytes behind the content. An append that gets no
memory leaves the string alone.
-/

namespace LiteHttp

set_option autoImplicit false

namespace StringImpl

section Append

variable {s : StringImpl} (hs : s.Placed) (b : Build) {a : StringAlloc} {sv : StringView} {c : Nat}
variable (hc : nextCapacity (sv.bytes.length + s.len + 1) = some c)
include hs hc

theorem appendView_refused (hok : a.ok = false) : s.appendView b a sv = .ok (false, s) := by
  have hge := nextCapacity_ge hc
  have hsize := s.size_le_len
  have hfit : a.ok = true → c ≤ ptrdiffMax := by simp [hok]
  by_cases hsmall : s.data = .small
  · have hmoved := cpySmbuf2data_eq hs hsmall (show 0 < c by omega) (by omega) b hfit
    rw [hok, if_neg (by simp)] at hmoved
    simp [appendView, hc, hs.useSbuf_eq b, hsmall, hmoved, bind, Except.bind, pure, Except.pure]
  · simp [appendView, hc, hs.useSbuf_eq b, hsmall, realloc_eq hfit, hok, bind, Except.bind, pure,
      Except.pure]

/-- An append with memory writes the view behind the content, in the storage it has moved to. -/
theorem appendView_holds (hok : a.ok = true) (hle : c ≤ ptrdiffMax) (hold : s.len < 2 ^ 31) :
    ∃ t, s.appendView b a sv = .ok (true, t) ∧ t.Holds (s.reheaped a c) (s.bytes ++ sv.bytes) := by
  have hge := nextCapacity_ge hc
  have hsize := s.size_le_len
  have hgiven : a.ok = true → c ≤ ptrdiffMax := fun _ => hle
  have hfit : s.len + sv.bytes.length + 1 ≤ (s.reheaped a c).buffer.length := by
    rw [reheaped_length]
    omega
  have hbytes : (s.reheaped a c).buffer.take s.len = s.bytes :=
    take_reheaped hs a s.len_le_size (by omega)
  by_cases hsmall : s.data = .small
  · have hmoved := cpySmbuf2data_eq hs hsmall (show 0 < c by omega) (by omega) b hgiven
    have hheaped : s.reheaped a c = s.heaped a c := if_pos hsmall
    rw [hok, if_pos rfl] at hmoved
    rw [hheaped] at hfit hbytes ⊢
    obtain ⟨t, hcpy, hholds⟩ := cpySv2str_holds hold hfit
    rw [hbytes] at hholds
    refine ⟨{ t with capacity := c }, ?_, hholds.with_capacity c⟩
    simp [appendView, hc, hs.useSbuf_eq b, hsmall, hmoved, hcpy, bind, Except.bind, pure, Except.pure]
  · have hother : s.reheaped a c =
        { s with data := .heap (Block.moved a.fill c s.buffer), capacity := c } := if_neg hsmall
    rw [hother] at hfit hbytes ⊢
    obtain ⟨t, hcpy, hholds⟩ := cpySv2str_holds
      (s := { s with data := .heap (Block.moved a.fill c s.buffer) }) hold hfit
    rw [show StringImpl.buffer { s with data := .heap (Block.moved a.fill c s.buffer) } =
      Block.moved a.fill c s.buffer from rfl] at hholds
    rw [show StringImpl.buffer { s with
      data := .heap (Block.moved a.fill c s.buffer), capacity := c } =
      Block.moved a.fill c s.buffer from rfl] at hbytes
    rw [hbytes] at hholds
    refine ⟨{ t with capacity := c }, ?_, hholds.with_capacity c⟩
    simp [appendView, hc, hs.useSbuf_eq b, hsmall, realloc_eq hgiven, hok, hcpy, bind,
      Except.bind, pure, Except.pure]

theorem appendView_grown (hok : a.ok = true) (hle : c ≤ ptrdiffMax) (hold : s.len < 2 ^ 31) :
    ∃ t, s.appendView b a sv = .ok (true, t) ∧ t.Sound ∧ t.capacity = c ∧
      t.bytes = s.bytes ++ sv.bytes := by
  obtain ⟨t, happend, hholds⟩ := appendView_holds hs b hc hok hle hold
  have hge := nextCapacity_ge hc
  have hlen := hs.bytes_length
  refine ⟨t, happend, ?_, ?_, hholds.bytes_eq⟩
  · apply hholds.sound_heap
    · exact reheaped_not_small s a c
    · rw [reheaped_capacity]
      omega
    · rw [reheaped_capacity, List.length_append]
      omega
    · rw [reheaped_capacity, reheaped_length]
  · rw [hholds.capacity, reheaped_capacity]

end Append

/-- What every member of the append family does to a string of ordinary length. -/
theorem appendView_spec {s : StringImpl} (hs : s.Placed) (b : Build) (a : StringAlloc)
    (sv : StringView) (hlen : sv.bytes.length + s.len + 1 ≤ 2 ^ 30) :
    ∃ t, s.appendView b a sv = .ok (a.ok, t) ∧
      (a.ok = true → t.Sound ∧ t.bytes = s.bytes ++ sv.bytes ∧ t.bytes.length + 1 ≤ t.capacity) ∧
      (a.ok = false → t = s) := by
  obtain ⟨c, hc, hge, -, hle⟩ := nextCapacity_fits hlen
  cases hok : a.ok with
  | false => exact ⟨s, appendView_refused hs b hc hok, by simp, fun _ => rfl⟩
  | true =>
    obtain ⟨t, happend, hsound, hcap, hbytes⟩ := appendView_grown hs b hc hok hle (by omega)
    refine ⟨t, happend, fun _ => ⟨hsound, hbytes, ?_⟩, by simp⟩
    rw [hbytes, hcap, List.length_append, hs.bytes_length]
    omega

/-- On a placed string the append is the append of the bytes. -/
theorem appendView_refines {s : StringImpl} (hs : s.Placed) (b : Build) (a : StringAlloc)
    (sv : StringView) (hlen : sv.bytes.length + s.len + 1 ≤ 2 ^ 30) :
    ∃ t, s.appendView b a sv = .ok (a.ok, t) ∧
      stringAppendView a.ok s.bytes sv.bytes = .ok (a.ok, t.bytes) := by
  obtain ⟨t, happend, hgrown, hkept⟩ := appendView_spec hs b a sv hlen
  refine ⟨t, happend, ?_⟩
  have hlength := hs.bytes_length
  cases hok : a.ok with
  | true =>
    rw [(hgrown hok).2.1]
    exact stringAppendView_true (storable_of_lt (by omega)) (by omega)
  | false =>
    obtain ⟨c, hc, -, -, -⟩ := nextCapacity_fits hlen
    rw [← hlength] at hc
    simp [stringAppendView, hc, malloc, hkept hok, bind, Except.bind, pure, Except.pure]

/-- A reserve moves an empty string out of the small buffer. -/
def EmptyMove (s : StringImpl) (a : StringAlloc) (capacity : Nat) : Prop :=
  s.data = .small ∧ s.size = 0 ∧ 0 < capacity ∧ a.ok = true

/-- A reserve that is not turned down and finds too little capacity moves the string. -/
theorem reserve_moved {s : StringImpl} (hs : s.Placed) (b : Build) {a : StringAlloc}
    {capacity c : Nat} (hsize : ¬ capacity ≤ s.size) (hmore : ¬ capacity ≤ s.capacity)
    (hc : nextCapacity capacity = some c) (hle : a.ok = true → c ≤ ptrdiffMax) :
    s.reserve b a capacity = .ok (if a.ok then (true, s.reheaped a c) else (false, s)) := by
  have hge := nextCapacity_ge hc
  by_cases hsmall : s.data = .small
  · have hmoved := cpySmbuf2data_eq hs hsmall (show 0 < c by omega) (by omega) b hle
    simp [reserve, hsize, hmore, hc, hs.useSbuf_eq b, hsmall, hmoved, reheaped, bind, Except.bind]
  · simp only [reserve, hsize, hmore, hc, hs.useSbuf_eq b, hsmall, realloc_eq hle, reheaped, if_false,
      decide_false, Bool.false_eq_true, bind, Except.bind, pure, Except.pure]
    cases a.ok with
    | false => rfl
    | true => rfl

theorem reserve_spec {s : StringImpl} (hs : s.Sound) (b : Build) (a : StringAlloc) {capacity : Nat}
    (hcap : capacity ≤ 2 ^ 30) :
    ∃ r t, s.reserve b a capacity = .ok (r, t) ∧
      (t.Sound ↔ (EmptyMove s a capacity → a.fill 0 = 0)) := by
  by_cases hsize : capacity ≤ s.size
  · refine ⟨false, s, by simp [reserve, hsize], iff_of_true hs ?_⟩
    rintro ⟨-, hzero, hpos, -⟩
    omega
  · by_cases henough : capacity ≤ s.capacity
    · refine ⟨true, s, by simp [reserve, hsize, henough], iff_of_true hs ?_⟩
      rintro ⟨hsmall, -, hpos, -⟩
      have := hs.capacity_iff.mpr hsmall
      omega
    · obtain ⟨c, hc, hge, hpos, hle⟩ := nextCapacity_fits hcap
      have hmoved := reserve_moved hs.placed b (a := a) hsize henough hc fun _ => hle
      cases hok : a.ok with
      | false =>
        rw [hok, if_neg (by simp)] at hmoved
        exact ⟨false, s, hmoved, iff_of_true hs fun h => by simp [EmptyMove, hok] at h⟩
      | true =>
        rw [hok, if_pos rfl] at hmoved
        refine ⟨true, s.reheaped a c, hmoved, ?_⟩
        rw [reheaped_sound_iff hs a hpos (by omega)]
        constructor
        · rintro h ⟨hsmall, hzero, -, -⟩
          exact h hsmall hzero
        · intro h hsmall hzero
          exact h ⟨hsmall, hzero, by omega, hok⟩

end StringImpl

end LiteHttp
