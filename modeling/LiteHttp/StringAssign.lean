import LiteHttp.StringSpec

/-!
# Assigning a view

The five branches of `string_assign_view`. Four of them leave the view's bytes or
the old string; a block that is regrown keeps its old bytes under the new length.
-/

namespace LiteHttp

set_option autoImplicit false

namespace StringImpl

section Assign

variable {s : StringImpl} (hs : s.Stored) (b : Build)
include hs

theorem assignView_null (a : StringAlloc) : s.assignView b a none = .ok (true, s.cleared) := by
  have hone : nextCapacity (StringView.bytes none).length.succ = some 1 := by decide
  simp only [assignView, ← Nat.succ_eq_add_one, hone, clear_eq hs.placed b, bind, Except.bind,
    pure, Except.pure]

variable {bytes : Bytes} {c : Nat} (hc : nextCapacity (bytes.length + 1) = some c)
include hc

theorem assignView_small (a : StringAlloc) (hsmall : s.data = .small)
    (hshort : bytes.length < smallBufSize) :
    ∃ t, s.assignView b a (some bytes) = .ok (true, t) ∧ t.Sound ∧ t.bytes = bytes := by
  have hfit : 0 + bytes.length + 1 ≤ s.buffer.length := by
    rw [buffer_small hsmall]
    omega
  obtain ⟨t, hcpy, hholds⟩ := cpySv2str_holds (by decide) hfit
  rw [List.take_zero, List.nil_append] at hholds
  refine ⟨t, ?_, ?_, hholds.bytes_eq⟩
  · simp [assignView, StringView.bytes, hc, hs.placed.useSbuf_eq b, hsmall, hshort, hcpy, bind,
      Except.bind, pure, Except.pure]
  · apply hholds.sound hs.capacity_iff
    · exact fun _ => hshort
    · exact fun h => absurd hsmall h

theorem assignView_room (a : StringAlloc) (hheap : s.data ≠ .small)
    (hroom : bytes.length < s.capacity) :
    ∃ t, s.assignView b a (some bytes) = .ok (true, t) ∧ t.Sound ∧ t.bytes = bytes := by
  have hfits := hs.heap hheap
  have hfit : 0 + bytes.length + 1 ≤ s.buffer.length := by omega
  obtain ⟨t, hcpy, hholds⟩ := cpySv2str_holds (by decide) hfit
  rw [List.take_zero, List.nil_append] at hholds
  refine ⟨t, ?_, hholds.sound_heap hheap (by omega) hroom hfits.2, hholds.bytes_eq⟩
  simp [assignView, StringView.bytes, hc, hs.placed.useSbuf_eq b, hheap, hroom, hcpy, bind,
    Except.bind, pure, Except.pure]

theorem assignView_heaped {a : StringAlloc} (hok : a.ok = true) (hfits : c ≤ ptrdiffMax)
    (hsmall : s.data = .small) (hlong : ¬ bytes.length < smallBufSize) :
    ∃ t, s.assignView b a (some bytes) = .ok (true, t) ∧ t.Sound ∧ t.bytes = bytes := by
  have hge := nextCapacity_ge hc
  let u : StringImpl := { s with data := .heap (Block.moved a.fill c []) }
  have hbuf : u.buffer = Block.moved a.fill c [] := rfl
  have hfit : 0 + bytes.length + 1 ≤ u.buffer.length := by
    rw [hbuf, Block.length_moved]
    omega
  obtain ⟨t, hcpy, hholds⟩ := cpySv2str_holds (by decide) hfit
  rw [List.take_zero, List.nil_append] at hholds
  have hheap : ({ u with capacity := c } : StringImpl).data ≠ .small := by simp [u]
  have hdone := (hholds.with_capacity c).with_smallBuf hheap init.smallBuf
  refine ⟨{ t with capacity := c, smallBuf := init.smallBuf }, ?_, ?_, hdone.bytes_eq⟩
  · simp only [assignView, StringView.bytes, Option.getD_some, hc, hs.placed.useSbuf_eq b, hsmall,
      decide_true, if_true, hlong, if_false, malloc_of_le fun _ => hfits, hok, hcpy, u, bind,
      Except.bind, pure, Except.pure, Bool.not_true, Bool.false_eq_true]
  · apply hdone.sound_heap hheap
    · show 0 < c
      omega
    · exact hge
    · show c ≤ u.buffer.length
      rw [hbuf, Block.length_moved]

/-- A block that is regrown keeps what it held, and gets the new length. -/
theorem assignView_regrown {a : StringAlloc} (hok : a.ok = true) (hfits : c ≤ ptrdiffMax)
    (hheap : s.data ≠ .small) (hroom : ¬ bytes.length < s.capacity) :
    ∃ t, s.assignView b a (some bytes) = .ok (true, t) ∧ t.Sound ∧
      t.bytes = (Block.moved a.fill c s.buffer).take bytes.length := by
  have hge := nextCapacity_ge hc
  have hgiven : a.ok = true → c ≤ ptrdiffMax := fun _ => hfits
  let u : StringImpl := { s with data := .heap (Block.moved a.fill c s.buffer) }
  have hbuf : u.buffer.length = c := Block.length_moved
  have hstore : u.store bytes.length [0] = .ok (u.write bytes.length [0]) := by
    apply store_of_le
    rw [hbuf]
    exact hge
  have hholds := (terminated_holds (s := u) bytes.length (by omega)).with_capacity c
  refine ⟨_, ?_, ?_, hholds.bytes_eq⟩
  · simp only [assignView, StringView.bytes, Option.getD_some, hc, hs.placed.useSbuf_eq b, hheap,
      decide_false, Bool.false_eq_true, if_false, hroom, realloc_eq hgiven, hok, if_true, u,
      hstore, bind, Except.bind, pure, Except.pure]
  · apply hholds.sound_heap
    · simp [u]
    · show 0 < c
      omega
    · rw [List.length_take, hbuf, Nat.min_eq_left (by omega)]
      exact hge
    · exact Nat.le_of_eq hbuf.symm

theorem assignView_refused {a : StringAlloc} (hok : a.ok = false)
    (hlong : s.data = .small → ¬ bytes.length < smallBufSize)
    (hroom : s.data ≠ .small → ¬ bytes.length < s.capacity) :
    s.assignView b a (some bytes) = .ok (false, s) := by
  have hfits : a.ok = true → c ≤ ptrdiffMax := by simp [hok]
  by_cases hsmall : s.data = .small
  · have halloc : malloc false c = .ok false := malloc_of_le (by simp)
    simp [assignView, StringView.bytes, hc, hs.placed.useSbuf_eq b, hsmall, hlong hsmall, halloc, hok,
      bind, Except.bind, pure, Except.pure]
  · simp [assignView, StringView.bytes, hc, hs.placed.useSbuf_eq b, hsmall, hroom hsmall,
      realloc_eq hfits, hok, bind, Except.bind, pure, Except.pure]

end Assign

/-- The bytes a regrown block shows are the view's already: what the block held, and behind it
what the memory held. -/
def AlreadyThere (s : StringImpl) (a : StringAlloc) (bytes : Bytes) : Prop :=
  ∀ i, i < bytes.length → bytes[i]? = some ((s.buffer[i]?).getD (a.fill i))

theorem take_moved_eq_iff {s : StringImpl} {a : StringAlloc} {bytes : Bytes} {c : Nat}
    (hge : bytes.length ≤ c) :
    (Block.moved a.fill c s.buffer).take bytes.length = bytes ↔ AlreadyThere s a bytes := by
  have hcell {i : Nat} (hi : i < bytes.length) :
      ((Block.moved a.fill c s.buffer).take bytes.length)[i]? =
        some ((s.buffer[i]?).getD (a.fill i)) := by
    rw [List.getElem?_take_of_lt hi]
    by_cases hin : i < s.buffer.length
    · rw [Block.getElem?_moved (by omega) hin, List.getElem?_eq_getElem hin, Option.getD_some]
    · rw [Block.getElem?_moved_new (by omega) (by omega), List.getElem?_eq_none (by omega),
        Option.getD_none]
  constructor
  · intro h i hi
    rw [← hcell hi, h]
  · intro h
    apply List.ext_getElem?
    intro i
    by_cases hi : i < bytes.length
    · rw [hcell hi, h i hi]
    · rw [List.getElem?_eq_none (by rw [List.length_take]; omega), List.getElem?_eq_none (by omega)]

/-- An assignment of ordinary length returns: a sound string, or no memory and the string as
before. -/
theorem assignView_spec {s : StringImpl} (hs : s.Stored) (b : Build) (a : StringAlloc) {bytes : Bytes}
    (hlen : bytes.length < 2 ^ 30) :
    (∃ t, s.assignView b a (some bytes) = .ok (true, t) ∧ t.Sound ∧
      (t.bytes = bytes ↔ (s.data ≠ .small → s.capacity ≤ bytes.length → AlreadyThere s a bytes))) ∨
      (a.ok = false ∧ s.assignView b a (some bytes) = .ok (false, s)) := by
  obtain ⟨c, hc, hge, -, hfits⟩ := nextCapacity_fits (show bytes.length + 1 ≤ 2 ^ 30 from hlen)
  by_cases hsmall : s.data = .small
  · by_cases hshort : bytes.length < smallBufSize
    · obtain ⟨t, hassign, hsound, hbytes⟩ := assignView_small hs b hc a hsmall hshort
      exact Or.inl ⟨t, hassign, hsound, iff_of_true hbytes fun h => absurd hsmall h⟩
    cases hok : a.ok with
    | false => exact Or.inr ⟨rfl, assignView_refused hs b hc hok (fun _ => hshort) fun h => absurd hsmall h⟩
    | true =>
      obtain ⟨t, hassign, hsound, hbytes⟩ := assignView_heaped hs b hc hok hfits hsmall hshort
      exact Or.inl ⟨t, hassign, hsound, iff_of_true hbytes fun h => absurd hsmall h⟩
  · by_cases hroom : bytes.length < s.capacity
    · obtain ⟨t, hassign, hsound, hbytes⟩ := assignView_room hs b hc a hsmall hroom
      exact Or.inl ⟨t, hassign, hsound, iff_of_true hbytes fun _ h => absurd hroom (Nat.not_lt.mpr h)⟩
    cases hok : a.ok with
    | false => exact Or.inr ⟨rfl, assignView_refused hs b hc hok (fun h => absurd h hsmall) fun _ => hroom⟩
    | true =>
      obtain ⟨t, hassign, hsound, hbytes⟩ := assignView_regrown hs b hc hok hfits hsmall hroom
      refine Or.inl ⟨t, hassign, hsound, ?_⟩
      rw [hbytes, take_moved_eq_iff (by omega)]
      constructor
      · exact fun h _ _ => h
      · exact fun h => h hsmall (Nat.le_of_not_lt hroom)

/-- `t` holds the bytes of `sv`, all of them and no others, with its end marked. -/
structure Assigned (t : StringImpl) (sv : StringView) : Prop where
  bytes : t.bytes = sv.bytes
  len : t.len = sv.bytes.length
  nul : t.buffer[t.len]? = some 0

/-- The assignment succeeds and leaves the bytes of `sv`, whatever the string was; so does
`string_assign` where `sv` is the view of a C string. -/
def Assigns (b : Build) (a : StringAlloc) (s : StringImpl) (sv : StringView) : Prop :=
  ∃ t, s.assignView b a sv = .ok (true, t) ∧ t.Assigned sv ∧
    ∀ cstr, sv = .fromCstr cstr → s.assign b a cstr = .ok (true, t)

/-- A null view needs a NUL in the small buffer, a view too long for the block a block that
holds it already. -/
def AssignsWell (a : StringAlloc) (s : StringImpl) : StringView → Prop
  | none => s.smallBuf.1[0]? = some 0
  | some bytes => s.data ≠ .small → s.capacity ≤ bytes.length → AlreadyThere s a bytes

theorem assigns_iff (b : Build) {s : StringImpl} (hs : s.Stored) {a : StringAlloc}
    (hok : a.ok = true) {sv : StringView} (hlen : sv.bytes.length < 2 ^ 30) :
    Assigns b a s sv ↔ AssignsWell a s sv := by
  have hstr {t : StringImpl} (h : s.assignView b a sv = .ok (true, t)) (cstr : Option Bytes)
      (hcstr : sv = .fromCstr cstr) : s.assign b a cstr = .ok (true, t) := by
    rw [assign, ← hcstr, h]
  cases sv with
  | none =>
    have hnull := assignView_null hs b a
    have hlen : s.cleared.len = 0 := rfl
    constructor
    · intro h
      obtain ⟨t, hassign, hassigned, -⟩ := h
      rw [hnull, Except.ok.injEq, Prod.mk.injEq] at hassign
      have hnul := hassigned.nul
      rw [← hassign.2, hlen] at hnul
      exact hnul
    · intro h
      refine ⟨s.cleared, hnull, ⟨rfl, rfl, ?_⟩, hstr hnull⟩
      rw [hlen]
      exact h
  | some bytes =>
    have hspec := assignView_spec hs b a (show bytes.length < 2 ^ 30 from hlen)
    rcases hspec with ⟨t, hassign, hsound, hbytes⟩ | ⟨hfalse, -⟩
    · have hlenT := hsound.placed.bytes_length
      constructor
      · intro h
        obtain ⟨t', hassign', hassigned, -⟩ := h
        rw [hassign, Except.ok.injEq, Prod.mk.injEq] at hassign'
        apply hbytes.mp
        rw [hassign'.2, hassigned.bytes]
        rfl
      · intro h
        have htext := hbytes.mpr h
        refine ⟨t, hassign, ⟨htext, ?_, hsound.nul⟩, hstr hassign⟩
        rw [← hlenT, htext, StringView.bytes, Option.getD_some]
    · rw [hok] at hfalse
      simp at hfalse

/-- Twenty others fit into the block of sixteen bytes. -/
theorem sixteen_assigns : Assigns .debug usedMemory sixteen (some (List.replicate 20 98)) := by
  apply (assigns_iff .debug sixteen_sound.stored _ _).mpr
  · intro _ hlong
    exact absurd hlong (by decide)
  · rfl
  · decide

/-- The block of sixteen bytes is regrown for thirty-two others, and shows its own. -/
theorem sixteen_not_assigns :
    initFromStringView usedMemory (some (List.replicate 16 97)) = .ok (some sixteen) ∧
      ¬ Assigns .debug usedMemory sixteen (some (List.replicate 32 98)) := by
  refine ⟨by decide +kernel, ?_⟩
  intro h
  obtain ⟨t, hassign, hassigned, -⟩ := h
  have hfirst : (sixteen.assignView .debug usedMemory (some (List.replicate 32 98))).map
      (fun r => r.2.bytes.head?) = .ok (some 97) := by
    decide +kernel
  rw [hassign, Except.map, hassigned.bytes] at hfirst
  simp [StringView.bytes] at hfirst

end StringImpl

end LiteHttp
