import LiteHttp.StringRep

/-!
# Sound strings and the pieces of the operations

A sound string ends in a NUL, keeps its capacity zero exactly in the small
buffer and its size within its storage. A stored string may lack the NUL while it
has no content, and a placed one has only its size within its storage: an
operation asks for no more than it needs.
-/

namespace LiteHttp

set_option autoImplicit false

namespace StringImpl

structure Sound (s : StringImpl) : Prop where
  nul : s.buffer[s.len]? = some 0
  capacity_iff : s.capacity = 0 ↔ s.data = .small
  small : s.data = .small → s.size ≤ smallBufSize
  heap : s.data ≠ .small → s.size ≤ s.capacity ∧ s.capacity ≤ s.buffer.length

@[simp] theorem write_size (s : StringImpl) (off : Nat) (xs : Bytes) :
    (s.write off xs).size = s.size := by
  unfold write
  split <;> rfl

@[simp] theorem write_capacity (s : StringImpl) (off : Nat) (xs : Bytes) :
    (s.write off xs).capacity = s.capacity := by
  unfold write
  split <;> rfl

@[simp] theorem write_buffer (s : StringImpl) (off : Nat) (xs : Bytes) :
    (s.write off xs).buffer = Block.write s.buffer off xs := by
  unfold write buffer
  cases s.data <;> rfl

@[simp] theorem write_data_small (s : StringImpl) (off : Nat) (xs : Bytes) :
    (s.write off xs).data = .small ↔ s.data = .small := by
  unfold write
  cases s.data <;> simp

theorem store_of_le {s : StringImpl} {off : Nat} {xs : Bytes}
    (h : off + xs.length ≤ s.buffer.length) : s.store off xs = .ok (s.write off xs) := by
  simp [store, h]

theorem buffer_small {s : StringImpl} (h : s.data = .small) : s.buffer.length = smallBufSize := by
  rw [buffer, h]
  exact s.smallBuf.2

theorem len_of_size {s : StringImpl} {n : Nat} (h : s.size = n + 1) : s.len = n := by
  simp [len, h]

theorem len_of_size_zero {s : StringImpl} (h : s.size = 0) : s.len = 0 := by simp [len, h]

/-- `t` holds `content` at its start, ended by a NUL, in the storage `s` has. -/
structure Holds (t s : StringImpl) (content : Bytes) : Prop where
  size : t.size = content.length + 1
  capacity : t.capacity = s.capacity
  small_iff : t.data = .small ↔ s.data = .small
  length : t.buffer.length = s.buffer.length
  text : t.buffer.take content.length = content
  nul : t.buffer[content.length]? = some 0

theorem cpySv2str_holds {s : StringImpl} {sv : Bytes} {offset : Nat} (hoff : offset < 2 ^ 31)
    (hfit : offset + sv.length + 1 ≤ s.buffer.length) :
    ∃ t, s.cpySv2str sv offset = .ok t ∧ t.Holds s (s.buffer.take offset ++ sv) := by
  have hlen : (s.buffer.take offset ++ sv).length = offset + sv.length := by simp; omega
  have hfirst : s.store offset sv = .ok (s.write offset sv) := store_of_le (by omega)
  have hsecond : (s.write offset sv).store (offset + sv.length) [0] =
      .ok ((s.write offset sv).write (offset + sv.length) [0]) := by
    apply store_of_le
    simp only [write_buffer, Block.length_write, List.length_singleton]
    exact hfit
  refine ⟨{ (s.write offset sv).write (offset + sv.length) [0] with size := offset + sv.length + 1 },
    ?_, ?_⟩
  · simp only [cpySv2str, Nat.not_le.mpr hoff, if_false, hfirst, hsecond, bind, Except.bind, pure,
      Except.pure]
  · have hbuffer : ({ (s.write offset sv).write (offset + sv.length) [0] with
        size := offset + sv.length + 1 } : StringImpl).buffer =
        Block.write (Block.write s.buffer offset sv) (offset + sv.length) [0] := by
      show ((s.write offset sv).write (offset + sv.length) [0]).buffer = _
      rw [write_buffer, write_buffer]
    constructor
    · rw [hlen]
    · simp
    · simp
    · rw [hbuffer, Block.length_write, Block.length_write]
    · rw [hbuffer, hlen, Block.take_write_before (Nat.le_refl _), Block.take_write (by omega)]
    · rw [hbuffer, hlen]
      have hend : (Block.write (Block.write s.buffer offset sv) (offset + sv.length)
          [0])[offset + sv.length + 0]? = [(0 : Byte)][0]? :=
        Block.getElem?_write_in (by simp; omega) (by simp)
      simpa using hend

/-- The content, without the NUL behind it. -/
def bytes (s : StringImpl) : Bytes := s.buffer.take s.len

namespace Holds

variable {s t : StringImpl} {text : Bytes}

theorem bytes_eq (h : t.Holds s text) : t.bytes = text := by
  rw [bytes, len_of_size h.size, h.text]

theorem with_capacity (h : t.Holds s text) (capacity : Nat) :
    ({ t with capacity := capacity } : StringImpl).Holds { s with capacity := capacity } text :=
  ⟨h.size, rfl, h.small_iff, h.length, h.text, h.nul⟩

theorem with_smallBuf (h : t.Holds s text) (hheap : s.data ≠ .small)
    (buf : { buf : Bytes // buf.length = smallBufSize }) :
    ({ t with smallBuf := buf } : StringImpl).Holds s text := by
  have hbuffer : ({ t with smallBuf := buf } : StringImpl).buffer = t.buffer := by
    unfold buffer
    cases hdata : t.data with
    | small => exact absurd (h.small_iff.mp hdata) hheap
    | heap block => rfl
  refine ⟨h.size, h.capacity, h.small_iff, ?_, ?_, ?_⟩
  · rw [hbuffer, h.length]
  · rw [hbuffer, h.text]
  · rw [hbuffer, h.nul]

theorem sound (h : t.Holds s text) (hcapacity : s.capacity = 0 ↔ s.data = .small)
    (hsmall : s.data = .small → text.length + 1 ≤ smallBufSize)
    (hheap : s.data ≠ .small → text.length + 1 ≤ s.capacity ∧ s.capacity ≤ s.buffer.length) :
    t.Sound := by
  constructor
  · rw [len_of_size h.size]
    exact h.nul
  · rw [h.capacity, h.small_iff]
    exact hcapacity
  · rw [h.small_iff, h.size]
    exact hsmall
  · rw [ne_eq, h.small_iff, h.size, h.capacity, h.length]
    exact hheap

/-- Storing the NUL where it already is changes nothing that counts. -/
theorem store_nul (h : t.Holds s text) (hfit : text.length < t.buffer.length) :
    ∃ u, t.store text.length [0] = .ok u ∧ u.Holds s text := by
  refine ⟨_, store_of_le (by rw [List.length_singleton]; exact hfit), ?_⟩
  constructor
  · rw [write_size, h.size]
  · rw [write_capacity, h.capacity]
  · rw [write_data_small, h.small_iff]
  · rw [write_buffer, Block.length_write, h.length]
  · rw [write_buffer, Block.take_write_before (Nat.le_refl _), h.text]
  · have hend : (Block.write t.buffer text.length [0])[text.length + 0]? = [(0 : Byte)][0]? :=
      Block.getElem?_write_in (by simpa using hfit) (by simp)
    rw [write_buffer]
    simpa using hend

end Holds

theorem zeroFill_holds {s : StringImpl} {newLen : Nat} (hle : s.size ≤ newLen)
    (hfit : newLen + 1 ≤ s.buffer.length) :
    ∃ t, s.zeroFill newLen = .ok t ∧
      t.Holds s (s.buffer.take s.size ++ List.replicate (newLen - s.size) 0) := by
  have hlen : (s.buffer.take s.size ++ List.replicate (newLen - s.size) (0 : Byte)).length = newLen := by
    simp
    omega
  have hstore : s.store s.size (List.replicate (newLen - s.size + 1) 0) =
      .ok (s.write s.size (List.replicate (newLen - s.size + 1) 0)) := by
    apply store_of_le
    simp
    omega
  refine ⟨{ s.write s.size (List.replicate (newLen - s.size + 1) 0) with size := newLen + 1 }, ?_, ?_⟩
  · simp only [zeroFill, hstore, bind, Except.bind, pure, Except.pure]
  · have hbuffer : ({ s.write s.size (List.replicate (newLen - s.size + 1) 0) with
        size := newLen + 1 } : StringImpl).buffer =
        Block.write s.buffer s.size (List.replicate (newLen - s.size + 1) 0) :=
      write_buffer s _ _
    constructor
    · rw [hlen]
    · simp
    · simp
    · rw [hbuffer, Block.length_write]
    · have hall : (Block.write s.buffer s.size (List.replicate (newLen - s.size + 1) 0)).take
          (s.size + (List.replicate (newLen - s.size + 1) (0 : Byte)).length) =
          s.buffer.take s.size ++ List.replicate (newLen - s.size + 1) 0 :=
        Block.take_write (by simp; omega)
      have hcut : (s.buffer.take s.size ++ List.replicate (newLen - s.size + 1) (0 : Byte)).take newLen =
          s.buffer.take s.size ++ List.replicate (newLen - s.size) 0 := by
        have hsize : (s.buffer.take s.size).length = s.size := by
          rw [List.length_take]
          omega
        rw [List.take_append, hsize, List.take_of_length_le (by omega), List.take_replicate,
          Nat.min_eq_left (by omega)]
      have htake := congrArg (List.take newLen) hall
      rw [List.take_take, List.length_replicate, Nat.min_eq_left (by omega), hcut] at htake
      rw [hbuffer, hlen, htake]
    · rw [hbuffer, hlen]
      obtain ⟨k, hk⟩ := Nat.exists_eq_add_of_le hle
      have hend : (Block.write s.buffer s.size (List.replicate (newLen - s.size + 1) 0))[s.size + k]? =
          (List.replicate (newLen - s.size + 1) (0 : Byte))[k]? :=
        Block.getElem?_write_in (by omega) (by simp; omega)
      rw [hk] at hend ⊢
      rw [hend, List.getElem?_replicate]
      simp

theorem malloc_of_le {ok : Bool} {size : Nat} (h : ok = true → size ≤ ptrdiffMax) :
    malloc ok size = .ok ok := by
  rw [malloc, if_neg]
  rintro ⟨hok, hlt⟩
  exact Nat.not_lt.mpr (h hok) hlt

/-- A growth of ordinary length has a capacity, and one that fits. -/
theorem nextCapacity_fits {n : Nat} (h : n ≤ 2 ^ 30) :
    ∃ c, nextCapacity n = some c ∧ n ≤ c ∧ 0 < c ∧ c ≤ ptrdiffMax := by
  obtain ⟨c, hc⟩ := Option.isSome_iff_exists.mp (nextCapacity_isSome h)
  have hge := nextCapacity_ge hc
  have hle := nextCapacity_le hc
  refine ⟨c, hc, hge, ?_, ?_⟩
  · rcases Nat.eq_zero_or_pos n with rfl | hpos
    · simp only [nextCapacity, if_true, Option.some.injEq] at hc
      omega
    · omega
  · unfold ptrdiffMax
    omega

/-- The small buffer has no capacity of its own, and the size lies within the storage. -/
structure Placed (s : StringImpl) : Prop where
  small : s.data = .small → s.capacity = 0
  size_le : s.size ≤ s.buffer.length

/-- `size` counts the content and the NUL behind it, or is zero where there is no content. -/
structure Stored (s : StringImpl) : Prop where
  nul : s.size ≠ 0 → s.buffer[s.len]? = some 0
  capacity_iff : s.capacity = 0 ↔ s.data = .small
  small : s.data = .small → s.size ≤ smallBufSize
  heap : s.data ≠ .small → s.size ≤ s.capacity ∧ s.capacity ≤ s.buffer.length

theorem len_le_size (s : StringImpl) : s.len ≤ s.size := by
  unfold len
  split <;> omega

theorem size_le_len (s : StringImpl) : s.size ≤ s.len + 1 := by
  unfold len
  split <;> omega

theorem len_lt_size (s : StringImpl) (hne : s.size ≠ 0) : s.len < s.size := by
  rw [len, if_neg hne]
  omega

namespace Placed

variable {s : StringImpl} (hs : s.Placed)
include hs

theorem useSbuf_eq (b : Build) : s.useSbuf b = .ok (decide (s.data = .small)) := by
  unfold useSbuf
  cases hdata : s.data with
  | small => simp [assert_of (hs.small hdata), bind, Except.bind, pure, Except.pure]
  | heap block => simp

theorem bytes_length : s.bytes.length = s.len := by
  have hlen := s.len_le_size
  have hsize := hs.size_le
  rw [bytes, List.length_take]
  omega

end Placed

namespace Stored

variable {s : StringImpl} (hs : s.Stored)
include hs

theorem placed : s.Placed := by
  constructor
  · exact hs.capacity_iff.mpr
  · by_cases hsmall : s.data = .small
    · rw [buffer_small hsmall]
      exact hs.small hsmall
    · have hheap := hs.heap hsmall
      omega

/-- What a stored string without content may lack. -/
theorem sound (hnul : s.size = 0 → s.buffer[0]? = some 0) : s.Sound := by
  refine ⟨?_, hs.capacity_iff, hs.small, hs.heap⟩
  by_cases hzero : s.size = 0
  · rw [len_of_size_zero hzero]
    exact hnul hzero
  · exact hs.nul hzero

end Stored

namespace Sound

variable {s : StringImpl} (hs : s.Sound)
include hs

theorem stored : s.Stored := ⟨fun _ => hs.nul, hs.capacity_iff, hs.small, hs.heap⟩

theorem placed : s.Placed := hs.stored.placed

end Sound

/-- The string in a block of its own. -/
def heaped (s : StringImpl) (a : StringAlloc) (newCap : Nat) : StringImpl :=
  { s with
    data := .heap (Block.moved a.fill newCap (s.smallBuf.1.take s.size))
    capacity := newCap }

theorem cpySmbuf2data_eq {s : StringImpl} (hs : s.Placed) (hsmall : s.data = .small) {newCap : Nat}
    (hpos : 0 < newCap) (hcap : s.size ≤ newCap) (b : Build) {a : StringAlloc}
    (hle : a.ok = true → newCap ≤ ptrdiffMax) :
    s.cpySmbuf2data b a newCap = .ok (if a.ok then (true, s.heaped a newCap) else (false, s)) := by
  have hzero := hs.small hsmall
  have hsize : s.size ≤ smallBufSize := buffer_small hsmall ▸ hs.size_le
  have hnot : ¬ (smallBufSize < s.size ∨ newCap < s.size) := by omega
  have halloc : malloc a.ok newCap = .ok a.ok := malloc_of_le hle
  simp only [cpySmbuf2data, assert_of hzero, assert_of hsmall, assert_of (Nat.ne_of_gt hpos), halloc,
    hnot, if_false, bind, Except.bind, pure, Except.pure]
  cases a.ok with
  | false => rfl
  | true => rfl

theorem realloc_eq {s : StringImpl} {size : Nat} {a : StringAlloc}
    (hle : a.ok = true → size ≤ ptrdiffMax) :
    s.realloc a size = .ok (if a.ok then some (Block.moved a.fill size s.buffer) else none) := by
  simp [realloc, malloc_of_le hle, bind, Except.bind, pure, Except.pure]

/-- The string in other storage on the heap. -/
def reheaped (s : StringImpl) (a : StringAlloc) (newCap : Nat) : StringImpl :=
  if s.data = .small then s.heaped a newCap
  else { s with data := .heap (Block.moved a.fill newCap s.buffer), capacity := newCap }

@[simp] theorem reheaped_size (s : StringImpl) (a : StringAlloc) (newCap : Nat) :
    (s.reheaped a newCap).size = s.size := by
  unfold reheaped heaped
  split <;> rfl

@[simp] theorem reheaped_capacity (s : StringImpl) (a : StringAlloc) (newCap : Nat) :
    (s.reheaped a newCap).capacity = newCap := by
  unfold reheaped heaped
  split <;> rfl

@[simp] theorem reheaped_not_small (s : StringImpl) (a : StringAlloc) (newCap : Nat) :
    (s.reheaped a newCap).data ≠ .small := by
  unfold reheaped heaped
  split <;> simp

@[simp] theorem reheaped_length (s : StringImpl) (a : StringAlloc) (newCap : Nat) :
    (s.reheaped a newCap).buffer.length = newCap := by
  unfold reheaped
  split
  · exact Block.length_moved
  · exact Block.length_moved

/-- Moving keeps what the size covers. -/
theorem take_reheaped {s : StringImpl} (hs : s.Placed) (a : StringAlloc) {newCap k : Nat}
    (hk : k ≤ s.size) (hcap : s.size ≤ newCap) :
    (s.reheaped a newCap).buffer.take k = s.buffer.take k := by
  have hle := hs.size_le
  unfold reheaped
  by_cases hsmall : s.data = .small
  · have hbuf : s.smallBuf.1 = s.buffer := by rw [buffer, hsmall]
    have hmoved : (s.heaped a newCap).buffer = Block.moved a.fill newCap (s.buffer.take s.size) := by
      rw [heaped, buffer, hbuf]
    rw [if_pos hsmall, hmoved, Block.take_moved (by omega) (by rw [List.length_take]; omega),
      List.take_take, Nat.min_eq_left hk]
  · rw [if_neg hsmall]
    exact Block.take_moved (by omega) (by omega)

theorem reheaped_len (s : StringImpl) (a : StringAlloc) (newCap : Nat) :
    (s.reheaped a newCap).len = s.len := by
  unfold len
  rw [reheaped_size]

theorem reheaped_stored {s : StringImpl} (hs : s.Stored) (a : StringAlloc) {newCap : Nat}
    (hpos : 0 < newCap) (hcap : s.size ≤ newCap) : (s.reheaped a newCap).Stored := by
  constructor
  · rw [reheaped_size, reheaped_len]
    intro hne
    have hlt := s.len_lt_size hne
    have htake := congrArg (fun l : Bytes => l[s.len]?)
      (take_reheaped hs.placed a (Nat.le_refl s.size) hcap)
    simp only [List.getElem?_take_of_lt hlt] at htake
    rw [htake, hs.nul hne]
  · rw [reheaped_capacity]
    exact iff_of_false (by omega) (reheaped_not_small s a newCap)
  · exact fun h => absurd h (reheaped_not_small s a newCap)
  · intro _
    rw [reheaped_size, reheaped_capacity, reheaped_length]
    exact ⟨hcap, Nat.le_refl _⟩

/-- Moving keeps the NUL that the size covers; a small string without one gets what the new
memory holds. -/
theorem reheaped_sound_iff {s : StringImpl} (hs : s.Sound) (a : StringAlloc) {newCap : Nat}
    (hpos : 0 < newCap) (hcap : s.size ≤ newCap) :
    (s.reheaped a newCap).Sound ↔ (s.data = .small → s.size = 0 → a.fill 0 = 0) := by
  have hstored := reheaped_stored hs.stored a hpos hcap
  by_cases hsize : s.size = 0
  · by_cases hsmall : s.data = .small
    · have hfirst : (s.reheaped a newCap).buffer[0]? = some (a.fill 0) := by
        rw [reheaped, if_pos hsmall, heaped, buffer, hsize, List.take_zero]
        exact Block.getElem?_moved_new hpos (Nat.le_refl 0)
      constructor
      · intro h _ _
        have hzero := h.nul
        rw [reheaped_len, len_of_size_zero hsize, hfirst] at hzero
        simpa using hzero
      · intro h
        exact hstored.sound fun _ => by rw [hfirst, h hsmall hsize]
    · refine iff_of_true (hstored.sound fun _ => ?_) fun h => absurd h hsmall
      have hnul := hs.nul
      rw [len_of_size_zero hsize] at hnul
      have hlt := (List.getElem?_eq_some_iff.mp hnul).1
      rw [reheaped, if_neg hsmall]
      exact (Block.getElem?_moved hpos hlt).trans hnul
  · refine iff_of_true (hstored.sound fun h => ?_) fun _ h => absurd h hsize
    rw [reheaped_size] at h
    exact absurd h hsize

theorem Holds.sound_heap {s t : StringImpl} {text : Bytes} (h : t.Holds s text)
    (hheap : s.data ≠ .small) (hpos : 0 < s.capacity) (hfit : text.length + 1 ≤ s.capacity)
    (hle : s.capacity ≤ s.buffer.length) : t.Sound :=
  h.sound (iff_of_false (by omega) hheap) (fun hsmall => absurd hsmall hheap)
    fun _ => ⟨hfit, hle⟩

/-- The string without content, back in its small buffer. -/
def cleared (s : StringImpl) : StringImpl := { s with size := 0, capacity := 0, data := .small }

theorem clear_eq {s : StringImpl} (hs : s.Placed) (b : Build) : s.clear b = .ok s.cleared := by
  obtain ⟨smallBuf, data, size, capacity⟩ := s
  cases data with
  | small =>
    have hzero : capacity = 0 := hs.small rfl
    subst hzero
    simp [clear, useSbuf, cleared, assert_of, bind, Except.bind, pure, Except.pure]
  | heap block => simp [clear, useSbuf, cleared, bind, Except.bind, pure, Except.pure]

/-- Clearing restores the NUL only if it is in the small buffer already. -/
theorem cleared_sound_iff (s : StringImpl) : s.cleared.Sound ↔ s.smallBuf.1[0]? = some 0 := by
  constructor
  · exact fun h => h.nul
  · intro h
    exact ⟨h, iff_of_true rfl rfl, fun _ => Nat.zero_le _, fun hne => absurd rfl hne⟩

theorem write_with_size (s : StringImpl) (size off : Nat) (xs : Bytes) :
    ({ s with size := size } : StringImpl).write off xs = { s.write off xs with size := size } := by
  unfold write
  cases s.data <;> rfl

/-- The first `newLen` bytes, ended by a NUL that overwrites the byte behind them. -/
theorem terminated_holds {s : StringImpl} (newLen : Nat) (hfit : newLen + 1 ≤ s.buffer.length) :
    ({ s.write newLen [0] with size := newLen + 1 } : StringImpl).Holds s (s.buffer.take newLen) := by
  have hlen : (s.buffer.take newLen).length = newLen := by
    rw [List.length_take]
    omega
  have hbuffer : ({ s.write newLen [0] with size := newLen + 1 } : StringImpl).buffer =
      Block.write s.buffer newLen [0] := write_buffer s newLen [0]
  constructor
  · rw [hlen]
  · simp
  · simp
  · rw [hbuffer, Block.length_write]
  · rw [hbuffer, hlen, Block.take_write_before (Nat.le_refl _)]
  · have hend : (Block.write s.buffer newLen [0])[newLen + 0]? = [(0 : Byte)][0]? :=
      Block.getElem?_write_in (by omega) (by simp)
    rw [hbuffer, hlen]
    simpa using hend

theorem init_sound : init.Sound :=
  ⟨rfl, iff_of_true rfl rfl, fun _ => Nat.zero_le _, fun h => absurd rfl h⟩

/-- Sixteen bytes, the least that a small buffer has no room for. -/
def sixteen : StringImpl where
  smallBuf := init.smallBuf
  data := .heap (List.replicate 16 97 ++ [0] ++ List.replicate 15 170)
  size := 17
  capacity := 32

theorem sixteen_sound : sixteen.Sound :=
  ⟨by decide, by decide, fun h => absurd h (by decide), fun _ => by decide⟩

/-- A successful initialisation from a view is sound and holds the view. -/
theorem initFromStringView_sound {a : StringAlloc} {sv : StringView} {s : StringImpl}
    (h : initFromStringView a sv = .ok (some s)) : s.Sound ∧ s.bytes = sv.bytes := by
  unfold initFromStringView at h
  cases sv with
  | none =>
    simp only [Except.ok.injEq, Option.some.injEq] at h
    rw [← h]
    exact ⟨init_sound, rfl⟩
  | some bytes =>
    simp only at h
    split at h
    · rename_i hshort
      have hfit : 0 + bytes.length + 1 ≤ init.buffer.length := by
        rw [buffer_small rfl]
        omega
      obtain ⟨t, hcpy, hholds⟩ := cpySv2str_holds (by decide) hfit
      simp only [hcpy, bind, Except.bind, pure, Except.pure, Except.ok.injEq, Option.some.injEq] at h
      rw [← h]
      refine ⟨hholds.sound init_sound.capacity_iff (fun _ => ?_) fun h => absurd rfl h, ?_⟩
      · rw [List.take_zero, List.nil_append]
        exact hshort
      · rw [hholds.bytes_eq]
        rfl
    · split at h
      · simp at h
      · rename_i c hc
        have hge := nextCapacity_ge hc
        obtain ⟨ok, -, h⟩ := bind_ok h
        cases ok with
        | false => simp [pure, Except.pure] at h
        | true =>
          simp only [Bool.not_true, Bool.false_eq_true, if_false] at h
          obtain ⟨t, hcpy, h⟩ := bind_ok h
          simp only [pure, Except.pure, Except.ok.injEq, Option.some.injEq] at h
          let u : StringImpl := { init with data := .heap (Block.moved a.fill c []) }
          have hbuf : u.buffer.length = c := Block.length_moved
          have hfit : 0 + bytes.length + 1 ≤ u.buffer.length := by
            rw [hbuf]
            omega
          obtain ⟨t', hcpy', hholds⟩ := cpySv2str_holds (by decide) hfit
          rw [hcpy', Except.ok.injEq] at hcpy
          have hdone := hholds.with_capacity c
          rw [hcpy, h] at hdone
          refine ⟨hdone.sound_heap (by simp [u]) (show 0 < c by omega) ?_ (Nat.le_of_eq hbuf.symm), ?_⟩
          · rw [List.take_zero, List.nil_append]
            exact hge
          · rw [hdone.bytes_eq]
            rfl

theorem takeOwnership_sound_iff (s : StringImpl) (data : Bytes) (len : Nat) :
    (s.takeOwnership data len).Sound ↔ data[len]? = some 0 := by
  have hnul : (s.takeOwnership data len).buffer[(s.takeOwnership data len).len]? = data[len]? := rfl
  constructor
  · intro h
    rw [← hnul, h.nul]
  · intro h
    have hlt := (List.getElem?_eq_some_iff.mp h).1
    exact ⟨hnul.trans h, iff_of_false (by simp [takeOwnership]) (by simp [takeOwnership]),
      fun hsmall => by simp [takeOwnership] at hsmall, fun _ => ⟨Nat.le_refl _, hlt⟩⟩

/-- With the whole length of the block, as its contract asks, the NUL would have to stand behind
the block. -/
theorem takeOwnership_whole_not_sound (s : StringImpl) (data : Bytes) :
    ¬ (s.takeOwnership data data.length).Sound := by
  rw [takeOwnership_sound_iff, List.getElem?_eq_none (Nat.le_refl _)]
  simp

end StringImpl

end LiteHttp
