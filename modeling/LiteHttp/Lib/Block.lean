import Mathlib.Data.List.Basic

/-!
# Blocks of memory

A block is the list of its cells. A write replaces cells and leaves the size as
it is; a block that is moved to another size keeps the cells both have.
-/

namespace Block

set_option autoImplicit false

universe u
variable {α : Type u}

/-- The cells from `off` on replaced by `xs`, as far as the block has them. -/
def write (block : List α) (off : Nat) (xs : List α) : List α :=
  block.mapIdx fun i x => if i < off then x else (xs[i - off]?).getD x

/-- The block in new memory of `n` cells; `fill` is what the memory held before. -/
def moved (fill : Nat → α) (n : Nat) (block : List α) : List α :=
  block.take n ++ (List.range' block.length (n - block.length)).map fill

variable {block xs : List α} {off i n : Nat} {fill : Nat → α}

@[simp] theorem length_write : (write block off xs).length = block.length := by simp [write]

theorem getElem?_write_before (h : i < off) : (write block off xs)[i]? = block[i]? := by
  rw [write, List.getElem?_mapIdx]
  simp [h]

theorem getElem?_write_in (h : off + i < block.length) (hi : i < xs.length) :
    (write block off xs)[off + i]? = xs[i]? := by
  rw [write, List.getElem?_mapIdx, List.getElem?_eq_getElem h]
  simp [hi, Nat.not_lt.mpr (Nat.le_add_right off i)]

/-- A write that fits leaves what is before it and puts its cells behind. -/
theorem take_write (h : off + xs.length ≤ block.length) :
    (write block off xs).take (off + xs.length) = block.take off ++ xs := by
  apply List.ext_getElem?
  intro i
  by_cases hlt : i < off + xs.length
  · rw [List.getElem?_take_of_lt hlt]
    by_cases hi : i < off
    · rw [getElem?_write_before hi, List.getElem?_append_left (by simp; omega),
        List.getElem?_take_of_lt hi]
    · obtain ⟨j, rfl⟩ := Nat.exists_eq_add_of_le (Nat.le_of_not_lt hi)
      have hj : j < xs.length := by omega
      have htake := List.length_take_le off block
      rw [getElem?_write_in (by omega) hj, List.getElem?_append_right (by omega)]
      congr 1
      rw [List.length_take]
      omega
  · rw [List.getElem?_eq_none (by simp; omega), List.getElem?_eq_none (by simp; omega)]

theorem take_write_before (h : n ≤ off) : (write block off xs).take n = block.take n := by
  apply List.ext_getElem?
  intro i
  by_cases hi : i < n
  · rw [List.getElem?_take_of_lt hi, List.getElem?_take_of_lt hi, getElem?_write_before (by omega)]
  · rw [List.getElem?_eq_none (by simp; omega), List.getElem?_eq_none (by simp; omega)]

@[simp] theorem length_moved : (moved fill n block).length = n := by
  simp only [moved, List.length_append, List.length_take, List.length_map, List.length_range']
  omega

theorem getElem?_moved (hn : i < n) (hi : i < block.length) :
    (moved fill n block)[i]? = block[i]? := by
  rw [moved, List.getElem?_append_left (by simp; omega), List.getElem?_take_of_lt hn]

theorem getElem?_moved_new (hn : i < n) (hi : block.length ≤ i) :
    (moved fill n block)[i]? = some (fill i) := by
  rw [moved, List.take_of_length_le (by omega), List.getElem?_append_right hi]
  simp only [List.getElem?_map, List.getElem?_range' (show i - block.length < n - block.length by omega),
    Option.map_some, Option.some.injEq]
  congr 1
  omega

theorem take_moved {k : Nat} (hn : k ≤ n) (hk : k ≤ block.length) :
    (moved fill n block).take k = block.take k := by
  rw [moved, List.take_append_of_le_length (by simp; omega), List.take_take, Nat.min_eq_left hn]

end Block
