import Mathlib.Data.List.DropRight
import Mathlib.Data.List.TakeWhile

/-!
# Texts between padding

A list without the elements of a kind at its two ends, and how that goes together with
cutting it at a mark.
-/

namespace Trim

set_option autoImplicit false

universe u
variable {α : Type u} {p : α → Bool}

/-- The list without the elements `p` accepts at either end. -/
def trim (p : α → Bool) (xs : List α) : List α := (xs.dropWhile p).rdropWhile p

/-- Nothing but padding. -/
def Pad (p : α → Bool) (xs : List α) : Prop := ∀ x ∈ xs, p x = true

theorem rdropWhile_pad {m t : List α} (hm : ∀ x ∈ m, p x = false) (ht : Pad p t) :
    (m ++ t).rdropWhile p = m := by
  induction t using List.reverseRecOn with
  | nil =>
    rw [List.append_nil, List.rdropWhile_eq_self_iff]
    intro hne
    rw [hm _ (List.getLast_mem hne)]
    exact Bool.false_ne_true
  | append_singleton t x ih =>
    rw [← List.append_assoc, List.rdropWhile_concat_pos _ _ _ (ht x (by simp))]
    exact ih fun y hy => ht y (List.mem_append_left _ hy)

theorem dropWhile_pad {s : List α} (hs : Pad p s) (xs : List α) :
    (s ++ xs).dropWhile p = xs.dropWhile p := by
  induction s with
  | nil => rfl
  | cons x s ih =>
    rw [List.cons_append, List.dropWhile_cons_of_pos (hs x List.mem_cons_self)]
    exact ih fun y hy => hs y (List.mem_cons_of_mem x hy)

/-- What is dropped at the right end is padding. -/
theorem rdropWhile_parts (p : α → Bool) (xs : List α) :
    ∃ t, Pad p t ∧ xs = xs.rdropWhile p ++ t := by
  induction xs using List.reverseRecOn with
  | nil => exact ⟨[], fun x hx => absurd hx List.not_mem_nil, by simp⟩
  | append_singleton xs x ih =>
    by_cases hx : p x = true
    · obtain ⟨t, ht, hxs⟩ := ih
      rw [List.rdropWhile_concat_pos _ _ _ hx]
      refine ⟨t ++ [x], ?_, ?_⟩
      · intro y hy
        rcases List.mem_append.mp hy with hy | hy
        · exact ht y hy
        · rw [List.mem_singleton.mp hy, hx]
      · rw [← List.append_assoc, ← hxs]
    · rw [List.rdropWhile_concat_neg _ _ _ hx]
      exact ⟨[], fun y hy => absurd hy List.not_mem_nil, by rw [List.append_nil]⟩

theorem dropWhile_parts (p : α → Bool) (xs : List α) :
    ∃ s, Pad p s ∧ xs = s ++ xs.dropWhile p :=
  ⟨xs.takeWhile p, fun _ hx => List.mem_takeWhile_imp hx, List.takeWhile_append_dropWhile.symm⟩

theorem trim_parts (p : α → Bool) (xs : List α) :
    ∃ s t, Pad p s ∧ Pad p t ∧ xs = s ++ (trim p xs ++ t) := by
  obtain ⟨s, hs, hxs⟩ := dropWhile_parts p xs
  obtain ⟨t, ht, hrest⟩ := rdropWhile_parts p (xs.dropWhile p)
  refine ⟨s, t, hs, ht, ?_⟩
  rw [trim, ← hrest]
  exact hxs

theorem trim_pad {s m t : List α} (hs : Pad p s) (hm : ∀ x ∈ m, p x = false) (ht : Pad p t) :
    trim p (s ++ (m ++ t)) = m := by
  rw [trim, dropWhile_pad hs, List.dropWhile_append]
  cases m with
  | nil =>
    rw [List.dropWhile_nil, List.isEmpty_nil, if_pos rfl, List.dropWhile_eq_nil_iff.mpr ht]
    exact List.rdropWhile_nil p
  | cons x m =>
    have hx : ¬ p x = true := by
      rw [hm x List.mem_cons_self]
      exact Bool.false_ne_true
    rw [List.dropWhile_cons_of_neg hx, List.isEmpty_cons, if_neg Bool.false_ne_true]
    exact rdropWhile_pad hm ht

theorem mem_trim {x : α} {xs : List α} (hx : x ∈ xs) (hp : p x = false) : x ∈ trim p xs := by
  obtain ⟨s, t, hs, ht, hxs⟩ := trim_parts p xs
  rw [hxs, List.mem_append, List.mem_append] at hx
  rcases hx with hx | hx | hx
  · rw [hs x hx] at hp
    cases hp
  · exact hx
  · rw [ht x hx] at hp
    cases hp

/-- An element that stays lets the first one stay. -/
theorem cons_rdropWhile {x : α} (hx : p x = false) (xs : List α) :
    (x :: xs).rdropWhile p = x :: xs.rdropWhile p := by
  induction xs using List.reverseRecOn with
  | nil =>
    have hstay : ([] ++ [x]).rdropWhile p = [] ++ [x] :=
      List.rdropWhile_concat_neg _ _ _ (by simp [hx])
    rw [List.rdropWhile_nil]
    exact hstay
  | append_singleton xs y ih =>
    rw [← List.cons_append]
    by_cases hy : p y = true
    · rw [List.rdropWhile_concat_pos _ _ _ hy, List.rdropWhile_concat_pos _ _ _ hy, ih]
    · rw [List.rdropWhile_concat_neg _ _ _ hy, List.rdropWhile_concat_neg _ _ _ hy,
        List.cons_append]

/-- Padding at the left end may be dropped before or after the cut at a mark that is none. -/
theorem takeWhile_dropWhile {q : α → Bool} (h : ∀ x, p x = true → q x = true) (xs : List α) :
    (xs.dropWhile p).takeWhile q = (xs.takeWhile q).dropWhile p := by
  induction xs with
  | nil => rfl
  | cons x xs ih =>
    by_cases hx : p x = true
    · rw [List.dropWhile_cons_of_pos hx, List.takeWhile_cons_of_pos (h x hx),
        List.dropWhile_cons_of_pos hx, ih]
    · rw [List.dropWhile_cons_of_neg hx]
      by_cases hq : q x = true
      · rw [List.takeWhile_cons_of_pos hq, List.dropWhile_cons_of_neg hx]
      · rw [List.takeWhile_cons_of_neg hq, List.dropWhile_nil]

end Trim
