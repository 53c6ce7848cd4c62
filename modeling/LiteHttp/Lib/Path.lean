import Mathlib.Data.List.Infix

/-!
# Walks in a directory tree

A place in the tree is the list of names that leads to it from the top. A walk
stays, goes up (the top is its own parent) or goes into a name. Seen from where
it starts, a walk goes some levels up and then some names down, and that alone
says where it ends.
-/

namespace Path

set_option autoImplicit false

universe u
variable {κ : Type u}

inductive Move (κ : Type u) where
  | stay
  | up
  | into (name : κ)
  deriving DecidableEq, Repr

def Move.apply (dir : List κ) : Move κ → List κ
  | .stay => dir
  | .up => dir.dropLast
  | .into name => dir ++ [name]

def walk (dir : List κ) (moves : List (Move κ)) : List κ := moves.foldl Move.apply dir

/-- A walk seen from where it starts. -/
structure Relative (κ : Type u) where
  ups : Nat
  downs : List κ
  deriving DecidableEq, Repr

namespace Relative

def step (r : Relative κ) : Move κ → Relative κ
  | .stay => r
  | .up =>
    match r.downs with
    | [] => { r with ups := r.ups + 1 }
    | _ :: _ => { r with downs := r.downs.dropLast }
  | .into name => { r with downs := r.downs ++ [name] }

/-- Where it ends when it starts at `dir`. -/
def apply (dir : List κ) (r : Relative κ) : List κ := dir.take (dir.length - r.ups) ++ r.downs

end Relative

def relative (moves : List (Move κ)) : Relative κ := moves.foldl Relative.step ⟨0, []⟩

theorem walk_append (dir : List κ) (a b : List (Move κ)) :
    walk dir (a ++ b) = walk (walk dir a) b := List.foldl_append

theorem dropLast_take {l : List κ} {n : Nat} (h : n ≤ l.length) :
    (l.take n).dropLast = l.take (n - 1) := by
  rw [List.dropLast_eq_take, List.take_take, List.length_take, Nat.min_eq_left h,
    Nat.min_eq_left (Nat.sub_le n 1)]

theorem apply_step (dir : List κ) (r : Relative κ) (m : Move κ) :
    m.apply (r.apply dir) = (r.step m).apply dir := by
  obtain ⟨ups, downs⟩ := r
  cases m with
  | stay => rfl
  | into name => simp [Move.apply, Relative.apply, Relative.step]
  | up =>
    cases downs with
    | nil =>
      simp only [Move.apply, Relative.apply, Relative.step, List.append_nil]
      rw [dropLast_take (Nat.sub_le _ _), Nat.sub_sub]
    | cons d ds =>
      simp only [Move.apply, Relative.apply, Relative.step]
      exact List.dropLast_append_of_ne_nil (List.cons_ne_nil d ds)

/-- Walking and seeing the walk from its start come to the same place. -/
theorem walk_eq (dir : List κ) (moves : List (Move κ)) :
    walk dir moves = (relative moves).apply dir := by
  have hfold (r : Relative κ) :
      moves.foldl Move.apply (r.apply dir) = (moves.foldl Relative.step r).apply dir := by
    induction moves generalizing r with
    | nil => rfl
    | cons m moves ih => rw [List.foldl_cons, List.foldl_cons, apply_step, ih]
  have hstart : Relative.apply dir ⟨0, []⟩ = dir := by simp [Relative.apply]
  have := hfold ⟨0, []⟩
  rwa [hstart] at this

/-- A walk ends below its start exactly when it names, on its way down, the
directories it went up. -/
theorem prefix_walk_iff (dir : List κ) (moves : List (Move κ)) :
    dir <+: walk dir moves ↔
      dir.drop (dir.length - (relative moves).ups) <+: (relative moves).downs := by
  rw [walk_eq, Relative.apply]
  generalize dir.length - (relative moves).ups = kept
  have h : dir.take kept ++ dir.drop kept <+: dir.take kept ++ (relative moves).downs ↔
      dir.drop kept <+: (relative moves).downs := List.prefix_append_right_inj _
  rwa [List.take_append_drop] at h

/-- The way back to `dir` from where a walk that began there has ended. -/
def back (dir : List κ) (r : Relative κ) : List (Move κ) :=
  r.downs.map (fun _ => .up) ++ (dir.drop (dir.length - r.ups)).map .into

theorem walk_ups (dir names : List κ) : walk (dir ++ names) (names.map fun _ => .up) = dir := by
  induction names using List.reverseRecOn with
  | nil => simp [walk]
  | append_singleton names name ih =>
    have hups : (names ++ [name]).map (fun _ => Move.up) =
        Move.up :: names.map (fun _ => (Move.up : Move κ)) := by
      rw [List.map_const', List.map_const', List.length_append, List.length_singleton,
        List.replicate_succ]
    rw [hups, walk, List.foldl_cons, Move.apply, ← List.append_assoc, List.dropLast_concat, ← walk, ih]

theorem walk_downs (dir names : List κ) : walk dir (names.map .into) = dir ++ names := by
  induction names generalizing dir with
  | nil => simp [walk]
  | cons name names ih =>
    rw [List.map_cons, walk, List.foldl_cons, Move.apply, ← walk, ih, List.append_assoc]
    rfl

theorem walk_back (dir : List κ) (moves : List (Move κ)) :
    walk (walk dir moves) (back dir (relative moves)) = dir := by
  rw [walk_eq dir moves, back, walk_append, Relative.apply, walk_ups, walk_downs,
    List.take_append_drop]

/-- Of two walks from one place, the second ends below the end of the first exactly when it does
so as a walk from there. -/
theorem prefix_walk_walk_iff (dir : List κ) (a b : List (Move κ)) :
    walk dir a <+: walk dir b ↔ walk dir a <+: walk (walk dir a) (back dir (relative a) ++ b) := by
  rw [walk_append, walk_back]

end Path
