import LiteHttp.Lib.Run

/-!
# Computations that may fault, on two levels

A concrete computation refines an abstract one where it gives a result whenever the
abstract one does, and a related one. What the concrete level does where the abstract
one faults is left open: it may have memory there that the abstract one has not.
-/

namespace Simulate

set_option autoImplicit false

universe u v w
variable {ε : Type w} {α β γ δ : Type u} {σ τ : Type u}

/-- Every result of the abstract computation `y` is matched by one of `x`. -/
def Refines (R : α → β → Prop) (x : Except ε α) (y : Except ε β) : Prop :=
  ∀ b, y = .ok b → ∃ a, x = .ok a ∧ R a b

variable {R : α → β → Prop} {S : γ → δ → Prop}

theorem refines_ok {a : α} {b : β} (h : R a b) : Refines R (.ok a : Except ε α) (.ok b) := by
  intro b' hb
  obtain rfl := Except.ok.inj hb
  exact ⟨a, rfl, h⟩

theorem refines_error {x : Except ε α} {e : ε} : Refines R x (.error e : Except ε β) := by
  intro b hb
  simp at hb

theorem refines_refl (x : Except ε α) : Refines Eq x x := fun a ha => ⟨a, ha, rfl⟩

theorem Refines.bind {x : Except ε α} {y : Except ε β} (h : Refines R x y)
    {f : α → Except ε γ} {g : β → Except ε δ} (hf : ∀ a b, R a b → Refines S (f a) (g b)) :
    Refines S (x >>= f) (y >>= g) := by
  cases y with
  | error e => exact refines_error
  | ok b =>
    obtain ⟨a, rfl, hab⟩ := h b rfl
    exact hf a b hab

/-- Where both levels do the same. -/
theorem refines_bind_same {x : Except ε α} {f : α → Except ε γ} {g : α → Except ε δ}
    (hf : ∀ a, Refines S (f a) (g a)) : Refines S (x >>= f) (x >>= g) := by
  refine (refines_refl x).bind ?_
  intro a b hab
  rw [hab]
  exact hf b

theorem refines_ite {p q : Prop} [Decidable p] [Decidable q] (hpq : p ↔ q) {x x' : Except ε α}
    {y y' : Except ε β} (ht : Refines R x y) (hf : Refines R x' y') :
    Refines R (if p then x else x') (if q then y else y') := by
  by_cases hp : p
  · rw [if_pos hp, if_pos (hpq.mp hp)]
    exact ht
  · rw [if_neg hp, if_neg fun hq => hp (hpq.mpr hq)]
    exact hf

theorem refines_foldlM {ι : Type v} {R : σ → τ → Prop} {f : σ → ι → Except ε σ}
    {g : τ → ι → Except ε τ} (step : ∀ s t i, R s t → Refines R (f s i) (g t i)) (is : List ι)
    {s : σ} {t : τ} (h : R s t) : Refines R (is.foldlM f s) (is.foldlM g t) := by
  induction is generalizing s t with
  | nil => exact refines_ok h
  | cons i is ih =>
    rw [List.foldlM_cons, List.foldlM_cons]
    exact (step s t i h).bind fun s' t' h' => ih h'

/-- Steps that refine steps make runs that refine runs, with the same outputs. -/
theorem refines_exec {ι : Type v} {ο : Type u} {R : σ → τ → Prop} {f : σ → ι → Except ε (ο × σ)}
    {g : τ → ι → Except ε (ο × τ)}
    (step : ∀ s t i, R s t → Refines (fun p q => p.1 = q.1 ∧ R p.2 q.2) (f s i) (g t i))
    (is : List ι) {s : σ} {t : τ} (h : R s t) :
    Refines (fun p q => p.1 = q.1 ∧ R p.2 q.2) (Run.exec f s is) (Run.exec g t is) := by
  induction is generalizing s t with
  | nil => exact refines_ok ⟨rfl, h⟩
  | cons i is ih =>
    intro q hq
    obtain ⟨outs, last⟩ := q
    obtain ⟨o, t', os, hstep, hrest, heq⟩ := Run.exec_cons_ok hq
    obtain ⟨⟨o', s'⟩, hstep', rfl, h'⟩ := step s t i h (o, t') hstep
    obtain ⟨⟨os', s''⟩, hrest', rfl, h''⟩ := ih h' (os, last) hrest
    exact ⟨(o' :: os', s''), Run.exec_cons hstep' hrest', heq.symm, h''⟩

end Simulate
