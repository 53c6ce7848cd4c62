import LiteHttp.Lib.Run

/-!
# What is seen of a run

An observer sees some of the steps of a run, and of those what it has an eye for.
An invariant may then speak of what was seen so far, which is how a component of
a state is told apart from the others: it is what its own steps made of it.
-/

namespace Run

set_option autoImplicit false

universe u v w x
variable {σ ο : Type u} {ι : Type v} {ε : Type w} {κ : Type x}

/-- What is seen of the steps of a run, in order, up to a fault. -/
def seen (step : σ → ι → Except ε (ο × σ)) (view : σ → ι → Option κ) : σ → List ι → List κ
  | _, [] => []
  | s, i :: is =>
    match step s i with
    | .error _ => []
    | .ok (_, t) => (view s i).toList ++ seen step view t is

variable {step : σ → ι → Except ε (ο × σ)} {view : σ → ι → Option κ}

theorem seen_cons {s t : σ} {i : ι} {is : List ι} {o : ο} (hs : step s i = .ok (o, t)) :
    seen step view s (i :: is) = (view s i).toList ++ seen step view t is := by simp [seen, hs]

/-- An invariant of the state and what was seen so far holds at the end of a run. -/
theorem inv_seen (Inv : σ → List κ → Prop)
    (keep : ∀ {s : σ} {i : ι} {o : ο} {t : σ} {ks : List κ}, Inv s ks → step s i = .ok (o, t) →
      Inv t (ks ++ (view s i).toList))
    {s t : σ} {is : List ι} {os : List ο} {ks : List κ} (hs : Inv s ks)
    (hx : exec step s is = .ok (os, t)) : Inv t (ks ++ seen step view s is) := by
  induction is generalizing s os ks with
  | nil =>
    simp only [exec_nil, Except.ok.injEq, Prod.mk.injEq] at hx
    rw [← hx.2, seen, List.append_nil]
    exact hs
  | cons i is ih =>
    obtain ⟨o, u, os', hstep, hr, -⟩ := exec_cons_ok hx
    rw [seen_cons hstep, ← List.append_assoc]
    exact ih (keep hs hstep) hr

end Run
