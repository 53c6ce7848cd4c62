import Mathlib.Data.List.Basic

/-!
# Runs of a step that may fault

A step takes a state and an input and gives an output and the next state, or a
fault that ends the run. An invariant needs to be kept only by the steps a run
really makes, so a condition on steps is carried along the run by `Meets`.
-/

namespace Run

set_option autoImplicit false

universe u v w
variable {σ ο : Type u} {ι : Type v} {ε : Type w}

/-- The outputs of a run and the state it ends in. -/
def exec (step : σ → ι → Except ε (ο × σ)) : σ → List ι → Except ε (List ο × σ)
  | s, [] => .ok ([], s)
  | s, i :: is =>
    match step s i with
    | .error e => .error e
    | .ok (o, s) =>
      match exec step s is with
      | .error e => .error e
      | .ok (os, s) => .ok (o :: os, s)

/-- Every step the run makes meets the condition on the state before it and its input. -/
def Meets (step : σ → ι → Except ε (ο × σ)) (C : σ → ι → Prop) : σ → List ι → Prop
  | _, [] => True
  | s, i :: is => C s i ∧ ∀ o s', step s i = .ok (o, s') → Meets step C s' is

/-- Some of the first inputs, run on their own, give these outputs and this state. -/
def Reaches (step : σ → ι → Except ε (ο × σ)) (s : σ) (is : List ι) (os : List ο) (t : σ) : Prop :=
  ∃ js, js <+: is ∧ exec step s js = .ok (os, t)

variable {step : σ → ι → Except ε (ο × σ)} {C D : σ → ι → Prop}

@[simp] theorem exec_nil (s : σ) : exec step s [] = .ok ([], s) := rfl

theorem exec_cons_ok {s s' : σ} {i : ι} {is : List ι} {os : List ο}
    (h : exec step s (i :: is) = .ok (os, s')) :
    ∃ o t os', step s i = .ok (o, t) ∧ exec step t is = .ok (os', s') ∧ os = o :: os' := by
  cases hs : step s i with
  | error e => simp [exec, hs] at h
  | ok p =>
    obtain ⟨o, t⟩ := p
    cases hr : exec step t is with
    | error e => simp [exec, hs, hr] at h
    | ok q =>
      obtain ⟨os', s''⟩ := q
      simp only [exec, hs, hr, Except.ok.injEq, Prod.mk.injEq] at h
      obtain ⟨rfl, rfl⟩ := h
      exact ⟨o, t, os', rfl, hr, rfl⟩

theorem exec_cons {s t s' : σ} {i : ι} {is : List ι} {o : ο} {os : List ο}
    (hs : step s i = .ok (o, t)) (hr : exec step t is = .ok (os, s')) :
    exec step s (i :: is) = .ok (o :: os, s') := by simp [exec, hs, hr]

theorem exec_append {s t s' : σ} {is js : List ι} {os ps : List ο}
    (h : exec step s is = .ok (os, t)) (hr : exec step t js = .ok (ps, s')) :
    exec step s (is ++ js) = .ok (os ++ ps, s') := by
  induction is generalizing s os with
  | nil =>
    simp only [exec_nil, Except.ok.injEq, Prod.mk.injEq] at h
    obtain ⟨rfl, rfl⟩ := h
    exact hr
  | cons i is ih =>
    obtain ⟨o, u, os', hs, hx, rfl⟩ := exec_cons_ok h
    exact exec_cons hs (ih hx)

/-- A run that faults does so at one step, behind a run that returns. -/
theorem exec_error {s : σ} {is : List ι} {e : ε} (h : exec step s is = .error e) :
    ∃ js i os t, js ++ [i] <+: is ∧ exec step s js = .ok (os, t) ∧ step t i = .error e := by
  induction is generalizing s with
  | nil => simp at h
  | cons i is ih =>
    cases hs : step s i with
    | error f =>
      simp only [exec, hs, Except.error.injEq] at h
      exact ⟨[], i, [], s, by simp, rfl, h ▸ hs⟩
    | ok p =>
      obtain ⟨o, u⟩ := p
      have hrest : exec step u is = .error e := by
        cases hr : exec step u is with
        | error f => simpa [exec, hs, hr] using h
        | ok q => simp [exec, hs, hr] at h
      obtain ⟨js, j, os, t, hjs, hx, hj⟩ := ih hrest
      exact ⟨i :: js, j, o :: os, t, List.cons_prefix_cons.mpr ⟨rfl, hjs⟩, exec_cons hs hx, hj⟩

theorem exec_snoc_error {s t : σ} {is : List ι} {i : ι} {os : List ο} {e : ε}
    (hx : exec step s is = .ok (os, t)) (h : step t i = .error e) :
    exec step s (is ++ [i]) = .error e := by
  induction is generalizing s os with
  | nil =>
    simp only [exec_nil, Except.ok.injEq, Prod.mk.injEq] at hx
    simp [exec, hx.2, h]
  | cons j is ih =>
    obtain ⟨o, u, os', hs, hr, -⟩ := exec_cons_ok hx
    simp [exec, hs, ih hr]

theorem exec_length {s t : σ} {is : List ι} {os : List ο} (h : exec step s is = .ok (os, t)) :
    is.length = os.length := by
  induction is generalizing s os with
  | nil =>
    simp only [exec_nil, Except.ok.injEq, Prod.mk.injEq] at h
    simp [← h.1]
  | cons i is ih =>
    obtain ⟨o, u, os', -, hx, rfl⟩ := exec_cons_ok h
    simp [ih hx]

theorem Reaches.behind {s t t' : σ} {is js : List ι} {os ps : List ο}
    (hx : exec step s is = .ok (os, t)) (h : Reaches step t js ps t') :
    Reaches step s (is ++ js) (os ++ ps) t' := by
  obtain ⟨ks, hks, hr⟩ := h
  exact ⟨is ++ ks, List.prefix_append_right_inj is |>.mpr hks, exec_append hx hr⟩

theorem reaches_start (s : σ) (is : List ι) : Reaches step s is [] s := ⟨[], List.nil_prefix, rfl⟩

theorem Reaches.cons {s t u : σ} {i : ι} {is : List ι} {o : ο} {os : List ο}
    (hs : step s i = .ok (o, u)) (h : Reaches step u is os t) :
    Reaches step s (i :: is) (o :: os) t := by
  obtain ⟨js, hjs, hx⟩ := h
  exact ⟨i :: js, List.cons_prefix_cons.mpr ⟨rfl, hjs⟩, exec_cons hs hx⟩

theorem Reaches.nil_inv {s t : σ} {os : List ο} (h : Reaches step s [] os t) : os = [] ∧ t = s := by
  obtain ⟨js, hjs, hx⟩ := h
  rw [List.prefix_nil.mp hjs, exec_nil, Except.ok.injEq, Prod.mk.injEq] at hx
  exact ⟨hx.1.symm, hx.2.symm⟩

theorem Reaches.cons_inv {s t : σ} {i : ι} {is : List ι} {os : List ο}
    (h : Reaches step s (i :: is) os t) :
    (os = [] ∧ t = s) ∨ ∃ o u os', step s i = .ok (o, u) ∧ Reaches step u is os' t ∧
      os = o :: os' := by
  obtain ⟨js, hjs, hx⟩ := h
  cases js with
  | nil =>
    rw [exec_nil, Except.ok.injEq, Prod.mk.injEq] at hx
    exact Or.inl ⟨hx.1.symm, hx.2.symm⟩
  | cons j js =>
    obtain ⟨rfl, hrest⟩ := List.cons_prefix_cons.mp hjs
    obtain ⟨o, u, os', hs, hr, rfl⟩ := exec_cons_ok hx
    exact Or.inr ⟨o, u, os', hs, ⟨js, hrest, hr⟩, rfl⟩

/-- A state reached is reached before a given step or through it. -/
theorem Reaches.split {s t : σ} {is js : List ι} {i : ι} {os : List ο}
    (h : Reaches step s (is ++ i :: js) os t) :
    Reaches step s is os t ∨ ∃ os₁ u o v os₂, exec step s is = .ok (os₁, u) ∧
      step u i = .ok (o, v) ∧ Reaches step v js os₂ t ∧ os = os₁ ++ o :: os₂ := by
  induction is generalizing s os with
  | nil =>
    rcases h.cons_inv with ⟨rfl, rfl⟩ | ⟨o, u, os', hs, hr, rfl⟩
    · exact Or.inl (reaches_start _ _)
    · exact Or.inr ⟨[], s, o, u, os', rfl, hs, hr, rfl⟩
  | cons k is ih =>
    rcases h.cons_inv with ⟨rfl, rfl⟩ | ⟨o, u, os', hs, hr, rfl⟩
    · exact Or.inl (reaches_start _ _)
    · rcases ih hr with hbefore | ⟨os₁, w, o', v, os₂, hx, hstep, hrest, rfl⟩
      · exact Or.inl (hbefore.cons hs)
      · exact Or.inr ⟨o :: os₁, w, o', v, os₂, exec_cons hs hx, hstep, hrest, rfl⟩

instance decidableMeets [∀ s i, Decidable (C s i)] :
    ∀ (s : σ) (is : List ι), Decidable (Meets step C s is)
  | _, [] => isTrue True.intro
  | s, i :: is =>
    match h : step s i with
    | .ok (_, t) =>
      have : Decidable (Meets step C t is) := decidableMeets t is
      decidable_of_iff (C s i ∧ Meets step C t is) <| and_congr_right fun _ => by
        constructor
        · intro hm o s' hs
          simp only [h, Except.ok.injEq, Prod.mk.injEq] at hs
          exact hs.2 ▸ hm
        · exact fun hm => hm _ t h
    | .error _ =>
      decidable_of_iff (C s i) <| (and_iff_left fun o s' hs => by simp [h] at hs).symm

theorem meets_cons_iff {s t : σ} {i : ι} {is : List ι} {o : ο} (hs : step s i = .ok (o, t)) :
    Meets step C s (i :: is) ↔ C s i ∧ Meets step C t is := by
  constructor
  · intro hm
    exact ⟨hm.1, hm.2 o t hs⟩
  · rintro ⟨hc, hm⟩
    refine ⟨hc, ?_⟩
    intro o' t' hs'
    rw [hs, Except.ok.injEq, Prod.mk.injEq] at hs'
    exact hs'.2 ▸ hm

theorem meets_congr (h : ∀ s i, C s i ↔ D s i) (s : σ) (is : List ι) :
    Meets step C s is ↔ Meets step D s is := by
  induction is generalizing s with
  | nil => exact Iff.rfl
  | cons i is ih =>
    apply and_congr (h s i)
    exact forall_congr' fun _ => forall_congr' fun s' => imp_congr_right fun _ => ih s'

theorem meets_mono {is js : List ι} (hpre : js <+: is) {s : σ} (h : Meets step C s is) :
    Meets step C s js := by
  induction js generalizing s is with
  | nil => trivial
  | cons j js ih =>
    obtain ⟨ks, rfl⟩ := hpre
    refine ⟨h.1, fun o s' hs => ih (List.prefix_append js ks) ?_⟩
    exact h.2 o s' hs

theorem meets_last {s t : σ} {is : List ι} {i : ι} {os : List ο} (h : Meets step C s (is ++ [i]))
    (hx : exec step s is = .ok (os, t)) : C t i := by
  induction is generalizing s os with
  | nil =>
    simp only [exec_nil, Except.ok.injEq, Prod.mk.injEq] at hx
    exact hx.2 ▸ h.1
  | cons j is ih =>
    obtain ⟨o, u, os', hs, hr, -⟩ := exec_cons_ok hx
    exact ih (h.2 o u hs) hr

theorem meets_of_forall (h : ∀ s i, C s i) (s : σ) (is : List ι) : Meets step C s is := by
  induction is generalizing s with
  | nil => trivial
  | cons i is ih => exact ⟨h s i, fun _ s' _ => ih s'⟩

/-- Where a step that meets `S` always returns, and keeps the invariant exactly when it meets
`C`, a run of such steps returns with the invariant in every state reached exactly when all its
steps meet `C`. -/
theorem forall_reaches_iff {Inv : σ → Prop} {S : σ → ι → Prop}
    (exact : ∀ s i, Inv s → S s i → ∃ o t, step s i = .ok (o, t) ∧ (Inv t ↔ C s i))
    {s : σ} {is : List ι} (hs : Inv s) (hm : Meets step S s is) :
    ((∃ os t, exec step s is = .ok (os, t)) ∧ ∀ os t, Reaches step s is os t → Inv t) ↔
      Meets step C s is := by
  induction is generalizing s with
  | nil =>
    refine iff_of_true ⟨⟨[], s, rfl⟩, ?_⟩ trivial
    intro os t hreach
    rw [hreach.nil_inv.2]
    exact hs
  | cons i is ih =>
    obtain ⟨o, t, hstep, hkeep⟩ := exact s i hs hm.1
    rw [meets_cons_iff hstep]
    constructor
    · rintro ⟨⟨os, t', hx⟩, hall⟩
      have ht : Inv t := hall _ _ ((reaches_start t is).cons hstep)
      refine ⟨hkeep.mp ht, (ih ht (hm.2 o t hstep)).mp ⟨?_, ?_⟩⟩
      · obtain ⟨o', u, os', hstep', hx', -⟩ := exec_cons_ok hx
        rw [hstep, Except.ok.injEq, Prod.mk.injEq] at hstep'
        exact ⟨os', t', hstep'.2 ▸ hx'⟩
      · intro os' u hreach
        exact hall _ _ (hreach.cons hstep)
    · rintro ⟨hc, hrest⟩
      have ht := hkeep.mpr hc
      obtain ⟨⟨os, t', hx⟩, hall⟩ := (ih ht (hm.2 o t hstep)).mpr hrest
      refine ⟨⟨_, _, exec_cons hstep hx⟩, ?_⟩
      intro os' u hreach
      rcases hreach.cons_inv with ⟨-, rfl⟩ | ⟨o', v, os'', hstep', hreach', -⟩
      · exact hs
      · rw [hstep, Except.ok.injEq, Prod.mk.injEq] at hstep'
        exact hall os'' u (hstep'.2 ▸ hreach')

theorem Reaches.of_nil {s t : σ} {is : List ι} (h : Reaches step s is [] t) : t = s := by
  obtain ⟨js, hjs, hx⟩ := h
  cases js with
  | nil =>
    rw [exec_nil, Except.ok.injEq, Prod.mk.injEq] at hx
    exact hx.2.symm
  | cons j js =>
    obtain ⟨o, u, os', -, -, heq⟩ := exec_cons_ok hx
    cases heq

theorem forall_last_cons_iff {P : ο → σ → Prop} {s t : σ} {i : ι} {is : List ι} {o : ο}
    (hs : step s i = .ok (o, t)) :
    (∀ os u, Reaches step s (i :: is) os u → ∀ p ∈ os.getLast?, P p u) ↔
      P o t ∧ ∀ os u, Reaches step t is os u → ∀ p ∈ os.getLast?, P p u := by
  constructor
  · intro h
    refine ⟨h [o] t ((reaches_start t is).cons hs) o rfl, ?_⟩
    intro os u hreach p hp
    exact h (o :: os) u (hreach.cons hs) p (List.mem_getLast?_cons hp)
  · rintro ⟨hhere, hrest⟩ os u hreach p hp
    rcases hreach.cons_inv with ⟨rfl, -⟩ | ⟨o', v, os', hs', hreach', rfl⟩
    · simp at hp
    · rw [hs, Except.ok.injEq, Prod.mk.injEq] at hs'
      obtain ⟨rfl, rfl⟩ := hs'
      cases os' with
      | nil =>
        rw [hreach'.of_nil]
        rw [List.getLast?_singleton, Option.mem_some_iff] at hp
        exact hp ▸ hhere
      | cons o' os' =>
        rw [List.getLast?_cons_cons] at hp
        exact hrest _ u hreach' p hp

/-- Where a step from a good state gives what `P` asks exactly when it meets `C`, and then leads
on to a good state, every step of a run gives what `P` asks exactly when the run meets `C`. -/
theorem forall_last_iff {Inv : σ → Prop} {P : ο → σ → Prop}
    (same : ∀ {s i o t}, Inv s → step s i = .ok (o, t) → (P o t ↔ C s i))
    (keep : ∀ {s i o t}, Inv s → C s i → step s i = .ok (o, t) → Inv t)
    {s s' : σ} {is : List ι} {os : List ο} (hs : Inv s) (hx : exec step s is = .ok (os, s')) :
    (∀ os t, Reaches step s is os t → ∀ o ∈ os.getLast?, P o t) ↔ Meets step C s is := by
  induction is generalizing s os with
  | nil =>
    refine iff_of_true ?_ trivial
    intro os t hreach o ho
    rw [hreach.nil_inv.1] at ho
    simp at ho
  | cons i is ih =>
    obtain ⟨o, t, os', hstep, hx', -⟩ := exec_cons_ok hx
    rw [forall_last_cons_iff hstep, meets_cons_iff hstep, same hs hstep]
    exact and_congr_right fun hc => ih (keep hs hc hstep) hx'

/-- Conditions that say the same of the steps from good states, and lead on to good states, say
the same of a run. -/
theorem meets_iff_of_inv {P : σ → Prop} {S : σ → ι → Prop}
    (same : ∀ s i, P s → S s i → (C s i ↔ D s i))
    (keep : ∀ {s i o t}, P s → S s i → D s i → step s i = .ok (o, t) → P t)
    {s : σ} {is : List ι} (hs : P s) (hm : Meets step S s is) :
    Meets step C s is ↔ Meets step D s is := by
  induction is generalizing s with
  | nil => exact Iff.rfl
  | cons i is ih =>
    have hsame := same s i hs hm.1
    constructor
    · intro h
      have hd := hsame.mp h.1
      refine ⟨hd, ?_⟩
      intro o t hstep
      exact (ih (keep hs hm.1 hd hstep) (hm.2 o t hstep)).mp (h.2 o t hstep)
    · intro h
      refine ⟨hsame.mpr h.1, ?_⟩
      intro o t hstep
      exact (ih (keep hs hm.1 h.1 hstep) (hm.2 o t hstep)).mpr (h.2 o t hstep)

section Invariant

variable {Inv : σ → Prop}
variable (keep : ∀ {s i o s'}, Inv s → C s i → step s i = .ok (o, s') → Inv s')
include keep

theorem inv_of_meets {s s' : σ} {is : List ι} {os : List ο} (hs : Inv s)
    (hm : Meets step C s is) (hx : exec step s is = .ok (os, s')) : Inv s' := by
  induction is generalizing s os with
  | nil =>
    simp only [exec_nil, Except.ok.injEq, Prod.mk.injEq] at hx
    exact hx.2 ▸ hs
  | cons i is ih =>
    obtain ⟨o, t, os', h, hr, rfl⟩ := exec_cons_ok hx
    exact ih (keep hs hm.1 h) (hm.2 o t h) hr

theorem inv_of_reaches {s t : σ} {is : List ι} {os : List ο} (hs : Inv s)
    (hm : Meets step C s is) (h : Reaches step s is os t) : Inv t := by
  obtain ⟨js, hpre, hx⟩ := h
  exact inv_of_meets keep hs (meets_mono hpre hm) hx

/-- Where the invariant is good for `P` only as long as the steps meet `C`, a run that
returns with `P` in every state reached has met `C` throughout. -/
theorem meets_of_reaches {P : σ → Prop}
    (breaks : ∀ {s i o s'}, Inv s → step s i = .ok (o, s') → P s' → C s i)
    {s : σ} {is : List ι} (hs : Inv s) (hx : ∃ os t, exec step s is = .ok (os, t))
    (hall : ∀ os t, Reaches step s is os t → P t) : Meets step C s is := by
  induction is generalizing s with
  | nil => trivial
  | cons i is ih =>
    obtain ⟨os, t, hx⟩ := hx
    obtain ⟨o, u, os', hstep, hx', -⟩ := exec_cons_ok hx
    have hc : C s i := breaks hs hstep (hall [o] u ((reaches_start u is).cons hstep))
    rw [meets_cons_iff hstep]
    refine ⟨hc, ih (keep hs hc hstep) ⟨os', t, hx'⟩ ?_⟩
    intro os'' v hreach
    exact hall (o :: os'') v (hreach.cons hstep)

/-- A fault no such step raises is not raised by the run. -/
theorem safe_of_meets {Bad : ε → Prop} (safe : ∀ {s i e}, Inv s → C s i → step s i = .error e → ¬ Bad e)
    {s : σ} {is : List ι} {e : ε} (hs : Inv s) (hm : Meets step C s is)
    (hx : exec step s is = .error e) : ¬ Bad e := by
  induction is generalizing s with
  | nil => simp at hx
  | cons i is ih =>
    cases h : step s i with
    | error f =>
      simp only [exec, h, Except.error.injEq] at hx
      exact hx ▸ safe hs hm.1 h
    | ok p =>
      obtain ⟨o, t⟩ := p
      cases hr : exec step t is with
      | error f =>
        simp only [exec, h, hr, Except.error.injEq] at hx
        exact ih (keep hs hm.1 h) (hm.2 o t h) (hx ▸ hr)
      | ok q => simp [exec, h, hr] at hx

end Invariant

end Run
