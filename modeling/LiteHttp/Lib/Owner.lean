import Mathlib.Data.List.Sigma

/-!
# Resources with one holder

Each resource that exists has exactly one holder, and nobody holds one that does
not exist. A resource may be made into the hands of a holder, and a holder may
pass all it has to one that has nothing.
-/

namespace Owner

set_option autoImplicit false

universe u v
variable {η : Type u} {ρ : Type v}

structure Unique (holds : η → ρ → Prop) (made : ρ → Prop) : Prop where
  made_of : ∀ {h r}, holds h r → made r
  one : ∀ {r}, made r → ∃! h, holds h r

variable {holds holds' : η → ρ → Prop} {made made' : ρ → Prop}

theorem Unique.congr (h : Unique holds made) (hholds : ∀ x r, holds' x r ↔ holds x r)
    (hmade : ∀ r, made' r ↔ made r) : Unique holds' made' := by
  constructor
  · intro x r hx
    exact (hmade r).mpr (h.made_of ((hholds x r).mp hx))
  · intro r hr
    simpa only [hholds] using h.one ((hmade r).mp hr)

/-- A new resource comes into being with one holder. -/
theorem Unique.make (h : Unique holds made) {x₀ : η} {r₀ : ρ} (hnew : ¬ made r₀)
    (hholds : ∀ x r, holds' x r ↔ holds x r ∨ (x = x₀ ∧ r = r₀))
    (hmade : ∀ r, made' r ↔ made r ∨ r = r₀) : Unique holds' made' := by
  constructor
  · intro x r hx
    rw [hmade]
    rcases (hholds x r).mp hx with hold | ⟨-, rfl⟩
    · exact Or.inl (h.made_of hold)
    · exact Or.inr rfl
  · intro r hr
    by_cases hr₀ : r = r₀
    · subst hr₀
      refine ⟨x₀, (hholds x₀ r).mpr (Or.inr ⟨rfl, rfl⟩), ?_⟩
      intro y hy
      rcases (hholds y r).mp hy with hold | ⟨rfl, -⟩
      · exact absurd (h.made_of hold) hnew
      · rfl
    · simpa only [hholds, hr₀, and_false, or_false] using h.one (((hmade r).mp hr).resolve_right hr₀)

/-- A holder passes all it has to one that has nothing. -/
theorem Unique.pass (h : Unique holds made) {a b : η} (hab : a ≠ b) (hb : ∀ r, ¬ holds b r)
    (hholds : ∀ x r, holds' x r ↔ (x = b ∧ holds a r) ∨ (x ≠ a ∧ x ≠ b ∧ holds x r))
    (hmade : ∀ r, made' r ↔ made r) : Unique holds' made' := by
  constructor
  · intro x r hx
    rw [hmade]
    rcases (hholds x r).mp hx with ⟨-, hold⟩ | ⟨-, -, hold⟩
    · exact h.made_of hold
    · exact h.made_of hold
  · intro r hr
    obtain ⟨x, hx, honly⟩ := h.one ((hmade r).mp hr)
    have hxb : x ≠ b := by
      rintro rfl
      exact hb r hx
    by_cases hxa : x = a
    · subst hxa
      refine ⟨b, (hholds b r).mpr (Or.inl ⟨rfl, hx⟩), ?_⟩
      intro y hy
      rcases (hholds y r).mp hy with ⟨rfl, -⟩ | ⟨hya, -, hold⟩
      · rfl
      · exact absurd (honly y hold) hya
    · refine ⟨x, (hholds x r).mpr (Or.inr ⟨hxa, hxb, hx⟩), ?_⟩
      intro y hy
      rcases (hholds y r).mp hy with ⟨-, hold⟩ | ⟨-, -, hold⟩
      · exact absurd (honly a hold).symm hxa
      · exact honly y hold

/-- In a list without repeats a property that exactly one member has is counted once. -/
theorem countP_eq_one {l : List ρ} (hl : l.Nodup) {p : ρ → Bool} (h : ∃! r, r ∈ l ∧ p r = true) :
    l.countP p = 1 := by
  obtain ⟨r, hr, honly⟩ := h
  have hfilter : l.filter p = [r] := by
    apply List.perm_singleton.mp
    apply (List.perm_ext_iff_of_nodup (hl.filter p) (List.nodup_singleton r)).mpr
    intro x
    rw [List.mem_filter, List.mem_singleton]
    constructor
    · exact honly x
    · rintro rfl
      exact hr
  rw [List.countP_eq_length_filter, hfilter, List.length_singleton]

end Owner
