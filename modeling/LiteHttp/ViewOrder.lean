import LiteHttp.StringT

/-!
# The order of views

`string_view_compare` against the lexicographic order of the bytes, and the hash
that has to agree with its equality.
-/

namespace LiteHttp

set_option autoImplicit false

/-- `string_view_equal`. -/
def stringViewEqual (lhs rhs : Bytes) : Bool := stringViewCompare lhs rhs = 0

/-- A `char` as the `size_t` it is added to; it has a sign. -/
def signExtend (c : Byte) : Nat := if c.toNat < 128 then c.toNat else sizeMod - 256 + c.toNat

/-- `string_view_hash`. -/
def stringViewHash (sv : Bytes) : Nat :=
  sv.foldl (fun hash c => sizeAdd (sizeAdd ((hash <<< 5) % sizeMod) hash) (signExtend c)) 5381

/-- The lexicographic order, on bytes as unsigned chars; a proper prefix comes first. -/
def Before (a b : Bytes) : Prop := List.Lex (fun x y => x.toNat < y.toNat) a b

theorem before_cons_iff {x y : Byte} {a b : Bytes} :
    Before (x :: a) (y :: b) ↔ x.toNat < y.toNat ∨ x = y ∧ Before a b := List.cons_lex_cons_iff

theorem before_irrefl (a : Bytes) : ¬ Before a a := 
  List.lex_irrefl (fun x : Byte => Nat.lt_irrefl x.toNat) a

theorem before_asymm {a b : Bytes} (h : Before a b) : ¬ Before b a :=
  List.lex_asymm (fun h h' => Nat.lt_asymm h h') h

theorem before_trans {a b c : Bytes} (h : Before a b) (h' : Before b c) : Before a c :=
  List.lex_trans (fun h h' => Nat.lt_trans h h') h h'

theorem before_trichotomy (a b : Bytes) : Before a b ∨ a = b ∨ Before b a := by
  induction a generalizing b with
  | nil =>
    cases b with
    | nil => exact Or.inr (Or.inl rfl)
    | cons y b => exact Or.inl List.Lex.nil
  | cons x a ih =>
    cases b with
    | nil => exact Or.inr (Or.inr List.Lex.nil)
    | cons y b =>
      rcases Nat.lt_trichotomy x.toNat y.toNat with hlt | heq | hgt
      · exact Or.inl (List.Lex.rel hlt)
      · obtain rfl := UInt8.toNat_inj.mp heq
        rcases ih b with h | rfl | h
        · exact Or.inl (List.Lex.cons h)
        · exact Or.inr (Or.inl rfl)
        · exact Or.inr (Or.inr (List.Lex.cons h))
      · exact Or.inr (Or.inr (List.Lex.rel hgt))

/-- Some byte differs, with no NUL before it that the two have in common. -/
def DiffersBeforeNul : Bytes → Bytes → Prop
  | x :: a, y :: b => x ≠ y ∨ x ≠ 0 ∧ DiffersBeforeNul a b
  | _, _ => False

theorem strncmp_of_not_differs {a b : Bytes} (h : ¬ DiffersBeforeNul a b) (n : Nat) :
    strncmp n a b = 0 := by
  induction n generalizing a b with
  | zero => rfl
  | succ n ih =>
    cases a with
    | nil => rfl
    | cons x a =>
      cases b with
      | nil => rfl
      | cons y b =>
        rw [DiffersBeforeNul, not_or, not_not] at h
        obtain ⟨rfl, hrest⟩ := h
        by_cases hzero : x = 0
        · rw [strncmp, if_pos rfl, if_pos hzero]
        · rw [strncmp, if_pos rfl, if_neg hzero]
          exact ih fun hd => hrest ⟨hzero, hd⟩

/-- `strncmp` finds the first difference that no NUL hides, and has the sign of the order. -/
theorem strncmp_of_differs {a b : Bytes} (h : DiffersBeforeNul a b) :
    (strncmp (min a.length b.length) a b < 0 ↔ Before a b) ∧
      (0 < strncmp (min a.length b.length) a b ↔ Before b a) ∧
      strncmp (min a.length b.length) a b ≠ 0 := by
  induction a generalizing b with
  | nil => exact h.elim
  | cons x a ih =>
    cases b with
    | nil => exact h.elim
    | cons y b =>
      rw [List.length_cons, List.length_cons, Nat.succ_min_succ, before_cons_iff, before_cons_iff]
      by_cases hxy : x = y
      · subst hxy
        rw [DiffersBeforeNul, or_iff_right (fun hne => hne rfl)] at h
        rw [strncmp, if_pos rfl, if_neg h.1]
        simpa using ih h.2
      · have hne : x.toNat ≠ y.toNat := fun heq => hxy (UInt8.toNat_inj.mp heq)
        rw [strncmp, if_neg hxy]
        simp only [hxy, Ne.symm hxy, false_and, or_false]
        omega

/-- The lengths, as far as an `int` shows their difference, say that `a` is the shorter. -/
def LooksShorter (a b : Bytes) : Prop :=
  1 ≤ ((b.length : Int) - a.length) % 2 ^ 32 ∧ ((b.length : Int) - a.length) % 2 ^ 32 ≤ 2 ^ 31

/-- Or that it is the longer. -/
def LooksLonger (a b : Bytes) : Prop :=
  1 ≤ ((a.length : Int) - b.length) % 2 ^ 32 ∧ ((a.length : Int) - b.length) % 2 ^ 32 < 2 ^ 31

theorem stringViewCompare_of_differs {a b : Bytes} (h : DiffersBeforeNul a b) :
    stringViewCompare a b = strncmp (min a.length b.length) a b := by
  have hmin : (if a.length < b.length then a.length else b.length) = min a.length b.length := by
    split <;> omega
  simp only [stringViewCompare, hmin]
  rw [if_pos (strncmp_of_differs h).2.2]

theorem stringViewCompare_of_not_differs {a b : Bytes} (h : ¬ DiffersBeforeNul a b) :
    (stringViewCompare a b < 0 ↔ LooksShorter a b) ∧ (0 < stringViewCompare a b ↔ LooksLonger a b) := by
  simp only [stringViewCompare, strncmp_of_not_differs h, ne_eq, not_true_eq_false, if_false,
    LooksShorter, LooksLonger]
  rw [Int.bmod_def]
  constructor
  · split <;> omega
  · split <;> omega

/-- The sign is that of the lexicographic order, zero is identity, and equal views hash alike. -/
structure Compares (a b : Bytes) : Prop where
  neg : stringViewCompare a b < 0 ↔ Before a b
  pos : 0 < stringViewCompare a b ↔ Before b a
  zero : stringViewCompare a b = 0 ↔ a = b
  hash : stringViewEqual a b = true → stringViewHash a = stringViewHash b

/-- The two differ before a NUL they have in common, or are equal, or the one that comes first
looks the shorter. -/
def ComparesWell (a b : Bytes) : Prop :=
  DiffersBeforeNul a b ∨ a = b ∨ (Before a b ∧ LooksShorter a b) ∨ (Before b a ∧ LooksLonger a b)

theorem compares_of_signs {a b : Bytes} (hneg : stringViewCompare a b < 0 ↔ Before a b)
    (hpos : 0 < stringViewCompare a b ↔ Before b a) : Compares a b := by
  have hzero : stringViewCompare a b = 0 ↔ a = b := by
    constructor
    · intro h
      rcases before_trichotomy a b with hlt | heq | hgt
      · have := hneg.mpr hlt
        omega
      · exact heq
      · have := hpos.mpr hgt
        omega
    · rintro rfl
      have hirrefl := before_irrefl a
      rw [← hneg] at hirrefl
      have hirrefl' := before_irrefl a
      rw [← hpos] at hirrefl'
      omega
  refine ⟨hneg, hpos, hzero, ?_⟩
  intro heq
  rw [stringViewEqual, decide_eq_true_eq] at heq
  rw [hzero.mp heq]

theorem compares_iff (a b : Bytes) : Compares a b ↔ ComparesWell a b := by
  by_cases hd : DiffersBeforeNul a b
  · have hsigns := strncmp_of_differs hd
    rw [← stringViewCompare_of_differs hd] at hsigns
    exact iff_of_true (compares_of_signs hsigns.1 hsigns.2.1) (Or.inl hd)
  · obtain ⟨hneg, hpos⟩ := stringViewCompare_of_not_differs hd
    constructor
    · intro h
      rcases before_trichotomy a b with hlt | heq | hgt
      · exact Or.inr (Or.inr (Or.inl ⟨hlt, hneg.mp (h.neg.mpr hlt)⟩))
      · exact Or.inr (Or.inl heq)
      · exact Or.inr (Or.inr (Or.inr ⟨hgt, hpos.mp (h.pos.mpr hgt)⟩))
    · intro h
      apply compares_of_signs
      · rw [hneg]
        rcases h with h | rfl | ⟨hlt, hshort⟩ | ⟨hgt, hlong⟩
        · exact absurd h hd
        · refine iff_of_false ?_ (before_irrefl a)
          unfold LooksShorter
          omega
        · exact iff_of_true hshort hlt
        · refine iff_of_false ?_ (before_asymm hgt)
          unfold LooksShorter
          unfold LooksLonger at hlong
          omega
      · rw [hpos]
        rcases h with h | rfl | ⟨hlt, hshort⟩ | ⟨hgt, hlong⟩
        · exact absurd h hd
        · refine iff_of_false ?_ (before_irrefl a)
          unfold LooksLonger
          omega
        · refine iff_of_false ?_ (before_asymm hlt)
          unfold LooksLonger
          unfold LooksShorter at hshort
          omega
        · exact iff_of_true hlong hgt

/-- The comparison is the lexicographic one exactly on the views that compare well, and a strict
order among them. -/
theorem stringViewCompare_lexicographic_iff (a b c : Bytes) :
    (Compares a b ↔ ComparesWell a b) ∧
      (ComparesWell a b → ComparesWell b a →
        (stringViewCompare a b < 0 ↔ 0 < stringViewCompare b a)) ∧
      (ComparesWell a b → ComparesWell b c → ComparesWell a c →
        stringViewCompare a b < 0 → stringViewCompare b c < 0 → stringViewCompare a c < 0) := by
  refine ⟨compares_iff a b, ?_, ?_⟩
  · intro hab hba
    rw [((compares_iff a b).mpr hab).neg, ((compares_iff b a).mpr hba).pos]
  · intro hab hbc hac h h'
    rw [((compares_iff a b).mpr hab).neg] at h
    rw [((compares_iff b c).mpr hbc).neg] at h'
    rw [((compares_iff a c).mpr hac).neg]
    exact before_trans h h'

theorem letters_compare :
    Compares [97, 0] [97, 98] ∧ stringViewCompare [97, 0] [99] < 0 := by
  have hab : ComparesWell [97, 0] [97, 98] := Or.inl (Or.inr ⟨by decide, Or.inl (by decide)⟩)
  have hbc : ComparesWell [97, 98] [99] := Or.inl (Or.inl (by decide))
  have hac : ComparesWell [97, 0] [99] := Or.inl (Or.inl (by decide))
  obtain ⟨hcompares, -, htrans⟩ := stringViewCompare_lexicographic_iff [97, 0] [97, 98] [99]
  exact ⟨hcompares.mpr hab, htrans hab hbc hac (by decide) (by decide)⟩

/-- Two bytes that stand behind a NUL are not looked at: the views are equal to the comparison,
and hash apart. -/
theorem nul_not_compares :
    stringViewEqual [97, 0, 98] [97, 0, 99] = true ∧ Before [97, 0, 98] [97, 0, 99] ∧
      stringViewHash [97, 0, 98] ≠ stringViewHash [97, 0, 99] ∧
      ¬ Compares [97, 0, 98] [97, 0, 99] := by
  have hequal : stringViewEqual [97, 0, 98] [97, 0, 99] = true := by decide +kernel
  have hhash : stringViewHash [97, 0, 98] ≠ stringViewHash [97, 0, 99] := by decide +kernel
  refine ⟨hequal, ?_, hhash, fun h => hhash (h.hash hequal)⟩
  exact List.Lex.cons (List.Lex.cons (List.Lex.rel (by decide)))

end LiteHttp
