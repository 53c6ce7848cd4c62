import Mathlib.Data.List.Infix

/-!
# Records ended by a two-element delimiter

A list is read as records, each ended by the pair `a, b`. `cut` takes the first
record off; `collect` takes records until the list has no further delimiter, an
empty record ends the block, or a bound is reached. How a collection changes
when more input is appended is what a resumable reader relies on.
-/

namespace Delim

set_option autoImplicit false

universe u
variable {α : Type u} [DecidableEq α] (a b : α)

/-- The list before the first delimiter, and the list behind it. -/
def cut : List α → Option (List α × List α)
  | [] => none
  | x :: t =>
    if x = a ∧ t.head? = some b then some ([], t.tail)
    else (cut t).map fun p => (x :: p.1, p.2)

def Free (xs : List α) : Prop := ¬ [a, b] <:+: xs

instance (xs : List α) : Decidable (Free a b xs) := by unfold Free; infer_instance

variable {a b}

omit [DecidableEq α] in
theorem pair_infix_cons_iff {x : α} {t : List α} :
    [a, b] <:+: x :: t ↔ (x = a ∧ t.head? = some b) ∨ [a, b] <:+: t := by
  rw [List.infix_cons_iff]
  apply or_congr_left
  cases t with
  | nil => simp [List.cons_prefix_cons]
  | cons y t => simp [List.cons_prefix_cons, eq_comm]

theorem cut_eq_none_iff {xs : List α} : cut a b xs = none ↔ Free a b xs := by
  induction xs with
  | nil => simp [cut, Free]
  | cons x t ih =>
    by_cases hx : x = a ∧ t.head? = some b
    · simp [cut, hx, Free, pair_infix_cons_iff]
    · simp only [cut, hx, if_false, Option.map_eq_none_iff, ih, Free, pair_infix_cons_iff,
        false_or]

theorem eq_of_cut {xs l r : List α} (h : cut a b xs = some (l, r)) : xs = l ++ a :: b :: r := by
  induction xs generalizing l with
  | nil => simp [cut] at h
  | cons x t ih =>
    simp only [cut] at h
    split at h
    · rename_i hx
      obtain ⟨rfl, hb⟩ := hx
      simp only [Option.some.injEq, Prod.mk.injEq] at h
      obtain ⟨rfl, rfl⟩ := h
      obtain ⟨t', rfl⟩ := List.head?_eq_some_iff.mp hb
      rfl
    · obtain ⟨⟨l', r'⟩, hc, he⟩ := Option.map_eq_some_iff.mp h
      simp only [Prod.mk.injEq] at he
      obtain ⟨rfl, rfl⟩ := he
      rw [ih hc]
      rfl

theorem cut_length {xs l r : List α} (h : cut a b xs = some (l, r)) :
    xs.length = l.length + 2 + r.length := by
  rw [eq_of_cut h]
  simp only [List.length_append, List.length_cons]
  omega

theorem free_of_cut {xs l r : List α} (h : cut a b xs = some (l, r)) : Free a b l := by
  induction xs generalizing l with
  | nil => simp [cut] at h
  | cons x t ih =>
    simp only [cut] at h
    split at h
    · simp only [Option.some.injEq, Prod.mk.injEq] at h
      obtain ⟨rfl, -⟩ := h
      simp [Free]
    · rename_i hx
      obtain ⟨⟨l', r'⟩, hc, he⟩ := Option.map_eq_some_iff.mp h
      simp only [Prod.mk.injEq] at he
      obtain ⟨rfl, rfl⟩ := he
      have hfree := ih hc
      unfold Free at hfree ⊢
      rw [pair_infix_cons_iff]
      rintro (⟨rfl, hhead⟩ | hin)
      · apply hx
        refine ⟨rfl, ?_⟩
        rw [eq_of_cut hc]
        cases l' with
        | nil => simp at hhead
        | cons y l' => simpa using hhead
      · exact hfree hin

/-- More input behind a delimiter leaves the first record as it is. -/
theorem cut_append {xs l r : List α} (h : cut a b xs = some (l, r)) (ys : List α) :
    cut a b (xs ++ ys) = some (l, r ++ ys) := by
  induction xs generalizing l with
  | nil => simp [cut] at h
  | cons x t ih =>
    simp only [cut] at h
    split at h
    · rename_i hx
      simp only [Option.some.injEq, Prod.mk.injEq] at h
      obtain ⟨rfl, rfl⟩ := h
      obtain ⟨t', rfl⟩ := List.head?_eq_some_iff.mp hx.2
      simp [cut, hx.1]
    · rename_i hx
      obtain ⟨⟨l', r'⟩, hc, he⟩ := Option.map_eq_some_iff.mp h
      simp only [Prod.mk.injEq] at he
      obtain ⟨rfl, rfl⟩ := he
      have hhead : ¬ (x = a ∧ (t ++ ys).head? = some b) := by
        have hne : t ≠ [] := by
          rintro rfl
          simp [cut] at hc
        rwa [List.head?_append_of_ne_nil _ hne]
      simp only [List.cons_append, cut, hhead, if_false, ih hc, Option.map_some]

theorem cut_record (hab : a ≠ b) {l : List α} (hl : Free a b l) (r : List α) :
    cut a b (l ++ a :: b :: r) = some (l, r) := by
  induction l with
  | nil => simp [cut]
  | cons x t ih =>
    have hl' : ¬ ((x = a ∧ t.head? = some b) ∨ [a, b] <:+: t) := by
      rw [← pair_infix_cons_iff]
      exact hl
    have ht : Free a b t := fun h => hl' (Or.inr h)
    have hx : ¬ (x = a ∧ (t ++ a :: b :: r).head? = some b) := by
      rintro ⟨rfl, hhead⟩
      cases t with
      | nil => exact hab (by simpa using hhead)
      | cons y t => exact hl' (Or.inl ⟨rfl, by simpa using hhead⟩)
    simp only [List.cons_append, cut, hx, if_false, ih ht, Option.map_some]

/-- A part without `a` in front belongs to the first record. -/
theorem cut_append_of_not_mem {p : List α} (hp : a ∉ p) (xs : List α) :
    cut a b (p ++ xs) = (cut a b xs).map fun q => (p ++ q.1, q.2) := by
  induction p with
  | nil => simp
  | cons x p ih =>
    rw [List.mem_cons, not_or] at hp
    have hx : ¬ (x = a ∧ (p ++ xs).head? = some b) := fun h => hp.1 h.1.symm
    simp only [List.cons_append, cut, hx, if_false, ih hp.2, Option.map_map]
    rfl

omit [DecidableEq α] in
theorem Free.append_of_ne {l r : List α} (hl : Free a b l) (hr : Free a b r)
    (hjoin : r.head? ≠ some b) : Free a b (l ++ r) := by
  induction l with
  | nil => exact hr
  | cons x t ih =>
    have hl' : ¬ ((x = a ∧ t.head? = some b) ∨ [a, b] <:+: t) := by
      rw [← pair_infix_cons_iff]
      exact hl
    have ht : Free a b (t ++ r) := ih fun h => hl' (Or.inr h)
    unfold Free
    rw [List.cons_append, pair_infix_cons_iff]
    rintro (⟨rfl, hhead⟩ | hin)
    · cases t with
      | nil => exact hjoin hhead
      | cons y t => exact hl' (Or.inl ⟨rfl, by simpa using hhead⟩)
    · exact ht hin

omit [DecidableEq α] in
theorem Free.cons_of_ne {x : α} {t : List α} (hx : x ≠ a) (ht : Free a b t) : Free a b (x :: t) := by
  unfold Free
  rw [pair_infix_cons_iff]
  rintro (⟨rfl, -⟩ | hin)
  · exact hx rfl
  · exact ht hin

/-- Why a collection stopped: no further delimiter, an empty record, or the bound. -/
inductive Stop where
  | open
  | blank
  | full
  deriving DecidableEq, Repr

/-- The records collected, why the collection stopped, and what was not read. -/
structure Block (α : Type u) where
  records : List (List α)
  stop : Stop
  rest : List α

def Block.push (l : List α) (k : Block α) : Block α := { k with records := l :: k.records }

variable (a b)

/-- At most `n` non-empty records, up to an empty one. -/
def collect : Nat → List α → Block α
  | 0, xs => ⟨[], .full, xs⟩
  | n + 1, xs =>
    match cut a b xs with
    | none => ⟨[], .open, xs⟩
    | some (l, r) => if l = [] then ⟨[], .blank, r⟩ else (collect n r).push l

def unlines (ls : List (List α)) : List α := ls.flatMap fun l => l ++ [a, b]

variable {a b}

omit [DecidableEq α] in
@[simp] theorem unlines_nil : unlines a b [] = [] := rfl

omit [DecidableEq α] in
theorem unlines_cons (l : List α) (ls : List (List α)) :
    unlines a b (l :: ls) = l ++ a :: b :: unlines a b ls := by
  simp [unlines]

omit [DecidableEq α] in
theorem unlines_append (ls ms : List (List α)) :
    unlines a b (ls ++ ms) = unlines a b ls ++ unlines a b ms := by
  simp [unlines]

omit [DecidableEq α] in
theorem length_le_unlines {l : List α} {ls : List (List α)} (h : l ∈ ls) :
    l.length ≤ (unlines a b ls).length := by
  obtain ⟨pre, suf, rfl⟩ := List.append_of_mem h
  rw [unlines_append, unlines_cons, List.length_append, List.length_append]
  omega

omit [DecidableEq α] in
theorem length_le_length_unlines (ls : List (List α)) : ls.length ≤ (unlines a b ls).length := by
  induction ls with
  | nil => simp
  | cons l ls ih =>
    rw [unlines_cons, List.length_append, List.length_cons, List.length_cons, List.length_cons]
    omega

omit [DecidableEq α] in
@[simp] theorem Block.push_records (l : List α) (k : Block α) :
    (k.push l).records = l :: k.records := rfl

omit [DecidableEq α] in
@[simp] theorem Block.push_stop (l : List α) (k : Block α) : (k.push l).stop = k.stop := rfl

omit [DecidableEq α] in
@[simp] theorem Block.push_rest (l : List α) (k : Block α) : (k.push l).rest = k.rest := rfl

/-- The delimiter read besides those of the records. -/
def Stop.tail : Stop → List α → List α
  | .blank, d => d
  | _, _ => []

theorem collect_succ_none {n : Nat} {xs : List α} (h : cut a b xs = none) :
    collect a b (n + 1) xs = ⟨[], .open, xs⟩ := by simp [collect, h]

theorem collect_succ_blank {n : Nat} {xs r : List α} (h : cut a b xs = some ([], r)) :
    collect a b (n + 1) xs = ⟨[], .blank, r⟩ := by simp [collect, h]

theorem collect_succ_record {n : Nat} {xs l r : List α} (h : cut a b xs = some (l, r))
    (hl : l ≠ []) : collect a b (n + 1) xs = (collect a b n r).push l := by
  simp [collect, h, hl]

/-- A collection and what it left tile the input. -/
theorem collect_tiles (n : Nat) (xs : List α) :
    xs = unlines a b (collect a b n xs).records ++
      ((collect a b n xs).stop.tail [a, b] ++ (collect a b n xs).rest) := by
  induction n generalizing xs with
  | zero => simp [collect, Stop.tail]
  | succ n ih =>
    cases hc : cut a b xs with
    | none => simp [collect_succ_none hc, Stop.tail]
    | some p =>
      obtain ⟨l, r⟩ := p
      by_cases hl : l = []
      · subst hl
        rw [collect_succ_blank hc]
        simpa [Stop.tail] using eq_of_cut hc
      · rw [collect_succ_record hc hl]
        simp only [Block.push_records, Block.push_stop, Block.push_rest, unlines_cons,
          List.append_assoc, List.cons_append]
        rw [← ih r]
        exact eq_of_cut hc

theorem collect_length_le (n : Nat) (xs : List α) : (collect a b n xs).records.length ≤ n := by
  induction n generalizing xs with
  | zero => simp [collect]
  | succ n ih =>
    cases hc : cut a b xs with
    | none => simp [collect_succ_none hc]
    | some p =>
      obtain ⟨l, r⟩ := p
      by_cases hl : l = []
      · subst hl
        simp [collect_succ_blank hc]
      · rw [collect_succ_record hc hl, Block.push_records, List.length_cons]
        exact Nat.succ_le_succ (ih r)

theorem collect_full_iff (n : Nat) (xs : List α) :
    (collect a b n xs).stop = .full ↔ (collect a b n xs).records.length = n := by
  induction n generalizing xs with
  | zero => simp [collect]
  | succ n ih =>
    cases hc : cut a b xs with
    | none => simp [collect_succ_none hc]
    | some p =>
      obtain ⟨l, r⟩ := p
      by_cases hl : l = []
      · subst hl
        simp [collect_succ_blank hc]
      · rw [collect_succ_record hc hl, Block.push_records, Block.push_stop, List.length_cons,
          ih r, Nat.add_left_inj]

theorem collect_open_free {n : Nat} {xs : List α} (h : (collect a b n xs).stop = .open) :
    Free a b (collect a b n xs).rest := by
  induction n generalizing xs with
  | zero => simp [collect] at h
  | succ n ih =>
    cases hc : cut a b xs with
    | none =>
      rw [collect_succ_none hc]
      exact cut_eq_none_iff.mp hc
    | some p =>
      obtain ⟨l, r⟩ := p
      by_cases hl : l = []
      · subst hl
        simp [collect_succ_blank hc] at h
      · rw [collect_succ_record hc hl] at h ⊢
        exact ih h

theorem collect_records_prefix {n m : Nat} (hnm : n ≤ m) (xs ys : List α) :
    (collect a b n xs).records <+: (collect a b m (xs ++ ys)).records := by
  induction n generalizing m xs with
  | zero => exact List.nil_prefix
  | succ n ih =>
    cases m with
    | zero => omega
    | succ m =>
      cases hc : cut a b xs with
      | none =>
        rw [collect_succ_none hc]
        exact List.nil_prefix
      | some p =>
        obtain ⟨l, r⟩ := p
        by_cases hl : l = []
        · subst hl
          rw [collect_succ_blank hc]
          exact List.nil_prefix
        · rw [collect_succ_record hc hl, collect_succ_record (cut_append hc ys) hl]
          exact List.cons_prefix_cons.mpr ⟨rfl, ih (by omega) r⟩

/-- What an open collection left is collected together with what comes after. -/
theorem collect_append_open {n : Nat} {xs : List α} (h : (collect a b n xs).stop = .open)
    (ys : List α) : collect a b n (xs ++ ys) =
      let k := collect a b (n - (collect a b n xs).records.length) ((collect a b n xs).rest ++ ys)
      { k with records := (collect a b n xs).records ++ k.records } := by
  induction n generalizing xs with
  | zero => simp [collect] at h
  | succ n ih =>
    cases hc : cut a b xs with
    | none => simp [collect_succ_none hc]
    | some p =>
      obtain ⟨l, r⟩ := p
      by_cases hl : l = []
      · subst hl
        simp [collect_succ_blank hc] at h
      · rw [collect_succ_record hc hl] at h ⊢
        rw [collect_succ_record (cut_append hc ys) hl, ih h]
        simp [Block.push]

theorem collect_append_blank {n : Nat} {xs : List α} (h : (collect a b n xs).stop = .blank)
    (ys : List α) : collect a b n (xs ++ ys) =
      { collect a b n xs with rest := (collect a b n xs).rest ++ ys } := by
  induction n generalizing xs with
  | zero => simp [collect] at h
  | succ n ih =>
    cases hc : cut a b xs with
    | none => simp [collect_succ_none hc] at h
    | some p =>
      obtain ⟨l, r⟩ := p
      by_cases hl : l = []
      · subst hl
        rw [collect_succ_blank hc, collect_succ_blank (cut_append hc ys)]
      · rw [collect_succ_record hc hl] at h ⊢
        rw [collect_succ_record (cut_append hc ys) hl, ih h]
        rfl

/-- The bound does not matter to a collection that stays below it. -/
theorem collect_eq_of_lt {n m : Nat} {xs : List α} (hstop : (collect a b m xs).stop ≠ .full)
    (hlt : (collect a b m xs).records.length < n) : collect a b n xs = collect a b m xs := by
  induction n generalizing m xs with
  | zero => omega
  | succ n ih =>
    cases m with
    | zero => simp [collect] at hstop
    | succ m =>
      cases hc : cut a b xs with
      | none => rw [collect_succ_none hc, collect_succ_none hc]
      | some p =>
        obtain ⟨l, r⟩ := p
        by_cases hl : l = []
        · subst hl
          rw [collect_succ_blank hc, collect_succ_blank hc]
        · rw [collect_succ_record hc hl] at hstop hlt ⊢
          rw [collect_succ_record hc hl, ih hstop]
          rw [Block.push_records, List.length_cons] at hlt
          omega

theorem collect_not_full {n : Nat} {xs : List α} (h : xs.length < n) :
    (collect a b n xs).stop ≠ .full := by
  rw [ne_eq, collect_full_iff]
  have hlen := length_le_length_unlines (a := a) (b := b) (collect a b n xs).records
  have htiles := congrArg List.length (collect_tiles (a := a) (b := b) n xs)
  rw [List.length_append] at htiles
  omega

theorem collect_unlines (hab : a ≠ b) {n : Nat} {ls : List (List α)}
    (hls : ∀ l ∈ ls, l ≠ [] ∧ Free a b l) (hn : ls.length ≤ n) (xs : List α) :
    collect a b n (unlines a b ls ++ xs) =
      let k := collect a b (n - ls.length) xs
      { k with records := ls ++ k.records } := by
  induction ls generalizing n with
  | nil => simp
  | cons l ls ih =>
    cases n with
    | zero => simp at hn
    | succ n =>
      have hl := hls l List.mem_cons_self
      have hcut : cut a b (unlines a b (l :: ls) ++ xs) = some (l, unlines a b ls ++ xs) := by
        rw [unlines_cons, List.append_assoc, List.cons_append, List.cons_append]
        exact cut_record hab hl.2 _
      rw [collect_succ_record hcut hl.1,
        ih (fun m hm => hls m (List.mem_cons_of_mem l hm)) (by simpa using hn)]
      simp [Block.push]

/-- What a collection makes of a prefix of a closed block of records. -/
theorem collect_prefix (hab : a ≠ b) {ls : List (List α)} (hls : ∀ l ∈ ls, l ≠ [] ∧ Free a b l)
    (n : Nat) {xs ys tail : List α} (h : xs ++ ys = unlines a b ls ++ a :: b :: tail) :
    ((collect a b n xs).stop = .open ∧ ∃ i, i ≤ ls.length ∧ (collect a b n xs).records = ls.take i) ∨
    ((collect a b n xs).stop = .blank ∧ (collect a b n xs).records = ls ∧ ls.length < n ∧
      (collect a b n xs).rest ++ ys = tail) ∨
    ((collect a b n xs).stop = .full ∧ (collect a b n xs).records = ls.take n ∧ n ≤ ls.length) := by
  induction n generalizing xs ls with
  | zero => exact Or.inr (Or.inr ⟨rfl, rfl, Nat.zero_le _⟩)
  | succ n ih =>
    cases hc : cut a b xs with
    | none =>
      rw [collect_succ_none hc]
      exact Or.inl ⟨rfl, 0, Nat.zero_le _, rfl⟩
    | some p =>
      obtain ⟨l, r⟩ := p
      have hcut := cut_append hc ys
      rw [h] at hcut
      cases ls with
      | nil =>
        have hnil : cut a b (unlines a b [] ++ a :: b :: tail) = some ([], tail) := by simp [cut]
        rw [hnil, Option.some.injEq, Prod.mk.injEq] at hcut
        obtain ⟨rfl, hrest⟩ := hcut
        rw [collect_succ_blank hc]
        exact Or.inr (Or.inl ⟨rfl, rfl, Nat.succ_pos n, hrest.symm⟩)
      | cons m ls =>
        rw [List.forall_mem_cons] at hls
        rw [unlines_cons, List.append_assoc, List.cons_append, List.cons_append,
          cut_record hab hls.1.2, Option.some.injEq, Prod.mk.injEq] at hcut
        obtain ⟨rfl, hrest⟩ := hcut
        rw [collect_succ_record hc hls.1.1]
        simp only [Block.push_stop, Block.push_records, Block.push_rest]
        rcases ih hls.2 hrest.symm with ⟨hstop, i, hi, hrec⟩ | ⟨hstop, hrec, hlt, htail⟩ |
            ⟨hstop, hrec, hle⟩
        · exact Or.inl ⟨hstop, i + 1, by simpa using hi, by rw [hrec, List.take_succ_cons]⟩
        · exact Or.inr (Or.inl ⟨hstop, by rw [hrec], by simpa using hlt, htail⟩)
        · exact Or.inr (Or.inr ⟨hstop, by rw [hrec, List.take_succ_cons], by simpa using hle⟩)

end Delim
