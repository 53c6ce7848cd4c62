import Mathlib.Data.Nat.Log
import LiteHttp.Khash
import LiteHttp.ParseCtx
import LiteHttp.Lib.Buffers
import LiteHttp.Lib.Run

/-!
# The vectors of cc.h

The header lists of a parser node, a request and a response. A vector is a handle to a
block with a header and cells behind it, or to the placeholder that all empty vectors
share; it grows by doubling. Pushed to, it is the list the parser's model has in its place.
-/

namespace LiteHttp

open Buffers Buffers.Memory Run

set_option autoImplicit false

/-- `sizeof( cc_vec_hdr_ty )`. -/
def ccVecHdr : Nat := 16

/-- What `realloc_` answers: no memory, or a block, which may be the one there was. -/
inductive ReallocAnswer where
  | fails
  | stays
  | moves
  deriving DecidableEq, Repr

/-- A block with its header and the cells that fit behind it. -/
structure VecBlock (α : Type) where
  id : Id
  size : Nat
  cap : Nat
  cells : List (Option α)

/-- A handle. -/
inductive CcVec (α : Type) where
  | placeholder
  | block (blk : VecBlock α)

namespace CcVec

variable {α : Type}

/-- `cc_vec_size` and `cc_vec_cap`. -/
def sizeCap (m : Memory) : CcVec α → Except Fault (Nat × Nat)
  | placeholder => .ok (0, 0)
  | block blk => if m.Live blk.id then .ok (blk.size, blk.cap) else .error .undefined

/-- `cc_vec_reserve`, and whether the pointer it gives is true. No block is larger than an
object can be. -/
def reserve (elSize : Nat) (answer : ReallocAnswer) (m : Memory) (v : CcVec α) (n : Nat) :
    Except Fault (Bool × Memory × CcVec α) := do
  let (_, cap) ← v.sizeCap m
  if n ≤ cap then return (true, m, v)
  let bytes := sizeAdd ccVecHdr (elSize * n % sizeMod)
  if answer = .fails ∨ ptrdiffMax < bytes then return (false, m, v)
  else if bytes < ccVecHdr then .error .undefined
  else
    let fit := (bytes - ccVecHdr) / elSize
    match v with
    | placeholder => return (true, m.make, block ⟨m.fresh, 0, n, List.replicate fit none⟩)
    | block blk =>
      let (id, m) := m.realloc (answer = .moves) blk.id
      return (true, m, block ⟨id, blk.size, n, krealloc blk.cells fit⟩)

/-- `while( cap < cc_vec_size( cntr ) + n ) cap *= 2`. A power of two is 0 after 64 rounds. -/
def growCap : Nat → Nat → Nat → Except Fault Nat
  | 0, _, _ => .error .diverges
  | fuel + 1, cap, need =>
    if cap < need then growCap fuel (cap * 2 % sizeMod) need else .ok cap

/-- What `cc_vec_insert_n` does once there is room: what lies behind the index is moved up,
and the elements come in its place. -/
def insertCells (m : Memory) (index : Nat) (els : List α) : CcVec α →
    Except Fault (Option Nat × Memory × CcVec α)
  | placeholder => .error .undefined
  | block blk =>
    if m.Live blk.id ∧ index ≤ blk.size ∧ blk.size + els.length ≤ blk.cells.length then
      .ok (some index, m, block { blk with
        size := blk.size + els.length
        cells := blk.cells.take index ++ els.map some ++
          (blk.cells.drop index).take (blk.size - index) ++
          blk.cells.drop (blk.size + els.length) })
    else .error .undefined

/-- `cc_vec_insert_n`: the index of the pointer it gives, or null. -/
def insertN (elSize : Nat) (answer : ReallocAnswer) (m : Memory) (v : CcVec α) (index : Nat)
    (els : List α) : Except Fault (Option Nat × Memory × CcVec α) :=
  if els.length = 0 then .ok (none, m, v)
  else do
    let (size, cap) ← v.sizeCap m
    let need := sizeAdd size els.length
    if cap < need then
      let cap ← growCap 65 (if cap = 0 then 2 else cap) need
      let (ok, m, v) ← v.reserve elSize answer m cap
      if ok then v.insertCells m index els else return (none, m, v)
    else v.insertCells m index els

/-- `cc_vec_push_n`. -/
def pushN (elSize : Nat) (answer : ReallocAnswer) (m : Memory) (v : CcVec α) (els : List α) :
    Except Fault (Option Nat × Memory × CcVec α) := do
  let (size, _) ← v.sizeCap m
  v.insertN elSize answer m size els

/-- `cc_vec_push`. -/
def push (elSize : Nat) (answer : ReallocAnswer) (m : Memory) (v : CcVec α) (el : α) :
    Except Fault (Option Nat × Memory × CcVec α) := v.pushN elSize answer m [el]

/-- The element `cc_vec_get` points to. -/
def get (m : Memory) (v : CcVec α) (i : Nat) : Except Fault α :=
  match v with
  | placeholder => .error .undefined
  | block blk => if m.Live blk.id then peek blk.cells i else .error .undefined

/-- The element `cc_vec_last` points to. -/
def last (m : Memory) (v : CcVec α) : Except Fault α := do
  let (size, _) ← v.sizeCap m
  v.get m (sizeSub size 1)

/-- `cc_vec_cleanup`; the elements have no destructor. -/
def cleanup (m : Memory) : CcVec α → Except Fault Memory
  | placeholder => .ok m
  | block blk => if m.Live blk.id then .ok (m.release blk.id) else .error .undefined

end CcVec

/-- What the server does with a vector. -/
inductive VecOp (α : Type) where
  | push (el : α) (answer : ReallocAnswer)
  | get (i : Nat)
  | last
  | size

inductive VecRet (α : Type) where
  | pushed (ok : Bool)
  | element (el : α)
  | count (n : Nat)
  deriving DecidableEq, Repr

variable {α : Type}

def VecOp.run (elSize : Nat) (s : Memory × CcVec α) :
    VecOp α → Except Fault (VecRet α × Memory × CcVec α)
  | .push el answer => do
    let (ptr, s) ← s.2.push elSize answer s.1 el
    return (.pushed ptr.isSome, s)
  | .get i => do
    let el ← s.2.get s.1 i
    return (.element el, s)
  | .last => do
    let el ← s.2.last s.1
    return (.element el, s)
  | .size => do
    let (n, _) ← s.2.sizeCap s.1
    return (.count n, s)

/-! ## The list that a vector is -/

/-- The cells of a vector that was pushed to until it had `n` elements. -/
def vecCap (n : Nat) : Nat := if n = 0 then 0 else max 2 (2 ^ Nat.clog 2 n)

/-- Whether a push onto `n` elements succeeds. The allocator is asked where the cells are used up. -/
def pushOk (elSize n : Nat) (answer : ReallocAnswer) : Bool :=
  n < vecCap n ∨ (answer ≠ .fails ∧ ccVecHdr + elSize * vecCap (n + 1) ≤ ptrdiffMax)

def VecOp.onList (elSize : Nat) (l : List α) : VecOp α → Except Fault (VecRet α × List α)
  | .push el answer =>
    match ccPush (pushOk elSize l.length answer) l el with
    | some l => .ok (.pushed true, l)
    | none => .ok (.pushed false, l)
  | .get i =>
    match l[i]? with
    | some el => .ok (.element el, l)
    | none => .error .undefined
  | .last =>
    match l.getLast? with
    | some el => .ok (.element el, l)
    | none => .error .undefined
  | .size => .ok (.count l.length, l)

theorem vecCap_two_pow {n : Nat} (h : n ≠ 0) : ∃ r, 1 ≤ r ∧ vecCap n = 2 ^ r := by
  rw [vecCap, if_neg h]
  rcases Nat.lt_or_ge n 2 with hlt | hge
  · have hone : n = 1 := by omega
    subst hone
    exact ⟨1, Nat.le_refl 1, by simp⟩
  · have hpos : 0 < Nat.clog 2 n := Nat.clog_pos Nat.one_lt_two hge
    refine ⟨Nat.clog 2 n, hpos, ?_⟩
    exact max_eq_right (Nat.pow_le_pow_right Nat.two_pos hpos : 2 ^ 1 ≤ _)

theorem le_vecCap (n : Nat) : n ≤ vecCap n := by
  unfold vecCap
  split
  · omega
  · have hpow : n ≤ 2 ^ Nat.clog 2 n := Nat.le_pow_clog Nat.one_lt_two n
    exact Nat.le_trans hpow (Nat.le_max_right _ _)

theorem vecCap_le (n : Nat) : vecCap n ≤ 2 * n := by
  unfold vecCap
  split
  · omega
  · rename_i hne
    apply Nat.max_le.mpr
    refine ⟨by omega, ?_⟩
    rcases Nat.lt_or_ge n 2 with hlt | hge
    · have hone : n = 1 := by omega
      subst hone
      simp
    · have hpow : 2 ^ (Nat.clog 2 n).pred < n := Nat.pow_pred_clog_lt_self Nat.one_lt_two hge
      have hpos : 0 < Nat.clog 2 n := Nat.clog_pos Nat.one_lt_two hge
      have hsucc : 2 ^ Nat.clog 2 n = 2 * 2 ^ (Nat.clog 2 n).pred := by
        rw [← Nat.pow_succ', Nat.succ_pred_eq_of_pos hpos]
      omega

/-- While there are cells left, a push leaves the capacity as it is. -/
theorem vecCap_succ_of_lt {n : Nat} (h : n < vecCap n) : vecCap (n + 1) = vecCap n := by
  have hne : n ≠ 0 := by
    rintro rfl
    simp [vecCap] at h
  rw [vecCap, if_neg hne] at h
  rw [vecCap, vecCap, if_neg hne, if_neg (Nat.succ_ne_zero n)]
  rcases Nat.lt_or_ge n 2 with hlt | hge
  · have hone : n = 1 := by omega
    subst hone
    decide
  · have hlow : 2 ^ Nat.clog 2 n ≤ 2 ^ Nat.clog 2 (n + 1) :=
      Nat.pow_le_pow_right Nat.two_pos (Nat.clog_mono_right 2 (Nat.le_succ n))
    have hpow : n + 1 ≤ 2 ^ Nat.clog 2 n := by omega
    have hhigh : Nat.clog 2 (n + 1) ≤ Nat.clog 2 n := Nat.clog_le_of_le_pow hpow
    have hpows : 2 ^ Nat.clog 2 (n + 1) ≤ 2 ^ Nat.clog 2 n :=
      Nat.pow_le_pow_right Nat.two_pos hhigh
    rw [Nat.le_antisymm hpows hlow]

/-- Where there are none, it doubles it. -/
theorem vecCap_succ_of_eq {n : Nat} (hne : n ≠ 0) (h : vecCap n = n) : vecCap (n + 1) = n * 2 := by
  obtain ⟨r, hr, hpow⟩ := vecCap_two_pow hne
  rw [h] at hpow
  subst hpow
  have hlow : 2 ^ r < 2 ^ r + 1 := Nat.lt_succ_self _
  have hgt : r < Nat.clog 2 (2 ^ r + 1) := (Nat.lt_clog_iff_pow_lt Nat.one_lt_two).mpr hlow
  have hpos : 1 ≤ 2 ^ r := Nat.one_le_two_pow
  have hle : Nat.clog 2 (2 ^ r + 1) ≤ r + 1 := by
    apply Nat.clog_le_of_le_pow
    rw [Nat.pow_succ]
    omega
  have hclog : Nat.clog 2 (2 ^ r + 1) = r + 1 := Nat.le_antisymm hle hgt
  rw [vecCap, if_neg (Nat.succ_ne_zero _), hclog, Nat.pow_succ]
  exact max_eq_right (by omega)

namespace CcVec

/-- A block with the elements of a list and room for `c`. Beside it, what is live is what
was live before there was a vector, and at each doubling at most one block was made. -/
structure Room (elSize : Nat) (m₀ : Memory) (l : List α) (c : Nat) (m : Memory)
    (blk : VecBlock α) : Prop where
  live : m.Live blk.id
  size_eq : blk.size = l.length
  cap_eq : blk.cap = c
  cells_eq : blk.cells = l.map some ++ List.replicate (c - l.length) none
  fits : ccVecHdr + elSize * c ≤ ptrdiffMax
  others : ∀ b, m₀.Live b ↔ m.Live b ∧ b ≠ blk.id
  made : 2 ^ (m.fresh - m₀.fresh) ≤ c

def Holds (elSize : Nat) (m₀ : Memory) (l : List α) (m : Memory) : CcVec α → Prop
  | placeholder => l = [] ∧ m = m₀
  | block blk => l ≠ [] ∧ Room elSize m₀ l (vecCap l.length) m blk

variable {elSize : Nat} {m₀ m : Memory} {l : List α} {v : CcVec α} {answer : ReallocAnswer}

theorem Holds.sizeCap_eq (h : v.Holds elSize m₀ l m) :
    v.sizeCap m = .ok (l.length, vecCap l.length) := by
  cases v with
  | placeholder =>
    obtain ⟨rfl, -⟩ := h
    rfl
  | block blk =>
    obtain ⟨-, h⟩ := h
    rw [sizeCap, if_pos h.live, h.size_eq, h.cap_eq]

/-- Once there is room for it, an element comes behind the others. -/
theorem Room.insertCells {c : Nat} {blk : VecBlock α} (h : Room elSize m₀ l c m blk)
    (hlt : l.length < c) (el : α) :
    ∃ blk', (block blk).insertCells m l.length [el] = .ok (some l.length, m, block blk') ∧
      Room elSize m₀ (l ++ [el]) c m blk' := by
  have hlen : blk.cells.length = c := by
    rw [h.cells_eq, List.length_append, List.length_map, List.length_replicate]
    omega
  have hguard : m.Live blk.id ∧ l.length ≤ blk.size ∧
      blk.size + [el].length ≤ blk.cells.length := by
    rw [hlen, h.size_eq]
    exact ⟨h.live, Nat.le_refl _, hlt⟩
  have hcells : blk.cells.take l.length ++ [el].map some ++
      (blk.cells.drop l.length).take (blk.size - l.length) ++
      blk.cells.drop (blk.size + [el].length) =
      (l ++ [el]).map some ++ List.replicate (c - (l ++ [el]).length) none := by
    have hmap : (l.map some).length = l.length := List.length_map some
    have hfront : blk.cells.take l.length = l.map some := by
      rw [h.cells_eq]
      exact List.take_left' hmap
    have hback : blk.cells.drop (l.length + 1) = List.replicate (c - (l.length + 1)) none := by
      rw [h.cells_eq, List.drop_append, hmap, List.drop_eq_nil_of_le (by omega),
        List.drop_replicate, List.nil_append]
      congr 1
      omega
    rw [h.size_eq, Nat.sub_self, List.take_zero, List.append_nil, List.length_append, hfront]
    rw [List.length_singleton, hback, List.map_append]
  refine ⟨_, by rw [CcVec.insertCells, if_pos hguard], ?_⟩
  exact {
    live := h.live
    size_eq := by rw [h.size_eq, List.length_append]
    cap_eq := h.cap_eq
    cells_eq := hcells
    fits := h.fits
    others := h.others
    made := h.made
  }

theorem Holds.fits (h : v.Holds elSize m₀ l m) (hne : l ≠ []) :
    ccVecHdr + elSize * vecCap l.length ≤ ptrdiffMax := by
  cases v with
  | placeholder => exact absurd h.1 hne
  | block blk => exact h.2.fits

/-- The size of the next block does not wrap, as the one there is is at most `ptrdiffMax`. -/
theorem Holds.next_lt (h : v.Holds elSize m₀ l m) (hle : elSize ≤ 2 ^ 62)
    (hfull : vecCap l.length = l.length) :
    ccVecHdr + elSize * vecCap (l.length + 1) < sizeMod := by
  rcases eq_or_ne l [] with rfl | hne
  · have htwo : vecCap (0 + 1) = 2 := by decide
    rw [List.length_nil, htwo]
    unfold ccVecHdr sizeMod
    omega
  · have hfits := h.fits hne
    rw [hfull] at hfits
    rw [vecCap_succ_of_eq (mt List.length_eq_zero_iff.mp hne) hfull, ← Nat.mul_assoc]
    unfold ccVecHdr sizeMod ptrdiffMax at *
    omega

theorem Holds.growCap_eq (h : v.Holds elSize m₀ l m) (hel : 0 < elSize)
    (hfull : vecCap l.length = l.length) :
    growCap 65 (if l.length = 0 then 2 else l.length) (l.length + 1) =
      .ok (vecCap (l.length + 1)) := by
  rcases eq_or_ne l [] with rfl | hne
  · rfl
  · have hfits := h.fits hne
    have hlen : l.length ≠ 0 := mt List.length_eq_zero_iff.mp hne
    rw [hfull] at hfits
    have hmul : l.length ≤ elSize * l.length := Nat.le_mul_of_pos_left _ hel
    have hwrap : l.length * 2 % sizeMod = l.length * 2 := by
      apply Nat.mod_eq_of_lt
      unfold sizeMod
      unfold ptrdiffMax at hfits
      omega
    rw [vecCap_succ_of_eq hlen hfull, if_neg hlen, growCap, if_pos (Nat.lt_succ_self _), hwrap,
      growCap, if_neg (by omega)]

theorem Holds.reserve_refused (h : v.Holds elSize m₀ l m) (hle : elSize ≤ 2 ^ 62)
    (hfull : vecCap l.length = l.length)
    (hno : answer = .fails ∨ ptrdiffMax < ccVecHdr + elSize * vecCap (l.length + 1)) :
    v.reserve elSize answer m (vecCap (l.length + 1)) = .ok (false, m, v) := by
  have hlt := h.next_lt hle hfull
  have hmul : elSize * vecCap (l.length + 1) % sizeMod = elSize * vecCap (l.length + 1) :=
    Nat.mod_eq_of_lt (by omega)
  have hcap : ¬ vecCap (l.length + 1) ≤ vecCap l.length := by
    have hroom := le_vecCap (l.length + 1)
    omega
  rw [reserve, h.sizeCap_eq]
  simp only [bind, Except.bind, pure, Except.pure]
  rw [if_neg hcap, hmul, sizeAdd_eq hlt, if_pos hno]

/-- A block for more elements has the old ones, and room behind them. -/
theorem Holds.reserve_grows (h : v.Holds elSize m₀ l m) (hel : 0 < elSize)
    (hle : elSize ≤ 2 ^ 62) (hfull : vecCap l.length = l.length) (hans : answer ≠ .fails)
    (hfits : ccVecHdr + elSize * vecCap (l.length + 1) ≤ ptrdiffMax) :
    ∃ m' blk, v.reserve elSize answer m (vecCap (l.length + 1)) = .ok (true, m', block blk) ∧
      Room elSize m₀ l (vecCap (l.length + 1)) m' blk := by
  have hlt := h.next_lt hle hfull
  have hmul : elSize * vecCap (l.length + 1) % sizeMod = elSize * vecCap (l.length + 1) :=
    Nat.mod_eq_of_lt (by omega)
  have hroom := le_vecCap (l.length + 1)
  have hcap : ¬ vecCap (l.length + 1) ≤ vecCap l.length := by omega
  have hgiven : ¬ (answer = .fails ∨ ptrdiffMax < ccVecHdr + elSize * vecCap (l.length + 1)) := by
    intro hno
    exact hno.elim hans (Nat.not_lt.mpr hfits)
  have hfit : (ccVecHdr + elSize * vecCap (l.length + 1) - ccVecHdr) / elSize =
      vecCap (l.length + 1) := by
    rw [Nat.add_sub_cancel_left, Nat.mul_div_cancel_left _ hel]
  have heq : v.reserve elSize answer m (vecCap (l.length + 1)) =
      match v with
      | placeholder => .ok (true, m.make,
          block ⟨m.fresh, 0, vecCap (l.length + 1), List.replicate (vecCap (l.length + 1)) none⟩)
      | block blk => .ok (true, (m.realloc (answer = .moves) blk.id).2,
          block ⟨(m.realloc (answer = .moves) blk.id).1, blk.size, vecCap (l.length + 1),
            krealloc blk.cells (vecCap (l.length + 1))⟩) := by
    rw [reserve, h.sizeCap_eq]
    simp only [bind, Except.bind, pure, Except.pure]
    rw [if_neg hcap, hmul, sizeAdd_eq hlt, if_neg hgiven,
      if_neg (Nat.not_lt.mpr (Nat.le_add_right _ _)), hfit]
    cases v <;> rfl
  rw [heq]
  cases v with
  | placeholder =>
    obtain ⟨rfl, rfl⟩ := h
    exact ⟨_, _, rfl, {
      live := live_make_fresh m
      size_eq := rfl
      cap_eq := rfl
      cells_eq := rfl
      fits := hfits
      others := by
        intro b
        rw [live_make_iff]
        constructor
        · exact fun hb => ⟨Or.inl hb, hb.ne_fresh⟩
        · rintro ⟨hb, hne⟩
          exact hb.resolve_right hne
      made := by simp [fresh, make, vecCap]
    }⟩
  | block blk =>
    obtain ⟨hne, h⟩ := h
    refine ⟨_, _, rfl, ?_⟩
    exact {
      live := (live_realloc_iff _ h.live).mpr (Or.inr rfl)
      size_eq := h.size_eq
      cap_eq := rfl
      cells_eq := by
        rw [krealloc, h.cells_eq, hfull, Nat.sub_self, List.replicate_zero, List.append_nil,
          List.length_map, List.take_of_length_le]
        rw [List.length_map]
        omega
      fits := hfits
      others := by
        intro b
        rw [h.others, live_realloc_iff _ h.live]
        constructor
        · intro hb
          exact ⟨Or.inl hb, realloc_ne _ hb.1 hb.2⟩
        · rintro ⟨hb, hb'⟩
          exact hb.resolve_right hb'
      made := by
        have hmade := h.made
        have hfresh := fresh_realloc_le (answer = .moves) m blk.id
        rw [hfull] at hmade
        rw [vecCap_succ_of_eq (mt List.length_eq_zero_iff.mp hne) hfull]
        have hpow : 2 ^ ((m.realloc (answer = .moves) blk.id).2.fresh - m₀.fresh) ≤
            2 ^ (m.fresh - m₀.fresh + 1) := by
          apply Nat.pow_le_pow_right Nat.two_pos
          apply Nat.sub_le_iff_le_add.mpr
          rw [Nat.add_right_comm]
          exact Nat.le_trans hfresh (Nat.succ_le_succ (Nat.sub_le_iff_le_add.mp (Nat.le_refl _)))
        rw [Nat.pow_succ] at hpow
        omega
    }

theorem Holds.push_eq (h : v.Holds elSize m₀ l m) (el : α) :
    v.push elSize answer m el =
      if vecCap l.length < sizeAdd l.length 1 then do
        let cap ← growCap 65 (if vecCap l.length = 0 then 2 else vecCap l.length)
          (sizeAdd l.length 1)
        let (ok, m, v) ← v.reserve elSize answer m cap
        if ok then v.insertCells m l.length [el] else return (none, m, v)
      else v.insertCells m l.length [el] := by
  rw [push, pushN, h.sizeCap_eq]
  simp only [bind, Except.bind]
  rw [insertN, if_neg (by simp), h.sizeCap_eq]
  rfl

theorem Holds.sizeAdd_eq (h : v.Holds elSize m₀ l m) (hel : 0 < elSize) :
    sizeAdd l.length 1 = l.length + 1 := by
  apply LiteHttp.sizeAdd_eq
  rcases eq_or_ne l [] with rfl | hne
  · exact (by decide : 0 + 1 < sizeMod)
  · have hfits := h.fits hne
    have hmul : vecCap l.length ≤ elSize * vecCap l.length := Nat.le_mul_of_pos_left _ hel
    have hcap := le_vecCap l.length
    unfold ccVecHdr ptrdiffMax at hfits
    unfold sizeMod
    omega

/-- A push that is refused leaves the vector. -/
theorem Holds.push_refused (h : v.Holds elSize m₀ l m) (hel : 0 < elSize) (hle : elSize ≤ 2 ^ 62)
    (hno : pushOk elSize l.length answer = false) (el : α) :
    v.push elSize answer m el = .ok (none, m, v) := by
  obtain ⟨hfull, hno⟩ : vecCap l.length = l.length ∧
      (answer = .fails ∨ ptrdiffMax < ccVecHdr + elSize * vecCap (l.length + 1)) := by
    simp only [pushOk, decide_eq_false_iff_not, not_or, not_lt, not_and_or, not_not, not_le] at hno
    exact ⟨Nat.le_antisymm hno.1 (le_vecCap _), hno.2⟩
  rw [h.push_eq, h.sizeAdd_eq hel, if_pos (by omega), hfull, h.growCap_eq hel hfull]
  simp only [bind, Except.bind]
  rw [h.reserve_refused hle hfull hno]
  rfl

theorem Holds.push_ok (h : v.Holds elSize m₀ l m) (hel : 0 < elSize) (hle : elSize ≤ 2 ^ 62)
    (hyes : pushOk elSize l.length answer = true) (el : α) :
    ∃ m' v', v.push elSize answer m el = .ok (some l.length, m', v') ∧
      v'.Holds elSize m₀ (l ++ [el]) m' := by
  have hlen : (l ++ [el]).length = l.length + 1 := List.length_append
  have hne : l ++ [el] ≠ [] := List.append_ne_nil_of_right_ne_nil l (List.cons_ne_nil el [])
  rw [h.push_eq, h.sizeAdd_eq hel]
  by_cases hlt : l.length < vecCap l.length
  · rw [if_neg (by omega)]
    cases v with
    | placeholder =>
      obtain ⟨rfl, -⟩ := h
      simp [vecCap] at hlt
    | block blk =>
      obtain ⟨-, h⟩ := h
      obtain ⟨blk', heq, hroom⟩ := h.insertCells hlt el
      refine ⟨m, block blk', heq, hne, ?_⟩
      rw [hlen, vecCap_succ_of_lt hlt]
      exact hroom
  · have hfull : vecCap l.length = l.length := Nat.le_antisymm (Nat.not_lt.mp hlt) (le_vecCap _)
    obtain ⟨hans, hfits⟩ : answer ≠ .fails ∧
        ccVecHdr + elSize * vecCap (l.length + 1) ≤ ptrdiffMax := by
      simp only [pushOk, decide_eq_true_eq] at hyes
      exact hyes.resolve_left hlt
    obtain ⟨m', blk, hreserve, hroom⟩ := h.reserve_grows hel hle hfull hans hfits
    obtain ⟨blk', heq, hroom'⟩ := hroom.insertCells (le_vecCap (l.length + 1)) el
    refine ⟨m', block blk', ?_, hne, ?_⟩
    · rw [if_pos (by omega), hfull, h.growCap_eq hel hfull]
      simp only [bind, Except.bind]
      rw [hreserve]
      exact heq
    · rw [hlen]
      exact hroom'

theorem Holds.get_eq (h : v.Holds elSize m₀ l m) (i : Nat) :
    v.get m i = match l[i]? with
      | some el => .ok el
      | none => .error .undefined := by
  cases v with
  | placeholder =>
    obtain ⟨rfl, -⟩ := h
    rfl
  | block blk =>
    obtain ⟨-, h⟩ := h
    rw [get, if_pos h.live, peek, h.cells_eq]
    rcases Nat.lt_or_ge i l.length with hlt | hge
    · rw [List.getElem?_append_left (by simpa using hlt), List.getElem?_map,
        List.getElem?_eq_getElem hlt]
      rfl
    · rw [List.getElem?_append_right (by simpa using hge), List.getElem?_replicate,
        List.getElem?_eq_none hge]
      split <;> simp_all

theorem Holds.last_eq (h : v.Holds elSize m₀ l m) (hel : 0 < elSize) :
    v.last m = match l.getLast? with
      | some el => .ok el
      | none => .error .undefined := by
  rw [last, h.sizeCap_eq]
  simp only [bind, Except.bind]
  rw [h.get_eq, List.getLast?_eq_getElem?]
  rcases eq_or_ne l [] with rfl | hne
  · rfl
  · have hadd := h.sizeAdd_eq hel
    have hlt : l.length < sizeMod := by
      have hmod : sizeAdd l.length 1 < sizeMod := Nat.mod_lt _ (by decide)
      omega
    rw [sizeSub_eq (List.length_pos_iff.mpr hne) hlt]

/-- Cleaned up, a vector leaves the memory there was before it. -/
theorem Holds.cleanup (h : v.Holds elSize m₀ l m) :
    ∃ m', v.cleanup m = .ok m' ∧ ∀ b, m'.Live b ↔ m₀.Live b := by
  cases v with
  | placeholder =>
    obtain ⟨-, rfl⟩ := h
    exact ⟨m, rfl, fun b => Iff.rfl⟩
  | block blk =>
    obtain ⟨-, h⟩ := h
    refine ⟨m.release blk.id, by rw [CcVec.cleanup, if_pos h.live], ?_⟩
    intro b
    rw [live_release_iff, h.others]

theorem Holds.fresh_le (h : v.Holds elSize m₀ l m) :
    m.fresh ≤ m₀.fresh + (2 * l.length).log2 := by
  cases v with
  | placeholder =>
    obtain ⟨-, rfl⟩ := h
    exact Nat.le_add_right _ _
  | block blk =>
    obtain ⟨hne, h⟩ := h
    have hpos : 0 < l.length := List.length_pos_iff.mpr hne
    have hlog : m.fresh - m₀.fresh ≤ (2 * l.length).log2 := by
      apply (Nat.le_log2 (by omega)).mpr
      exact Nat.le_trans h.made (vecCap_le _)
    exact Nat.sub_le_iff_le_add'.mp hlog

end CcVec

section Run

variable {elSize : Nat} {m₀ m : Memory} {l : List α} {v : CcVec α}

/-- One operation does to the vector what it does to the list, or is undefined on both. -/
theorem VecOp.run_onList (hel : 0 < elSize) (hle : elSize ≤ 2 ^ 62)
    (h : v.Holds elSize m₀ l m) (op : VecOp α) :
    (∃ ret m' v' l', op.run elSize (m, v) = .ok (ret, m', v') ∧ op.onList elSize l = .ok (ret, l') ∧
      v'.Holds elSize m₀ l' m') ∨
    (op.run elSize (m, v) = .error .undefined ∧ op.onList elSize l = .error .undefined) := by
  cases op with
  | push el answer =>
    left
    cases hok : pushOk elSize l.length answer with
    | true =>
      obtain ⟨m', v', heq, hholds⟩ := h.push_ok hel hle hok el
      refine ⟨.pushed true, m', v', l ++ [el], ?_, ?_, hholds⟩
      · simp only [run, heq, bind, Except.bind, pure, Except.pure, Option.isSome_some]
      · simp only [onList, hok, ccPush, if_true]
    | false =>
      refine ⟨.pushed false, m, v, l, ?_, ?_, h⟩
      · simp only [run, h.push_refused hel hle hok, bind, Except.bind, pure, Except.pure,
          Option.isSome_none]
      · simp only [onList, hok, ccPush, Bool.false_eq_true, if_false]
  | get i =>
    simp only [run, onList, h.get_eq]
    cases l[i]? with
    | some el => exact Or.inl ⟨_, m, v, l, rfl, rfl, h⟩
    | none => exact Or.inr ⟨rfl, rfl⟩
  | last =>
    simp only [run, onList, h.last_eq hel]
    cases l.getLast? with
    | some el => exact Or.inl ⟨_, m, v, l, rfl, rfl, h⟩
    | none => exact Or.inr ⟨rfl, rfl⟩
  | size =>
    left
    refine ⟨.count l.length, m, v, l, ?_, rfl, h⟩
    simp only [run, h.sizeCap_eq, bind, Except.bind, pure, Except.pure]

theorem VecOp.exec_onList (hel : 0 < elSize) (hle : elSize ≤ 2 ^ 62) (ops : List (VecOp α))
    (h : v.Holds elSize m₀ l m) :
    (∃ rets m' v' l', exec (VecOp.run elSize) (m, v) ops = .ok (rets, m', v') ∧
      exec (VecOp.onList elSize) l ops = .ok (rets, l') ∧ v'.Holds elSize m₀ l' m') ∨
    (exec (VecOp.run elSize) (m, v) ops = .error .undefined ∧
      exec (VecOp.onList elSize) l ops = .error .undefined) := by
  induction ops generalizing m v l with
  | nil => exact Or.inl ⟨[], m, v, l, rfl, rfl, h⟩
  | cons op ops ih =>
    rcases VecOp.run_onList hel hle h op with ⟨ret, m', v', l', hrun, hlist, h'⟩ | ⟨hrun, hlist⟩
    · rcases ih h' with ⟨rets, m'', v'', l'', hruns, hlists, h''⟩ | ⟨hruns, hlists⟩
      · left
        exact ⟨ret :: rets, m'', v'', l'', exec_cons hrun hruns, exec_cons hlist hlists, h''⟩
      · right
        simp only [exec, hrun, hlist, hruns, hlists, and_self]
    · right
      simp only [exec, hrun, hlist, and_self]

end Run

/-- A run of any length on a new vector goes as on the list of the parser's model. A push is
refused only where the cells are used up and there is no block for twice as many; the only
fault is to read an element that is not there. In the end the vector holds the list, at most
a logarithm of its length of blocks were made, and a cleanup leaves those there were before. -/
theorem run_vector {elSize : Nat} (hel : 0 < elSize) (hle : elSize ≤ 2 ^ 62) (m₀ : Memory)
    (ops : List (VecOp α)) :
    (∃ rets m v l, exec (VecOp.run elSize) (m₀, .placeholder) ops = .ok (rets, m, v) ∧
      exec (VecOp.onList elSize) [] ops = .ok (rets, l) ∧
      v.sizeCap m = .ok (l.length, vecCap l.length) ∧
      (∀ i el, v.get m i = .ok el ↔ l[i]? = some el) ∧
      m.fresh ≤ m₀.fresh + (2 * l.length).log2 ∧
      ∃ m', v.cleanup m = .ok m' ∧ ∀ b, m'.Live b ↔ m₀.Live b) ∨
    (exec (VecOp.run elSize) (m₀, .placeholder) ops = .error .undefined ∧
      exec (VecOp.onList elSize) [] ops = .error .undefined) := by
  have hinit : CcVec.Holds elSize m₀ ([] : List α) m₀ .placeholder := ⟨rfl, rfl⟩
  rcases VecOp.exec_onList hel hle ops hinit with ⟨rets, m, v, l, hrun, hlist, h⟩ | hfault
  · refine Or.inl ⟨rets, m, v, l, hrun, hlist, h.sizeCap_eq, ?_, h.fresh_le, h.cleanup⟩
    intro i el
    rw [h.get_eq]
    cases l[i]? with
    | some a => simp
    | none => simp
  · exact Or.inr hfault

/-- Three headers of 40 bytes: the third asks for a second block, and gets it at the second try. -/
theorem run_vector_three :
    (∃ rets m v l, exec (VecOp.run 40) (⟨[]⟩, .placeholder)
        [.push 1 .stays, .push 2 .fails, .push 3 .fails, .push 3 .moves, .last] = .ok (rets, m, v) ∧
      exec (VecOp.onList 40) []
        [.push 1 .stays, .push 2 .fails, .push 3 .fails, .push 3 .moves, .last] = .ok (rets, l) ∧
      v.sizeCap m = .ok (l.length, vecCap l.length) ∧
      (∀ i el, v.get m i = .ok el ↔ l[i]? = some el) ∧
      m.fresh ≤ (⟨[]⟩ : Memory).fresh + (2 * l.length).log2 ∧
      ∃ m', v.cleanup m = .ok m' ∧ ∀ b, m'.Live b ↔ (⟨[]⟩ : Memory).Live b) ∨
    (exec (VecOp.run 40) ((⟨[]⟩ : Memory), (.placeholder : CcVec Nat))
        [.push 1 .stays, .push 2 .fails, .push 3 .fails, .push 3 .moves, .last] =
          .error .undefined ∧
      exec (VecOp.onList 40) []
        [.push 1 .stays, .push 2 .fails, .push 3 .fails, .push 3 .moves, .last] =
          .error .undefined) :=
  run_vector (by decide) (by decide) ⟨[]⟩ _

end LiteHttp
