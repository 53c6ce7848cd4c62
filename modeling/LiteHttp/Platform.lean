import Mathlib.Algebra.Order.Ring.Int
import Mathlib.Data.List.Basic

/-!
# What the C program runs on

Bytes, `size_t` arithmetic, the two builds of the program, and the ways a call
can end without returning. A call that returns is `.ok`; everything below is
written in `Except Fault`.
-/

namespace LiteHttp

set_option autoImplicit false

abbrev Byte := UInt8
abbrev Bytes := List Byte

def cr : Byte := 13
def lf : Byte := 10
def space : Byte := 32
def colon : Byte := 58

/-- The bytes of an ASCII literal of the source. -/
def ascii (s : List Char) : Bytes := s.map Char.toUInt8

/-- `size_t` has 64 bits. -/
def sizeMod : Nat := 2 ^ 64

def sizeAdd (a b : Nat) : Nat := (a + b) % sizeMod

def sizeSub (a b : Nat) : Nat := (a + (sizeMod - b % sizeMod)) % sizeMod

/-- The build type chosen in CMakeLists.txt: a release build defines NDEBUG,
which compiles every `assert` out. -/
inductive Build where
  | debug
  | release
  deriving DecidableEq, Repr

/-- The assertions of the parser, of its driver, of the resource table, of the GET
handler and of the string; the null checks of pointers that the model does not have are
left out. -/
inductive Assertion where
  | tokenBeforeNextLine
  | tokenAfterCur
  | methodLength
  | blankCr
  | blankLf
  | lineCursor
  | focusCursor
  | bodyViewLength
  | endCursor
  | endGlued
  | endLength
  | responseNotNull
  | putNew
  | getMethod
  | sbufCapacity
  | smbufCapacity
  | smbufData
  | smbufNewCap
  | resizeSbuf
  deriving DecidableEq, Repr

/-- How a call fails to return. `undefined` is behaviour the C standard gives no
meaning to: an overflowing `int` shift, or a pointer to a released node. -/
inductive Fault where
  | assertFailed (a : Assertion)
  | undefined
  | diverges
  deriving DecidableEq, Repr

def assert (b : Build) (a : Assertion) (p : Prop) [Decidable p] : Except Fault Unit :=
  if b = .debug ∧ ¬ p then .error (.assertFailed a) else .ok ()

theorem assert_of {b : Build} {a : Assertion} {p : Prop} [Decidable p] (h : p) :
    assert b a p = .ok () := by simp [assert, h]

@[simp] theorem assert_release (a : Assertion) (p : Prop) [Decidable p] :
    assert .release a p = .ok () := by simp [assert]

theorem assert_debug_not {a : Assertion} {p : Prop} [Decidable p] (h : ¬ p) :
    assert .debug a p = .error (.assertFailed a) := by simp [assert, h]

/-- A computation that returns has returned from each of its parts. -/
theorem bind_ok {α β : Type} {x : Except Fault α} {f : α → Except Fault β} {r : β}
    (h : x >>= f = .ok r) : ∃ a, x = .ok a ∧ f a = .ok r := by
  cases x with
  | error e => simp [bind, Except.bind] at h
  | ok a => exact ⟨a, rfl, h⟩

theorem pure_ok {α : Type} {a b : α} : (pure a : Except Fault α) = .ok b ↔ a = b := by
  simp [pure, Except.pure]

theorem sizeAdd_eq {a b : Nat} (h : a + b < sizeMod) : sizeAdd a b = a + b :=
  Nat.mod_eq_of_lt h

theorem sizeSub_eq {a b : Nat} (hab : b ≤ a) (ha : a < sizeMod) : sizeSub a b = a - b := by
  have hb : b % sizeMod = b := Nat.mod_eq_of_lt (by omega)
  have hsum : a + (sizeMod - b) = a - b + sizeMod := by omega
  rw [sizeSub, hb, hsum, Nat.add_mod_right, Nat.mod_eq_of_lt (by omega)]

end LiteHttp
