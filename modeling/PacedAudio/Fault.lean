/-
# PacedAudio.Fault — arithmetic in machine words, and what stops it

Sizes, clocks and counters are held in words of a fixed number of bits. A sum or product that does
not fit its word, a difference below zero, a remainder by zero and a ring whose storage cannot be
addressed are *faults*: the operation that meets one stops, and the fault is its only answer.
`Word.add`, `Word.mul`, `Word.sub` and `Word.rem` compute in the natural numbers and fault exactly
when the exact result is out of range, so an operation that answers without a fault has answered
with exact arithmetic.
-/

import PacedAudio.Word

namespace PacedAudio

/-- What stops an operation. -/
inductive Fault where
  /-- A sum needs more bits than its word has. -/
  | sumOutOfRange
  /-- A product needs more bits than its word has. -/
  | productOutOfRange
  /-- A difference is below zero. -/
  | differenceOutOfRange
  /-- A remainder was asked for with a divisor of zero. -/
  | zeroDivisor
  /-- A ring was asked for without a byte of storage. -/
  | noStorage
  /-- A ring's cursors would not fit the sixteen bits of a flush position. -/
  | cursorsTooWide
deriving DecidableEq, Repr

/-- The text that a fault is reported with. -/
def Fault.message : Fault → String
  | .sumOutOfRange => "attempt to add with overflow"
  | .productOutOfRange => "attempt to multiply with overflow"
  | .differenceOutOfRange => "attempt to subtract with overflow"
  | .zeroDivisor => "attempt to calculate the remainder with a divisor of zero"
  | .noStorage => "ring buffer needs storage"
  | .cursorsTooWide => "cursor range must fit 16 bits"

/-- A value, or the fault that kept it from being computed. -/
abbrev Checked (α : Type) := Except Fault α

/-- A computation in two parts succeeds if both of them do. -/
theorem Checked.bind_eq_ok {α β : Type} {first : Checked α} {second : α → Checked β} {b : β} :
    first >>= second = .ok b ↔ ∃ a, first = .ok a ∧ second a = .ok b := by
  cases first with
  | error fault => simp [bind, Except.bind]
  | ok a => simp [bind, Except.bind]

/-- A first part that has succeeded hands its value on. -/
theorem Checked.ok_bind {α β : Type} (a : α) (second : α → Checked β) :
    (Except.ok a : Checked α) >>= second = second a :=
  rfl

namespace Word

/-! ## Exact arithmetic, refused out of range -/

/-- The exact sum, if it fits `bits` bits. -/
def add (bits a b : Nat) : Checked Nat :=
  if a + b < bound bits then .ok (a + b) else .error .sumOutOfRange

/-- The exact product, if it fits `bits` bits. -/
def mul (bits a b : Nat) : Checked Nat :=
  if a * b < bound bits then .ok (a * b) else .error .productOutOfRange

/-- The exact difference, if there is one. -/
def sub (a b : Nat) : Checked Nat :=
  if b ≤ a then .ok (a - b) else .error .differenceOutOfRange

/-- The remainder, if there is a divisor. -/
def rem (a b : Nat) : Checked {rest : Nat // rest < b} :=
  if h : 0 < b then .ok ⟨a % b, Nat.mod_lt a h⟩ else .error .zeroDivisor

theorem add_of_lt {bits a b : Nat} (h : a + b < bound bits) : add bits a b = .ok (a + b) :=
  if_pos h

theorem add_of_le {bits a b : Nat} (h : bound bits ≤ a + b) :
    add bits a b = .error .sumOutOfRange :=
  if_neg (Nat.not_lt.mpr h)

theorem mul_of_lt {bits a b : Nat} (h : a * b < bound bits) : mul bits a b = .ok (a * b) :=
  if_pos h

theorem mul_of_le {bits a b : Nat} (h : bound bits ≤ a * b) :
    mul bits a b = .error .productOutOfRange :=
  if_neg (Nat.not_lt.mpr h)

theorem sub_of_le {a b : Nat} (h : b ≤ a) : sub a b = .ok (a - b) :=
  if_pos h

theorem rem_of_pos {b : Nat} (a : Nat) (h : 0 < b) : rem a b = .ok ⟨a % b, Nat.mod_lt a h⟩ :=
  dif_pos h

end Word

end PacedAudio
