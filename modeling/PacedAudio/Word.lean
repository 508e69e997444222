/-
# PacedAudio.Word — how much a word of some bits holds

Sizes, clocks, counters and samples are words of 8 to 64 bits. `Word.bound bits` is the first number
that a word of `bits` bits cannot hold, two to the power of `bits`.
-/

namespace PacedAudio.Word

-- The power is the one `Nat` itself comes with, whatever other powers are in scope.
attribute [local instance (2000)] instPowNat

/-- The first number that does not fit `bits` bits. -/
def bound (bits : Nat) : Nat := 2 ^ bits

theorem bound_eq (bits : Nat) : bound bits = 2 ^ bits := rfl

/-- One more byte holds 256 times as much. -/
theorem bound_succ_byte (count : Nat) : bound (8 * (count + 1)) = 256 * bound (8 * count) := by
  rw [bound_eq, bound_eq, Nat.mul_succ, Nat.pow_add, Nat.mul_comm]

end PacedAudio.Word
