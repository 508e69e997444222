/-
# PacedAudio.LittleEndian — numbers as bytes, least significant first

Frames in the ring and rates on the wire are both little-endian. `value` reads any number of bytes
and `digits` writes a chosen number of them. Reading what was written keeps the number up to the
width written (`value_digits`), and writing what was read gives the bytes back (`digits_value`).
-/

import PacedAudio.Word

namespace PacedAudio.LittleEndian

/-- The number that a list of bytes stands for. -/
def value : List UInt8 → Nat
  | [] => 0
  | b :: rest => b.toNat + 256 * value rest

/-- The lowest `count` bytes of a number. -/
def digits : Nat → Nat → List UInt8
  | 0, _ => []
  | count + 1, v => UInt8.ofNat v :: digits count (v / 256)

@[simp] theorem length_digits (count v : Nat) : (digits count v).length = count := by
  induction count generalizing v with
  | zero => rfl
  | succ count ih => simp [digits, ih]

theorem value_lt (bytes : List UInt8) : value bytes < Word.bound (8 * bytes.length) := by
  induction bytes with
  | nil => decide
  | cons b rest ih =>
    have hb := b.toNat_lt
    rw [value, List.length_cons, Word.bound_succ_byte]
    omega

/-- Reading back `count` bytes keeps the number modulo their range. -/
theorem value_digits (count v : Nat) : value (digits count v) = v % Word.bound (8 * count) := by
  induction count generalizing v with
  | zero => exact (Nat.mod_one v).symm
  | succ count ih =>
    have hb : (UInt8.ofNat v).toNat = v % 256 := by simp
    rw [digits, value, ih, hb, Word.bound_succ_byte, Nat.mod_mul]

/-- Writing as many bytes as were read gives them back. -/
theorem digits_value (bytes : List UInt8) : digits bytes.length (value bytes) = bytes := by
  induction bytes with
  | nil => rfl
  | cons b rest ih =>
    have hb := b.toNat_lt
    have low : UInt8.ofNat (b.toNat + 256 * value rest) = b := by
      apply UInt8.toNat_inj.mp
      simp only [UInt8.toNat_ofNat']
      omega
    have high : (b.toNat + 256 * value rest) / 256 = value rest := by omega
    simp only [List.length_cons, value, digits, low, high, ih]

end PacedAudio.LittleEndian
