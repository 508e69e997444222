/-
# PacedAudio.SamplingFrequency — a sample rate on the wire

The host writes and reads a sample rate as three bytes, little-endian: 44100 Hz is `44 AC 00`.
Three bytes hold any rate below 2^24, so `encode` keeps a rate up to its top byte
(`decode_encode`) and loses nothing of a rate that was decoded (`encode_decode`).
-/

import PacedAudio.LittleEndian
import PacedAudio.Refusal

namespace PacedAudio.SamplingFrequency

/-- The bytes of a sample rate on the wire. -/
def byteCount : Nat := 3

/-- The wire form of a rate; its top byte is dropped. -/
def encode (rate : UInt32) : List UInt8 := LittleEndian.digits byteCount rate.toNat

/-- The rate at the front of a message; what follows it is ignored. -/
def decode (data : List UInt8) : Except Refusal UInt32 :=
  if data.length < byteCount then .error .malformedRequest
  else .ok (UInt32.ofNat (LittleEndian.value (data.take byteCount)))

@[simp] theorem length_encode (rate : UInt32) : (encode rate).length = byteCount :=
  LittleEndian.length_digits _ _

theorem decode_of_short {data : List UInt8} (h : data.length < byteCount) :
    decode data = .error .malformedRequest :=
  if_pos h

theorem decode_of_long {data : List UInt8} (h : byteCount ≤ data.length) :
    decode data = .ok (UInt32.ofNat (LittleEndian.value (data.take byteCount))) :=
  if_neg (Nat.not_lt.mpr h)

/-- A rate read back is the rate without its top byte. -/
theorem decode_encode (rate : UInt32) :
    decode (encode rate) = .ok (UInt32.ofNat (rate.toNat % Word.bound 24)) := by
  have hlen : byteCount ≤ (encode rate).length := by simp
  rw [decode_of_long hlen, List.take_of_length_le (by simp), encode, LittleEndian.value_digits]
  rfl

/-- A rate that was read is written as the bytes that it was read from. -/
theorem encode_decode {data : List UInt8} {rate : UInt32} (h : decode data = .ok rate) :
    encode rate = data.take byteCount := by
  by_cases hlen : data.length < byteCount
  · rw [decode_of_short hlen] at h
    cases h
  · have hle : byteCount ≤ data.length := Nat.not_lt.mp hlen
    rw [decode_of_long hle] at h
    cases h
    have htake : (data.take byteCount).length = byteCount := by simp [hle]
    have hlt := LittleEndian.value_lt (data.take byteCount)
    rw [htake] at hlt
    have hval : (UInt32.ofNat (LittleEndian.value (data.take byteCount))).toNat
        = LittleEndian.value (data.take byteCount) := by
      rw [UInt32.toNat_ofNat']
      exact Nat.mod_eq_of_lt (Nat.lt_trans hlt (by decide))
    have hback := LittleEndian.digits_value (data.take byteCount)
    rw [htake] at hback
    rw [encode, hval, hback]

end PacedAudio.SamplingFrequency
