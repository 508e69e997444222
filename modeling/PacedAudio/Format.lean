/-
# PacedAudio.Format — the layout of a PCM stream

A frame holds one sample word per channel. Two sizes follow from the layout: the bytes a frame
takes in the ring, and the cycles of the master clock that it takes to shift a frame out.
-/

namespace PacedAudio

/-- Channels of a stream and bits of one sample word. -/
structure PcmFormat where
  channels : UInt8
  width : UInt8
deriving DecidableEq, Repr

/-- Bytes of a frame in the ring and in the transmitter's queue. -/
def playedFrameBytes : Nat := 4

namespace PcmFormat

/-- Two channels of sixteen bits, the layout that a frame of the transmit queue has. -/
def stereo16 : PcmFormat := ⟨2, 16⟩

/-- Bytes of a frame; bits short of a whole byte are not counted. -/
def bytesPerFrame (f : PcmFormat) : Nat := f.channels.toNat * f.width.toNat / 8

/-- Cycles of the master clock per frame, two for each bit. -/
def clocksPerFrame (f : PcmFormat) : Nat := f.channels.toNat * f.width.toNat * 2

theorem clocksPerFrame_le (f : PcmFormat) : f.clocksPerFrame ≤ 255 * 255 * 2 := by
  have hc := f.channels.toNat_lt
  have hw := f.width.toNat_lt
  have h : f.channels.toNat * f.width.toNat ≤ 255 * 255 := Nat.mul_le_mul (by omega) (by omega)
  unfold clocksPerFrame
  omega

theorem bytesPerFrame_stereo16 : stereo16.bytesPerFrame = playedFrameBytes := rfl

end PcmFormat

end PacedAudio
