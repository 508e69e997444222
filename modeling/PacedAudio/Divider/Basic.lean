/-
# PacedAudio.Divider.Basic — how the transmitter derives its clock

The peripheral clock passes a fractional divider, which multiplies it by a ratio of two bytes, and
then a prescaler, which divides it by a number of stages. What comes out is the master clock, a
fixed number of cycles per frame. A `Divider` holds the prescaler and one ratio per speed.
-/

import PacedAudio.Format
import PacedAudio.Speed

namespace PacedAudio

/-- A setting of the fractional divider. -/
structure Ratio where
  numerator : UInt8
  denominator : UInt8
deriving DecidableEq, Repr

/-- The divider settings of one sample rate. -/
structure Divider where
  /-- The register value, one less than the number of stages. -/
  prescaler : UInt8
  /-- The ratio rounded down, for the nominal speed. -/
  nominal : Ratio
  /-- The ratio rounded up, for the fast speed. -/
  fast : Ratio
deriving DecidableEq, Repr

namespace Divider

/-- The number that the prescaler divides by. -/
def stages (d : Divider) : Nat := d.prescaler.toNat + 1

/-- The ratio of a speed. -/
def ratio (d : Divider) : Speed → Ratio
  | .nominal => d.nominal
  | .fast => d.fast

/-- The sample rate, in thousandths of a hertz and rounded down, that a divider produces from a
peripheral clock. A divisor of zero produces no clock, hence a rate of zero. -/
def millihertz (d : Divider) (clock : UInt32) (format : PcmFormat) (speed : Speed) : Nat :=
  clock.toNat * (d.ratio speed).numerator.toNat * 1000 /
    ((d.ratio speed).denominator.toNat * d.stages * format.clocksPerFrame)

theorem stages_pos (d : Divider) : 0 < d.stages := Nat.succ_pos _

end Divider

end PacedAudio
