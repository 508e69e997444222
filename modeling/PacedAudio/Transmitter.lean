/-
# PacedAudio.Transmitter — the frame transmitter and what it is asked to do

The transmitter shifts frames out of a short queue, on a clock that its divider makes. When the
queue has run down to its refill level it interrupts, and the interrupt tops the queue up.
-/

import PacedAudio.Divider.Basic

namespace PacedAudio.Transmitter

/-- Frames that the queue holds. -/
def queueDepth : Nat := 8

/-- The number of queued frames at or below which the transmitter interrupts. -/
def refillLevel : Nat := 4

/-- What the transmitter can be asked to do. -/
inductive Call where
  /-- Tell how many frames are queued. -/
  | queued
  /-- Queue a frame. -/
  | send (frame : UInt32)
  /-- Set the prescaler and the fractional divider. -/
  | program (prescaler : UInt8) (ratio : Ratio)
  /-- Start transmission and its interrupt. -/
  | start
  /-- Stop transmission and its interrupt. -/
  | stop
deriving DecidableEq, Repr

end PacedAudio.Transmitter
