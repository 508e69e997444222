/-
# PacedAudio.Session.Round — a packet and the interrupts until the next one

Host and transmitter run on clocks of their own. A *round* is a packet and the transmit interrupts
that come before the next packet, each of which finds the queue empty. The interrupts of a round
take more bytes than its packet brings, or fewer; this is the drift between the two clocks. A
speed absorbs the drift of a round if it moves the fill the way that the speed is there for: at
the nominal speed the fill does not sink, and at the fast one it does not rise, and does not sink
by more than waits when playback is fast (`Round.Absorbed`).
-/

import PacedAudio.Session.Operation

namespace PacedAudio

/-- A packet, and how many transmit interrupts come until the next one. -/
structure Round where
  packet : List UInt8
  interrupts : Nat
deriving DecidableEq, Repr

namespace Round

/-- Bytes that an interrupt takes which finds the queue empty. -/
def bytesPerInterrupt : Nat := playedFrameBytes * Transmitter.queueDepth

/-- Bytes that the interrupts of a round take. -/
def drain (round : Round) : Nat := bytesPerInterrupt * round.interrupts

/-- The operations of a round; nothing comes in the middle of an interrupt. -/
def operations (round : Round) : List Session.Operation :=
  .arrive (.packet round.packet) :: List.replicate round.interrupts (.transmit 0 [])

/-- A round of whole frames, no more than `largest` bytes of them, whose drift the speed at its
start absorbs. -/
structure Absorbed (round : Round) (speed : Speed) (low largest : Nat) : Prop where
  aligned : playedFrameBytes ∣ round.packet.length
  le_largest : round.packet.length ≤ largest
  interrupts_pos : 1 ≤ round.interrupts
  nominal : speed = .nominal → round.drain ≤ round.packet.length
  fast : speed = .fast →
    round.packet.length ≤ round.drain ∧ round.drain ≤ low + round.packet.length

instance (round : Round) (speed : Speed) (low largest : Nat) :
    Decidable (round.Absorbed speed low largest) :=
  decidable_of_iff
    (playedFrameBytes ∣ round.packet.length ∧ round.packet.length ≤ largest
      ∧ 1 ≤ round.interrupts ∧ (speed = .nominal → round.drain ≤ round.packet.length)
      ∧ (speed = .fast →
        round.packet.length ≤ round.drain ∧ round.drain ≤ low + round.packet.length))
    ⟨fun ⟨haligned, hle, hpos, hnominal, hfast⟩ => ⟨haligned, hle, hpos, hnominal, hfast⟩,
      fun h => ⟨h.aligned, h.le_largest, h.interrupts_pos, h.nominal, h.fast⟩⟩

end Round

namespace Session

variable {n : Nat}

/-- The session absorbs the drift of rounds one after the other, each at the speed that it has at
the start of the round. -/
def Absorbs (low largest : Nat) : Session n → List Round → Prop
  | _, [] => True
  | s, round :: rest =>
    round.Absorbed s.feed.pacer.speed low largest
      ∧ Absorbs low largest (s.after round.operations) rest

instance decidableAbsorbs (low largest : Nat) :
    (s : Session n) → (rounds : List Round) → Decidable (Absorbs low largest s rounds)
  | _, [] => .isTrue trivial
  | s, round :: rest =>
    have := decidableAbsorbs low largest (s.after round.operations) rest
    inferInstanceAs (Decidable (_ ∧ _))

end Session

end PacedAudio
