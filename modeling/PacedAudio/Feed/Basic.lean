/-
# PacedAudio.Feed.Basic — topping up the transmitter's queue

A *feed* is what the two interrupts share: the ring between them and the *pacer*, which remembers
the speed that the divider is set to. The transmit interrupt tops up the transmitter's queue from
the ring and then looks at the fill to decide on the speed.

While it waits for the transmitter, the receive interrupt may run and change the ring under it. So
each call on the transmitter is given to a `Reaction`, which says what happens during the call: to
the feed, and to whatever else the caller keeps track of. The refill goes on with what the
reaction leaves.
-/

import PacedAudio.Ring.Basic
import PacedAudio.Transmitter

namespace PacedAudio

/-- The speed in force, and how often it has changed. -/
structure Pacer where
  speed : Speed
  speedUps : UInt32
  slowDowns : UInt32
deriving DecidableEq, Repr

namespace Pacer

/-- The nominal speed, never changed. -/
def initial : Pacer := ⟨.nominal, 0, 0⟩

/-- Back to the nominal speed; this is not counted as a change. -/
def reset (p : Pacer) : Pacer := { p with speed := .nominal }

/-- Counts a change. The counters run modulo 2^32. -/
def count (p : Pacer) : SpeedChange → Pacer
  | .hold => p
  | .speedUp => { p with speedUps := p.speedUps + 1 }
  | .slowDown => { p with slowDowns := p.slowDowns + 1 }

end Pacer

/-- The ring and the pacer. -/
structure Feed (n : Nat) where
  ring : Ring n
  pacer : Pacer

/-- What happens during a call on the transmitter, to the feed and to a caller's own record. -/
abbrev Reaction (n : Nat) (σ : Type) := Transmitter.Call → Feed n × σ → Feed n × σ

namespace Feed

variable {n : Nat} {σ : Type}

/-- An empty feed. -/
def empty (n : Nat) (h : 0 < n) : Feed n := ⟨Ring.empty n h, Pacer.initial⟩

/-- An empty feed, if its ring can be made. -/
def create (n : Nat) : Checked (Feed n) :=
  (Ring.create n).map fun ring => ⟨ring, Pacer.initial⟩

theorem create_eq {n : Nat} (h : 0 < n) (hn : 2 * n < Word.bound 16) : create n = .ok (empty n h) := by
  rw [create, Ring.create_eq h hn]
  rfl

/-- Empties the ring, gives it a new capacity and returns to the nominal speed. -/
def restart (f : Feed n) (capacity : Nat) : Feed n := ⟨f.ring.resize capacity, f.pacer.reset⟩

/-- Appends a packet to the ring. -/
def push (f : Feed n) (bytes : List UInt8) : Checked Outcome × Feed n :=
  let (outcome, ring) := f.ring.push bytes
  (outcome, { f with ring := ring })

/-- Discards what waits in the ring. -/
def flush (f : Feed n) : Feed n := { f with ring := f.ring.flush }

/-- Takes a frame from the ring. -/
def takeFrame (f : Feed n) : Frame × Feed n :=
  let (frame, ring) := f.ring.takeFrame
  (frame, { f with ring := ring })

/-! ## The transmit interrupt -/

/-- Queues `count` frames, one after the other. -/
def sendFrames (react : Reaction n σ) : Nat → Feed n × σ → Feed n × σ
  | 0, state => state
  | count + 1, (feed, record) =>
    let (frame, rest) := feed.takeFrame
    sendFrames react count (react (.send frame.value) (rest, record))

/-- Compares the fill with the marks and changes the speed if they ask for it: the change is
counted, the divider is programmed, and then the new speed is in force. -/
def adjust (react : Reaction n σ) (divider : Divider) (marks : Watermarks) :
    Feed n × σ → Feed n × σ
  | (feed, record) =>
    let (speed, change) := marks.next feed.pacer.speed feed.ring.fill
    if change = .hold then (feed, record)
    else
      let counted := { feed with pacer := feed.pacer.count change }
      let (after, record) :=
        react (.program divider.prescaler (divider.ratio speed)) (counted, record)
      ({ after with pacer := { after.pacer with speed := speed } }, record)

/-- Serves a transmit interrupt, with `level` frames queued: tops up the queue, adjusts the speed,
and answers how many frames were queued. A queue above the refill level is left alone. -/
def refill (react : Reaction n σ) (level : Nat) (divider : Divider) (marks : Watermarks)
    (state : Feed n × σ) : Nat × (Feed n × σ) :=
  let asked := react .queued state
  if Transmitter.refillLevel < level then (0, asked)
  else
    let slots := Transmitter.queueDepth - level
    (slots, adjust react divider marks (sendFrames react slots asked))

/-! ## The two courses of a refill -/

/-- A queue above the refill level is asked for its level and left alone. -/
theorem refill_of_lt (react : Reaction n σ) {level : Nat} (h : Transmitter.refillLevel < level)
    (divider : Divider) (marks : Watermarks) (state : Feed n × σ) :
    refill react level divider marks state = (0, react .queued state) := by
  rw [refill, if_pos h]

/-- Any other queue is filled up. -/
theorem refill_of_le (react : Reaction n σ) {level : Nat} (h : level ≤ Transmitter.refillLevel)
    (divider : Divider) (marks : Watermarks) (state : Feed n × σ) :
    refill react level divider marks state
      = (Transmitter.queueDepth - level,
          adjust react divider marks
            (sendFrames react (Transmitter.queueDepth - level) (react .queued state))) := by
  rw [refill, if_neg (Nat.not_lt.mpr h)]

/-- A fill that asks for no change makes no call. -/
theorem adjust_of_hold (react : Reaction n σ) (divider : Divider) {marks : Watermarks}
    {feed : Feed n} (h : (marks.next feed.pacer.speed feed.ring.fill).2 = .hold) (record : σ) :
    adjust react divider marks (feed, record) = (feed, record) := by
  simp only [adjust, if_pos h]

end Feed

end PacedAudio
