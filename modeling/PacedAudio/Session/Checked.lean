/-
# PacedAudio.Session.Checked — the interrupts' arithmetic in machine words

What an interrupt does to a session, with every step of its arithmetic checked: the operations of
`Feed` and `Session`, made from those of the ring in `Ring.Checked`. Stream boundaries have no
arithmetic to check. The number of frames to queue is a difference that ends at zero.

In a session whose ring can be made, none of the steps is out of range, whatever has happened to the
session and whatever happens while an interrupt waits for the transmitter (`receive?_eq`,
`transmit?_eq`, `status?_eq`).
-/

import PacedAudio.Ring.Checked
import PacedAudio.Session.Basic

namespace PacedAudio

variable {n : Nat} {σ : Type}

/-! ## Feeds -/

namespace Feed

/-- Takes a frame from the ring. -/
def takeFrame? (f : Feed n) : Checked (Frame × Feed n) := do
  let (frame, ring) ← f.ring.takeFrame?
  pure (frame, { f with ring := ring })

/-- Queues `count` frames, one after the other. -/
def sendFrames? (react : Reaction n σ) : Nat → Feed n × σ → Checked (Feed n × σ)
  | 0, state => pure state
  | count + 1, (feed, record) => do
    let (frame, rest) ← feed.takeFrame?
    sendFrames? react count (react (.send frame.value) (rest, record))

/-- Compares the fill with the marks and changes the speed if they ask for it. -/
def adjust? (react : Reaction n σ) (divider : Divider) (marks : Watermarks) :
    Feed n × σ → Checked (Feed n × σ)
  | (feed, record) => do
    let fill ← feed.ring.fill?
    let (speed, change) := marks.next feed.pacer.speed fill
    if change = .hold then pure (feed, record)
    else
      let counted := { feed with pacer := feed.pacer.count change }
      let (after, record) :=
        react (.program divider.prescaler (divider.ratio speed)) (counted, record)
      pure ({ after with pacer := { after.pacer with speed := speed } }, record)

/-- Serves a transmit interrupt, with `level` frames queued. -/
def refill? (react : Reaction n σ) (level : Nat) (divider : Divider) (marks : Watermarks)
    (state : Feed n × σ) : Checked (Nat × (Feed n × σ)) := do
  let asked := react .queued state
  if Transmitter.refillLevel < level then pure (0, asked)
  else
    let slots := Transmitter.queueDepth - level
    let sent ← sendFrames? react slots asked
    let adjusted ← adjust? react divider marks sent
    pure (slots, adjusted)

section

variable (hn : 2 * n < Word.bound 16) (react : Reaction n σ)

include hn

theorem takeFrame?_eq (f : Feed n) : f.takeFrame? = .ok f.takeFrame := by
  simp only [takeFrame?, f.ring.takeFrame?_eq hn, Checked.ok_bind]
  rfl

/-- The reaction may leave any feed, so the induction is for all of them. -/
theorem sendFrames?_eq (count : Nat) (state : Feed n × σ) :
    sendFrames? react count state = .ok (sendFrames react count state) := by
  induction count generalizing state with
  | zero => rfl
  | succ count ih =>
    obtain ⟨feed, record⟩ := state
    simp only [sendFrames?, takeFrame?_eq hn feed, Checked.ok_bind]
    exact ih _

theorem adjust?_eq (divider : Divider) (marks : Watermarks) (state : Feed n × σ) :
    adjust? react divider marks state = .ok (adjust react divider marks state) := by
  obtain ⟨feed, record⟩ := state
  simp only [adjust?, feed.ring.fill?_eq hn, Checked.ok_bind, adjust]
  split
  · rfl
  · rfl

theorem refill?_eq (level : Nat) (divider : Divider) (marks : Watermarks) (state : Feed n × σ) :
    refill? react level divider marks state = .ok (refill react level divider marks state) := by
  rw [refill?, refill]
  split
  · rfl
  · simp only [sendFrames?_eq hn, adjust?_eq hn, Checked.ok_bind]
    rfl

end

end Feed

/-! ## Sessions -/

namespace Session

/-- A packet from the host; without a stream it is dropped. -/
def receive? (s : Session n) (packet : List UInt8) : Checked (Checked Outcome × Session n) :=
  match s.stream with
  | none => pure (.ok .dropped, s)
  | some _ => do
    let (outcome, ring) ← s.feed.ring.push? packet
    pure (outcome, { s with feed := { s.feed with ring := ring } })

/-- A transmit interrupt with `level` frames queued; without a stream nothing happens. -/
def transmit? (react : Reaction n σ) (level : Nat) (s : Session n) (record : σ) :
    Checked (Nat × Session n × σ) :=
  match s.stream with
  | none => pure (0, s, record)
  | some stream => do
    let (frames, feed, record) ←
      Feed.refill? react level stream.divider stream.marks (s.feed, record)
    pure (frames, { s with feed := feed }, record)

/-- The counters and the state of the playback path. -/
def status? (s : Session n) : Checked Status := do
  let fill ← s.feed.ring.fill?
  pure
    { overruns := s.feed.ring.overruns
      underruns := s.feed.ring.underruns
      speedUps := s.feed.pacer.speedUps
      slowDowns := s.feed.pacer.slowDowns
      fill := fill
      speed := s.feed.pacer.speed }

section

variable (s : Session n) (hn : 2 * n < Word.bound 16)

include hn

theorem receive?_eq {packet : List UInt8} (hpacket : packet.length < Word.bound 63) :
    s.receive? packet = .ok (s.receive packet) := by
  rw [receive?, receive]
  cases s.stream with
  | none => rfl
  | some stream =>
    simp only [s.feed.ring.push?_eq hn hpacket, Checked.ok_bind]
    rfl

theorem transmit?_eq (react : Reaction n σ) (level : Nat) (record : σ) :
    s.transmit? react level record = .ok (s.transmit react level record) := by
  rw [transmit?, transmit]
  cases s.stream with
  | none => rfl
  | some stream =>
    simp only [Feed.refill?_eq hn, Checked.ok_bind]
    rfl

theorem status?_eq : s.status? = .ok s.status := by
  simp only [status?, s.feed.ring.fill?_eq hn, Checked.ok_bind]
  rfl

end

end Session

end PacedAudio
