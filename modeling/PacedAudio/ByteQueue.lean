/-
# PacedAudio.ByteQueue — a bounded queue of bytes

The queue says what a ring is for, without cursors, markers and storage: a list of bytes that is
never longer than its capacity. A packet that does not fit empties it. The queue also remembers
the last frame that was read, how many packets did not fit and how many frames it could not
supply.
-/

import PacedAudio.Ring.Operation

namespace PacedAudio

/-- A queue of bytes. -/
structure ByteQueue where
  /-- The most bytes that the capacity can be set to. -/
  limit : Nat
  capacity : Nat
  bytes : List UInt8
  lastFrame : UInt32
  /-- Packets that did not fit. -/
  overruns : Nat
  /-- Frames that were not there. -/
  underruns : Nat
deriving DecidableEq, Repr

namespace ByteQueue

/-- An empty queue of the largest capacity. -/
def empty (limit : Nat) : ByteQueue := ⟨limit, limit, [], 0, 0, 0⟩

/-- Empties the queue and sets its capacity, at least one and at most the limit. -/
def resize (q : ByteQueue) (capacity : Nat) : ByteQueue :=
  { q with capacity := max 1 (min capacity q.limit), bytes := [], lastFrame := 0 }

/-- Empties the queue for its writer. -/
def flush (q : ByteQueue) : ByteQueue := { q with bytes := [] }

/-- Appends a packet that fits, and empties the queue on one that does not. -/
def push (q : ByteQueue) (packet : List UInt8) : Outcome × ByteQueue :=
  if q.bytes.length + packet.length ≤ q.capacity then
    (.stored, { q with bytes := q.bytes ++ packet })
  else (.overrun, { q.flush with overruns := q.overruns + 1 })

/-- Takes the first `count` bytes, if there are as many. -/
def take (q : ByteQueue) (count : Nat) : Option (List UInt8) × ByteQueue :=
  if count ≤ q.bytes.length then
    (some (q.bytes.take count), { q with bytes := q.bytes.drop count })
  else (none, q)

/-- Fills a buffer, or leaves it as it is. -/
def fillBuffer (q : ByteQueue) (buffer : List UInt8) : Bool × List UInt8 × ByteQueue :=
  match q.take buffer.length with
  | (some bytes, rest) => (true, bytes, rest)
  | (none, rest) => (false, buffer, rest)

/-- Takes a frame, or gives the last one again. -/
def takeFrame (q : ByteQueue) : Frame × ByteQueue :=
  match q.take playedFrameBytes with
  | (some bytes, rest) =>
    let value := UInt32.ofNat (LittleEndian.value bytes)
    (.fresh value, { rest with lastFrame := value })
  | (none, rest) => (.again rest.lastFrame, { rest with underruns := rest.underruns + 1 })

/-- Performs an operation. -/
def perform (q : ByteQueue) : Ring.Operation → Ring.Answer × ByteQueue
  | .push bytes =>
    let (outcome, rest) := q.push bytes
    (.pushed (.ok outcome), rest)
  | .flush => (.flushed, q.flush)
  | .fillBuffer buffer =>
    let (complete, buffer, rest) := q.fillBuffer buffer
    (.filled complete buffer, rest)
  | .takeFrame =>
    let (frame, rest) := q.takeFrame
    (.frame frame, rest)
  | .resize capacity => (.resized, q.resize capacity)

/-- Reads the queue. Underruns are shown modulo 2^32. -/
def gauge (q : ByteQueue) : Ring.Gauge where
  capacity := q.capacity
  fill := q.bytes.length
  room := .ok (q.capacity - q.bytes.length)
  isEmpty := q.bytes.isEmpty
  overruns := q.overruns
  underruns := q.underruns % Word.bound 32

/-- The answers to a sequence of operations. -/
def answers (q : ByteQueue) (operations : List Ring.Operation) : List Ring.Answer :=
  (run perform q operations).1

/-- The queue after a sequence of operations. -/
def after (q : ByteQueue) (operations : List Ring.Operation) : ByteQueue :=
  (run perform q operations).2

@[simp] theorem answers_nil (q : ByteQueue) : q.answers [] = [] := rfl

@[simp] theorem answers_cons (q : ByteQueue) (operation : Ring.Operation)
    (rest : List Ring.Operation) :
    q.answers (operation :: rest)
      = (q.perform operation).1 :: (q.perform operation).2.answers rest :=
  rfl

@[simp] theorem after_nil (q : ByteQueue) : q.after [] = q := rfl

@[simp] theorem after_cons (q : ByteQueue) (operation : Ring.Operation)
    (rest : List Ring.Operation) :
    q.after (operation :: rest) = (q.perform operation).2.after rest :=
  rfl

/-! ## The two outcomes of taking a frame -/

theorem takeFrame_of_le {q : ByteQueue} (h : playedFrameBytes ≤ q.bytes.length) :
    q.takeFrame
      = (.fresh (UInt32.ofNat (LittleEndian.value (q.bytes.take playedFrameBytes))),
          { q with
            bytes := q.bytes.drop playedFrameBytes
            lastFrame := UInt32.ofNat (LittleEndian.value (q.bytes.take playedFrameBytes)) }) := by
  rw [takeFrame, take, if_pos h]

theorem takeFrame_of_lt {q : ByteQueue} (h : q.bytes.length < playedFrameBytes) :
    q.takeFrame = (.again q.lastFrame, { q with underruns := q.underruns + 1 }) := by
  rw [takeFrame, take, if_neg (Nat.not_le.mpr h)]

/-! ## Reading leaves the overruns alone -/

theorem overruns_take (q : ByteQueue) (count : Nat) :
    (q.take count).2.overruns = q.overruns := by
  rw [take]
  split <;> rfl

theorem overruns_fillBuffer (q : ByteQueue) (buffer : List UInt8) :
    (q.fillBuffer buffer).2.2.overruns = q.overruns := by
  rw [fillBuffer, ← q.overruns_take buffer.length]
  rcases q.take buffer.length with ⟨_ | bytes, rest⟩ <;> rfl

theorem overruns_takeFrame (q : ByteQueue) : q.takeFrame.2.overruns = q.overruns := by
  rw [takeFrame, ← q.overruns_take playedFrameBytes]
  rcases q.take playedFrameBytes with ⟨_ | bytes, rest⟩ <;> rfl

/-! ## What comes out went in -/

theorem take_flow (q : ByteQueue) (count : Nat) :
    (q.take count).1.getD [] ++ (q.take count).2.bytes = q.bytes := by
  rw [take]
  split
  · exact List.take_append_drop count q.bytes
  · rfl

theorem length_take_fst {q : ByteQueue} {count : Nat} {bytes : List UInt8}
    (h : (q.take count).1 = some bytes) : bytes.length = count := by
  rw [take] at h
  split at h
  · next hle =>
    cases h
    exact List.length_take_of_le hle
  · cases h

/-- What an operation brings out, followed by what waits afterwards, is found in this order in
what waited before, followed by what the operation has put in. -/
theorem flow (q : ByteQueue) (operation : Ring.Operation) :
    ((q.perform operation).1.drained ++ (q.perform operation).2.bytes).Sublist
      (q.bytes ++ operation.stored (q.perform operation).1) := by
  cases operation with
  | push packet =>
    show (q.push packet).2.bytes.Sublist
      (q.bytes ++ (Ring.Operation.push packet).stored (.pushed (.ok (q.push packet).1)))
    rw [push]
    split
    · exact List.Sublist.refl _
    · exact List.nil_sublist _
  | flush => exact List.nil_sublist _
  | fillBuffer buffer =>
    have hflow := q.take_flow buffer.length
    show ((Ring.Answer.filled (q.fillBuffer buffer).1 (q.fillBuffer buffer).2.1).drained
      ++ (q.fillBuffer buffer).2.2.bytes).Sublist (q.bytes ++ [])
    rw [fillBuffer]
    revert hflow
    rcases q.take buffer.length with ⟨_ | bytes, rest⟩ <;>
    · intro hflow
      rw [← hflow, List.append_nil]
      exact List.Sublist.refl _
  | takeFrame =>
    have hflow := q.take_flow playedFrameBytes
    have hlength := @length_take_fst q playedFrameBytes
    show ((Ring.Answer.frame q.takeFrame.1).drained ++ q.takeFrame.2.bytes).Sublist (q.bytes ++ [])
    rw [takeFrame]
    revert hflow hlength
    rcases q.take playedFrameBytes with ⟨_ | bytes, rest⟩
    · intro hflow _
      rw [← hflow, List.append_nil]
      exact List.Sublist.refl _
    · intro hflow hlength
      rw [← hflow, List.append_nil, Ring.Answer.drained_fresh (hlength rfl)]
      exact List.Sublist.refl _
  | resize capacity => exact List.nil_sublist _

/-! ## The bound -/

/-- The queue holds no more than its capacity. -/
def Bounded (q : ByteQueue) : Prop := q.bytes.length ≤ q.capacity

theorem bounded_push (q : ByteQueue) (packet : List UInt8) : (q.push packet).2.Bounded := by
  unfold push
  split
  · next hfits => simpa [Bounded] using hfits
  · simp [Bounded, flush]

theorem bounded_take {q : ByteQueue} (h : q.Bounded) (count : Nat) : (q.take count).2.Bounded := by
  unfold Bounded at h
  unfold take
  split
  · simp only [Bounded, List.length_drop]
    omega
  · exact h

end ByteQueue

end PacedAudio
