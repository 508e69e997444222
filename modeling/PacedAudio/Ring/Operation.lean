/-
# PacedAudio.Ring.Operation — the operations of a ring as data

What writer, reader and owner can ask of a ring, and the answers they get. A sequence of them is
performed with `run`. Between two operations a ring can be read without changing it; `Gauge` is
everything that such a reading shows.

Operations and answers together say which bytes went in (`stored`), which came out (`drained`) and
when the writer emptied the ring (`discards`).
-/

import PacedAudio.Ring.Basic
import PacedAudio.Run

namespace PacedAudio.Ring

/-- What can be asked of a ring. -/
inductive Operation where
  /-- Append a packet. -/
  | push (bytes : List UInt8)
  /-- Discard what waits. -/
  | flush
  /-- Fill a buffer. -/
  | fillBuffer (buffer : List UInt8)
  /-- Take a frame. -/
  | takeFrame
  /-- Empty the ring and change its capacity. -/
  | resize (capacity : Nat)
deriving DecidableEq, Repr

/-- What a ring answers. -/
inductive Answer where
  /-- What became of a packet. -/
  | pushed (outcome : Checked Outcome)
  /-- What waited is discarded. -/
  | flushed
  /-- Whether there were enough bytes, and the buffer as it is afterwards. -/
  | filled (complete : Bool) (buffer : List UInt8)
  /-- The frame to play. -/
  | frame (frame : Frame)
  /-- The ring is empty. -/
  | resized

/-- What can be read off a ring between two operations. -/
structure Gauge where
  capacity : Nat
  /-- Bytes that wait to be read. -/
  fill : Nat
  /-- Bytes that can be appended. -/
  room : Checked Nat
  isEmpty : Bool
  overruns : Nat
  underruns : Nat

variable {n : Nat}

/-- Performs an operation. -/
def perform (r : Ring n) : Operation → Answer × Ring n
  | .push bytes =>
    let (outcome, rest) := r.push bytes
    (.pushed outcome, rest)
  | .flush => (.flushed, r.flush)
  | .fillBuffer buffer =>
    let (complete, buffer, rest) := r.fillBuffer buffer
    (.filled complete buffer, rest)
  | .takeFrame =>
    let (frame, rest) := r.takeFrame
    (.frame frame, rest)
  | .resize capacity => (.resized, r.resize capacity)

/-- Reads a ring. -/
def gauge (r : Ring n) : Gauge where
  capacity := r.capacity
  fill := r.fill
  room := r.room
  isEmpty := r.isEmpty
  overruns := r.overruns.toNat
  underruns := r.underruns.toNat

/-- The answers to a sequence of operations. -/
def answers (r : Ring n) (operations : List Operation) : List Answer :=
  (run perform r operations).1

/-- The ring after a sequence of operations. -/
def after (r : Ring n) (operations : List Operation) : Ring n := (run perform r operations).2

/-! ## What went in and what came out -/

/-- The bytes that an operation has put into the ring, by its answer. -/
def Operation.stored : Operation → Answer → List UInt8
  | .push bytes, .pushed (.ok .stored) => bytes
  | _, _ => []

/-- Whether a packet did not fit. -/
def Answer.overran : Answer → Bool
  | .pushed (.ok .stored) => false
  | .pushed _ => true
  | _ => false

/-- Whether an operation has emptied the ring for its writer, by its answer. -/
def Operation.discards : Operation → Answer → Bool
  | .flush, _ => true
  | .push _, answer => answer.overran
  | _, _ => false

/-- The bytes that an answer has brought out of the ring. A frame that is played again is not
among them. -/
def Answer.drained : Answer → List UInt8
  | .filled true bytes => bytes
  | .frame (.fresh value) => LittleEndian.digits playedFrameBytes value.toNat
  | _ => []

/-- All bytes that a sequence of operations puts into the ring, in order. -/
def stored (r : Ring n) (operations : List Operation) : List UInt8 :=
  (operations.zip (r.answers operations)).flatMap fun step => step.1.stored step.2

/-- All bytes that a sequence of operations brings out of the ring, in order. -/
def drained (r : Ring n) (operations : List Operation) : List UInt8 :=
  (r.answers operations).flatMap Answer.drained

/-- A fresh frame brings out the bytes that it was read from. -/
theorem Answer.drained_fresh {bytes : List UInt8} (h : bytes.length = playedFrameBytes) :
    (Answer.frame (.fresh (UInt32.ofNat (LittleEndian.value bytes)))).drained = bytes := by
  have hlt := LittleEndian.value_lt bytes
  rw [h] at hlt
  have hvalue : (UInt32.ofNat (LittleEndian.value bytes)).toNat = LittleEndian.value bytes := by
    rw [UInt32.toNat_ofNat']
    exact Nat.mod_eq_of_lt hlt
  rw [drained, hvalue, ← h]
  exact LittleEndian.digits_value bytes

@[simp] theorem answers_nil (r : Ring n) : r.answers [] = [] := rfl

@[simp] theorem answers_cons (r : Ring n) (operation : Operation) (rest : List Operation) :
    r.answers (operation :: rest)
      = (r.perform operation).1 :: (r.perform operation).2.answers rest :=
  rfl

@[simp] theorem after_nil (r : Ring n) : r.after [] = r := rfl

@[simp] theorem after_cons (r : Ring n) (operation : Operation) (rest : List Operation) :
    r.after (operation :: rest) = (r.perform operation).2.after rest :=
  rfl

@[simp] theorem stored_cons (r : Ring n) (operation : Operation) (rest : List Operation) :
    r.stored (operation :: rest)
      = operation.stored (r.perform operation).1 ++ (r.perform operation).2.stored rest :=
  rfl

@[simp] theorem drained_cons (r : Ring n) (operation : Operation) (rest : List Operation) :
    r.drained (operation :: rest)
      = (r.perform operation).1.drained ++ (r.perform operation).2.drained rest :=
  rfl

theorem after_append (r : Ring n) (first second : List Operation) :
    r.after (first ++ second) = (r.after first).after second := by
  simp only [after, run_append]

end PacedAudio.Ring
