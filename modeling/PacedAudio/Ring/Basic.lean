/-
# PacedAudio.Ring.Basic — a byte ring with one writer and one reader

The writer appends packets at `head`, the reader takes bytes at `tail`. Both cursors run over
twice the capacity, so that a full ring differs from an empty one: the two cursors are a capacity
apart in the one and equal in the other.

A packet that does not fit empties the ring and is dropped itself. The writer may not move the
reader's cursor, so it publishes a *marker*: a sequence number of sixteen bits and the position
that everything buffered is discarded up to. The reader moves its cursor there before it next
reads, and acknowledges the sequence number. As long as the acknowledged number differs from the
published one, the marker counts as the place to read from. A marker is told from the acknowledged
one by its sequence number alone, so markers are told apart as long as fewer than 65536 of them go
unread in a row.
-/

import PacedAudio.Fault
import PacedAudio.Format
import PacedAudio.LittleEndian
import PacedAudio.Ring.Storage

namespace PacedAudio

/-- What became of a packet. -/
inductive Outcome where
  /-- It was appended. -/
  | stored
  /-- It did not fit; the ring was emptied and the packet dropped. -/
  | overrun
  /-- There is no stream that it could belong to; nothing happened. -/
  | dropped
deriving DecidableEq, Repr

/-- A frame for the transmitter. -/
inductive Frame where
  /-- It was read from the ring. -/
  | fresh (value : UInt32)
  /-- The ring was dry and the frame before is played again. -/
  | again (value : UInt32)
deriving DecidableEq, Repr

/-- What is played, wherever it came from. -/
def Frame.value : Frame → UInt32
  | .fresh value => value
  | .again value => value

/-- The writer's request to discard everything before a position. -/
structure Marker where
  sequence : UInt16
  position : Nat
deriving DecidableEq, Repr

/-- A ring with `n` bytes of storage, of which the first `capacity` are in use. -/
structure Ring (n : Nat) where
  storage : Storage n
  capacity : Nat
  /-- Where the writer appends. -/
  head : Nat
  /-- Where the reader takes from, unless a marker is pending. -/
  tail : Nat
  /-- The latest marker. -/
  marker : Marker
  /-- The sequence number of the last marker that the reader has followed. -/
  acknowledged : UInt16
  /-- The last fresh frame. -/
  lastFrame : UInt32
  /-- Packets that did not fit. -/
  overruns : UInt32
  /-- Frames that were played again. -/
  underruns : UInt32
  capacity_pos : 0 < capacity
  capacity_le : capacity ≤ n
  head_lt : head < 2 * capacity
  tail_lt : tail < 2 * capacity
  marker_lt : marker.position < 2 * capacity

namespace Ring

variable {n : Nat}

/-! ## Making a ring -/

/-- An empty ring that uses all of its storage. -/
def empty (n : Nat) (h : 0 < n) : Ring n where
  storage := Storage.blank n
  capacity := n
  head := 0
  tail := 0
  marker := ⟨0, 0⟩
  acknowledged := 0
  lastFrame := 0
  overruns := 0
  underruns := 0
  capacity_pos := h
  capacity_le := Nat.le_refl n
  head_lt := by omega
  tail_lt := by omega
  marker_lt := by simp only; omega

/-- An empty ring, if there is a byte of storage and its cursors fit a marker's sixteen bits. -/
def create (n : Nat) : Checked (Ring n) :=
  if h : 0 < n then
    if 2 * n < Word.bound 16 then .ok (empty n h) else .error .cursorsTooWide
  else .error .noStorage

theorem create_eq {n : Nat} (h : 0 < n) (hn : 2 * n < Word.bound 16) : create n = .ok (empty n h) := by
  rw [create, dif_pos h, if_pos hn]

/-- Empties the ring and gives it a new capacity, at least one byte and at most its storage.
Storage is not cleared, and the counters keep running. -/
def resize (r : Ring n) (capacity : Nat) : Ring n where
  storage := r.storage
  capacity := max 1 (min capacity n)
  head := 0
  tail := 0
  marker := ⟨0, 0⟩
  acknowledged := 0
  lastFrame := 0
  overruns := r.overruns
  underruns := r.underruns
  capacity_pos := by omega
  capacity_le := by
    have hpos := r.capacity_pos
    have hle := r.capacity_le
    omega
  head_lt := by omega
  tail_lt := by omega
  marker_lt := by simp only; omega

/-! ## Cursors -/

/-- How far cursor `target` is ahead of `source`, in a circle of twice the capacity. -/
def gap (r : Ring n) (source target : Nat) : Nat :=
  (target + 2 * r.capacity - source) % (2 * r.capacity)

/-- The cursor `count` bytes further on. -/
def forward (r : Ring n) (cursor count : Nat) : Nat := (cursor + count) % (2 * r.capacity)

theorem forward_lt (r : Ring n) (cursor count : Nat) : r.forward cursor count < 2 * r.capacity :=
  Nat.mod_lt _ (Nat.mul_pos (by decide) r.capacity_pos)

/-- Whether the reader has yet to follow the latest marker. -/
def pending (r : Ring n) : Bool := r.acknowledged != r.marker.sequence

/-- Where the next byte is read: at a pending marker, else at the reader's own cursor. -/
def front (r : Ring n) : Nat := if r.pending then r.marker.position else r.tail

/-- Bytes that wait to be read. -/
def fill (r : Ring n) : Nat := r.gap r.front r.head

/-- Bytes that can be appended. -/
def room (r : Ring n) : Checked Nat := Word.sub r.capacity r.fill

/-- Whether nothing waits to be read. -/
def isEmpty (r : Ring n) : Bool := r.fill == 0

/-! ## The writer -/

/-- Discards everything that waits, by a new marker at `head`. -/
def flush (r : Ring n) : Ring n :=
  { r with
    marker := ⟨r.marker.sequence + 1, r.head⟩
    marker_lt := r.head_lt }

/-- Appends a packet. If it does not fit, everything that waits is discarded, the overrun is counted
and the packet dropped. An overrun is reported with the total so far, which has to fit the counter's
32 bits. -/
def push (r : Ring n) (bytes : List UInt8) : Checked Outcome × Ring n :=
  if r.capacity < r.fill + bytes.length then
    ((Word.add 32 r.overruns.toNat 1).map fun _ => .overrun,
      { r.flush with overruns := r.overruns + 1 })
  else
    let head := r.forward r.head bytes.length
    (.ok .stored,
      { r with
        storage := Storage.storeAround r.storage r.capacity r.head bytes
        head := head
        head_lt := r.forward_lt _ _ })

/-! ## The reader -/

/-- Follows a pending marker and acknowledges it. -/
def follow (r : Ring n) : Ring n :=
  if r.pending then
    { r with
      tail := r.marker.position
      acknowledged := r.marker.sequence
      tail_lt := r.marker_lt }
  else r

/-- Takes `count` bytes, or none if fewer wait. A pending marker is followed in either case. -/
def take (r : Ring n) (count : Nat) : Option (List UInt8) × Ring n :=
  let current := r.follow
  if current.gap current.tail current.head < count then (none, current)
  else
    (some (Storage.loadAround current.storage current.capacity current.tail count),
      { current with
        tail := current.forward current.tail count
        tail_lt := current.forward_lt _ _ })

/-- Fills a buffer, and answers whether it could. If fewer bytes wait than the buffer holds, the
buffer stays as it is. -/
def fillBuffer (r : Ring n) (buffer : List UInt8) : Bool × List UInt8 × Ring n :=
  match r.take buffer.length with
  | (some bytes, rest) => (true, bytes, rest)
  | (none, rest) => (false, buffer, rest)

/-- Takes a frame; a dry ring gives the last fresh frame again and counts an underrun. -/
def takeFrame (r : Ring n) : Frame × Ring n :=
  match r.take playedFrameBytes with
  | (some bytes, rest) =>
    let value := UInt32.ofNat (LittleEndian.value bytes)
    (.fresh value, { rest with lastFrame := value })
  | (none, rest) => (.again rest.lastFrame, { rest with underruns := rest.underruns + 1 })

end Ring

end PacedAudio
