/-
# PacedAudio.Ring.Checked — the ring's arithmetic in machine words

The operations of a ring compute with natural numbers, the machine with words of 64 bits: each sum,
product, difference and remainder on the way may be out of range there. `push?`, `take?` and
`takeFrame?` are the operations with every such step checked, in the order in which the machine
takes them. A step that is out of range stops the operation before the ring has changed.

None ever is: a ring whose cursors fit sixteen bits has room enough in a word for everything that is
computed from them (`push?_eq`, `take?_eq`, `takeFrame?_eq`). Only the total that an overrun is
reported with may be too much for its own 32 bits, as `push` has it.
-/

import PacedAudio.Ring.Contents

namespace PacedAudio

/-! ## Cursors -/

/-- The two stretches of a run, if the run's start and its parts can be computed. -/
def stretches? (capacity cursor length : Nat) : Checked (Stretch × Stretch) := do
  let start ← Word.rem cursor capacity
  let rest ← Word.sub capacity start
  let first := min length rest
  let second ← Word.sub length first
  pure (⟨start, first⟩, ⟨0, second⟩)

theorem stretches?_eq {capacity : Nat} (h : 0 < capacity) (cursor length : Nat) :
    stretches? capacity cursor length = .ok (stretches capacity cursor length) := by
  have hstart : cursor % capacity ≤ capacity := Nat.le_of_lt (Nat.mod_lt cursor h)
  have hfirst : min length (capacity - cursor % capacity) ≤ length := Nat.min_le_left _ _
  simp only [stretches?, Word.rem_of_pos cursor h, Checked.ok_bind, Word.sub_of_le hstart,
    Word.sub_of_le hfirst]
  rfl

namespace Ring

variable {n : Nat}

/-- How far a cursor is ahead of another. -/
def gap? (r : Ring n) (source target : Nat) : Checked Nat := do
  let span ← Word.mul 64 2 r.capacity
  let sum ← Word.add 64 target span
  let difference ← Word.sub sum source
  let gap ← Word.rem difference span
  pure gap

/-- The cursor `count` bytes further on. -/
def forward? (r : Ring n) (cursor count : Nat) : Checked {next : Nat // next < 2 * r.capacity} := do
  let sum ← Word.add 64 cursor count
  let _span ← Word.mul 64 2 r.capacity
  Word.rem sum (2 * r.capacity)

/-- Bytes that wait to be read. -/
def fill? (r : Ring n) : Checked Nat := r.gap? r.front r.head

/-! ## The writer and the reader -/

/-- Appends a packet. -/
def push? (r : Ring n) (bytes : List UInt8) : Checked (Checked Outcome × Ring n) := do
  let used ← r.fill?
  let total ← Word.add 64 used bytes.length
  if r.capacity < total then
    pure ((Word.add 32 r.overruns.toNat 1).map fun _ => .overrun,
      { r.flush with overruns := r.overruns + 1 })
  else
    let (first, second) ← stretches? r.capacity r.head bytes.length
    let ⟨head, hhead⟩ ← r.forward? r.head bytes.length
    pure (.ok .stored,
      { r with
        storage := Storage.store
          (Storage.store r.storage first.start (bytes.take first.length)) second.start
          (bytes.drop first.length)
        head := head
        head_lt := hhead })

/-- Takes `count` bytes, or none if fewer wait. -/
def take? (r : Ring n) (count : Nat) : Checked (Option (List UInt8) × Ring n) := do
  let current := r.follow
  let waiting ← current.gap? current.tail current.head
  if waiting < count then pure (none, current)
  else
    let (first, second) ← stretches? current.capacity current.tail count
    let ⟨tail, htail⟩ ← current.forward? current.tail count
    pure (some (Storage.load current.storage first ++ Storage.load current.storage second),
      { current with tail := tail, tail_lt := htail })

/-- Takes a frame; a dry ring gives the last fresh frame again and counts an underrun. -/
def takeFrame? (r : Ring n) : Checked (Frame × Ring n) := do
  match ← r.take? playedFrameBytes with
  | (some bytes, rest) =>
    let value := UInt32.ofNat (LittleEndian.value bytes)
    pure (.fresh value, { rest with lastFrame := value })
  | (none, rest) => pure (.again rest.lastFrame, { rest with underruns := rest.underruns + 1 })

/-! ## Nothing is out of range -/

section

variable (r : Ring n) (hn : 2 * n < Word.bound 16)

include hn

theorem span_lt : 2 * r.capacity < Word.bound 16 :=
  Nat.lt_of_le_of_lt (Nat.mul_le_mul_left 2 r.capacity_le) hn

theorem gap?_eq {source target : Nat} (hsource : source < 2 * r.capacity)
    (htarget : target < 2 * r.capacity) : r.gap? source target = .ok (r.gap source target) := by
  have hspan := r.span_lt hn
  have hsum : target + 2 * r.capacity < Word.bound 64 := by
    rw [Word.bound_eq] at *
    omega
  have hpos : 0 < 2 * r.capacity := Nat.zero_lt_of_lt hsource
  have hword : 2 * r.capacity < Word.bound 64 := Nat.lt_trans hspan (by decide)
  simp only [gap?, Word.mul_of_lt hword, Checked.ok_bind, Word.add_of_lt hsum,
    Word.sub_of_le (show source ≤ target + 2 * r.capacity by omega), Word.rem_of_pos _ hpos]
  rfl

theorem forward?_eq {cursor count : Nat} (hcursor : cursor < 2 * r.capacity)
    (hcount : count < Word.bound 63) :
    r.forward? cursor count = .ok ⟨r.forward cursor count, r.forward_lt cursor count⟩ := by
  have hspan := r.span_lt hn
  have hsum : cursor + count < Word.bound 64 := by
    rw [Word.bound_eq] at *
    omega
  have hpos : 0 < 2 * r.capacity := Nat.zero_lt_of_lt hcursor
  have hword : 2 * r.capacity < Word.bound 64 := Nat.lt_trans hspan (by decide)
  simp only [forward?, Word.add_of_lt hsum, Checked.ok_bind, Word.mul_of_lt hword,
    Word.rem_of_pos _ hpos]
  rfl

theorem fill?_eq : r.fill? = .ok r.fill :=
  r.gap?_eq hn r.front_lt r.head_lt

theorem push?_eq {bytes : List UInt8} (hbytes : bytes.length < Word.bound 63) :
    r.push? bytes = .ok (r.push bytes) := by
  have htotal : r.fill + bytes.length < Word.bound 64 := by
    have hspan := r.span_lt hn
    have hfill := r.fill_lt
    rw [Word.bound_eq] at *
    omega
  simp only [push?, r.fill?_eq hn, Checked.ok_bind, Word.add_of_lt htotal]
  rw [push]
  split
  · rfl
  · simp only [stretches?_eq r.capacity_pos, r.forward?_eq hn r.head_lt hbytes]
    rfl

theorem take?_eq {count : Nat} (hcount : count < Word.bound 63) :
    r.take? count = .ok (r.take count) := by
  simp only [take?, r.follow.gap?_eq hn r.follow.tail_lt r.follow.head_lt, Checked.ok_bind]
  rw [take]
  split
  · rfl
  · simp only [stretches?_eq r.follow.capacity_pos, r.follow.forward?_eq hn r.follow.tail_lt hcount]
    rfl

theorem takeFrame?_eq : r.takeFrame? = .ok r.takeFrame := by
  simp only [takeFrame?, r.take?_eq hn (show playedFrameBytes < Word.bound 63 by decide),
    Checked.ok_bind]
  rw [takeFrame]
  cases htake : r.take playedFrameBytes with
  | mk bytes rest =>
    cases bytes with
    | none => rfl
    | some bytes => rfl

end

end Ring

end PacedAudio
