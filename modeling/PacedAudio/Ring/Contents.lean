/-
# PacedAudio.Ring.Contents — what waits in a ring

The bytes that wait to be read are those from the place to read from up to the head, in order.
`contents` lists them. As long as no more wait than the capacity, each operation does to this list
what its name says: a packet that fits is appended (`contents_push`), what is taken is the front
(`take_fst`, `contents_take`), a discarded list is empty (`contents_flush`).

A marker is recognised by a sequence number of sixteen bits. `unread` counts the markers that the
reader has not followed, modulo 2^16; when one more would make it zero again, a flush discards
nothing unless the reader's cursor is level with the head (`fill_flush`).
-/

import PacedAudio.Ring.Basic

namespace PacedAudio.Ring

variable {n : Nat}

/-- The bytes that wait to be read, oldest first. -/
def contents (r : Ring n) : List UInt8 :=
  Storage.loadAround r.storage r.capacity r.front r.fill

/-- No more bytes wait than the ring has room for. -/
def Sound (r : Ring n) : Prop := r.fill ≤ r.capacity

/-- Markers that the reader has not followed, as far as sequence numbers tell. -/
def unread (r : Ring n) : Nat := (r.marker.sequence - r.acknowledged).toNat

@[simp] theorem length_contents (r : Ring n) : r.contents.length = r.fill :=
  Storage.length_loadAround _ _ _ _

/-! ## Distances between cursors -/

theorem gap_eq (r : Ring n) {source target : Nat} (hs : source < 2 * r.capacity)
    (ht : target < 2 * r.capacity) :
    r.gap source target
      = if source ≤ target then target - source else target + 2 * r.capacity - source := by
  unfold gap
  split
  · next h =>
    rw [show target + 2 * r.capacity - source = target - source + 2 * r.capacity by omega,
      Nat.add_mod_right]
    exact Nat.mod_eq_of_lt (by omega)
  · next h => exact Nat.mod_eq_of_lt (by omega)

theorem forward_eq (r : Ring n) {cursor count : Nat} (hc : cursor < 2 * r.capacity)
    (hcount : count ≤ 2 * r.capacity) :
    r.forward cursor count
      = if cursor + count < 2 * r.capacity then cursor + count
        else cursor + count - 2 * r.capacity := by
  unfold forward
  split
  · next h => exact Nat.mod_eq_of_lt h
  · next h =>
    rw [Nat.mod_eq_sub_mod (Nat.not_lt.mp h)]
    exact Nat.mod_eq_of_lt (by omega)

/-- A target further on is that much further away, around the circle. -/
theorem gap_forward (r : Ring n) {source : Nat} (hs : source < 2 * r.capacity)
    (target count : Nat) :
    r.gap source (r.forward target count)
      = (r.gap source target + count) % (2 * r.capacity) := by
  unfold gap forward
  rw [Nat.add_sub_assoc (Nat.le_of_lt hs), Nat.mod_add_mod, Nat.mod_add_mod]
  congr 1
  omega

theorem gap_lt (r : Ring n) (source target : Nat) :
    r.gap source target < 2 * r.capacity :=
  Nat.mod_lt _ (Nat.mul_pos (by decide) r.capacity_pos)

theorem front_lt (r : Ring n) : r.front < 2 * r.capacity := by
  unfold front
  split
  · exact r.marker_lt
  · exact r.tail_lt

theorem fill_lt (r : Ring n) : r.fill < 2 * r.capacity := r.gap_lt _ _

theorem fill_eq (r : Ring n) :
    r.fill
      = if r.front ≤ r.head then r.head - r.front else r.head + 2 * r.capacity - r.front :=
  r.gap_eq r.front_lt r.head_lt

/-! ## Markers and sequence numbers -/

theorem unread_eq (r : Ring n) :
    r.unread = (65536 - r.acknowledged.toNat + r.marker.sequence.toNat) % 65536 :=
  UInt16.toNat_sub _ _

theorem pending_iff (r : Ring n) : r.pending = true ↔ r.unread ≠ 0 := by
  have ha := r.acknowledged.toNat_lt
  have hm := r.marker.sequence.toNat_lt
  simp only [pending, bne_iff_ne, ne_eq, ← UInt16.toNat_inj, unread_eq]
  omega

theorem unread_lt (r : Ring n) : r.unread < 65536 := UInt16.toNat_lt _

/-- Each marker is one more to follow, until the sequence numbers come round. -/
theorem unread_flush (r : Ring n) : r.flush.unread = (r.unread + 1) % 65536 := by
  have ha := r.acknowledged.toNat_lt
  have hm := r.marker.sequence.toNat_lt
  have hsequence : (r.marker.sequence + 1).toNat = (r.marker.sequence.toNat + 1) % 65536 :=
    UInt16.toNat_add _ _
  simp only [unread_eq, flush, hsequence]
  omega

@[simp] theorem unread_follow (r : Ring n) : r.follow.unread = 0 := by
  unfold follow
  split
  · simp [unread]
  · next h => simpa using mt r.pending_iff.mpr h

theorem front_of_unread {r : Ring n} (h : r.unread = 0) : r.front = r.tail := by
  have hp : r.pending = false := Bool.eq_false_iff.mpr (mt r.pending_iff.mp (by simp [h]))
  simp [front, hp]

/-- A reader that has followed every marker has its own cursor in front. -/
theorem gap_of_unread {r : Ring n} (h : r.unread = 0) : r.gap r.tail r.head = r.fill := by
  rw [fill, front_of_unread h]

/-- The contents of a sound ring, byte by byte. -/
theorem contents_eq {r : Ring n} (h : r.Sound) :
    r.contents = (List.range r.fill).map fun i =>
      Storage.byte r.storage (Storage.index r.capacity r.front i) :=
  Storage.loadAround_eq _ r.capacity_pos _ h

/-! ## Discarding -/

theorem front_flush {r : Ring n} (h : r.unread + 1 < 65536) : r.flush.front = r.head := by
  have hp : r.flush.pending = true := by
    rw [pending_iff, unread_flush, Nat.mod_eq_of_lt h]
    omega
  rw [front, hp]
  rfl

/-- What waits after a flush: nothing, unless the new marker bears the number that the reader has
acknowledged already. Then the reader's own cursor counts again. -/
theorem fill_flush (r : Ring n) :
    r.flush.fill = if r.unread + 1 = 65536 then r.gap r.tail r.head else 0 := by
  have hlt := r.unread_lt
  split
  · next h =>
    have hfront : r.flush.front = r.flush.tail := front_of_unread (by
      rw [unread_flush, h])
    rw [fill, hfront]
    rfl
  · next h =>
    rw [fill_eq, front_flush (by omega)]
    simp [flush]

theorem contents_flush {r : Ring n} (h : r.flush.fill = 0) : r.flush.contents = [] :=
  List.eq_nil_of_length_eq_zero (by rw [length_contents, h])

theorem fill_resize (r : Ring n) (capacity : Nat) : (r.resize capacity).fill = 0 := by
  simp [fill_eq, front, pending, resize]

theorem contents_resize (r : Ring n) (capacity : Nat) : (r.resize capacity).contents = [] :=
  List.eq_nil_of_length_eq_zero (by rw [length_contents, fill_resize])

theorem contents_empty (h : 0 < n) : (empty n h).contents = [] :=
  List.eq_nil_of_length_eq_zero (by simp [fill_eq, front, pending, empty])

/-! ## Appending -/

/-- A packet fits. -/
def Fits (r : Ring n) (bytes : List UInt8) : Prop := r.fill + bytes.length ≤ r.capacity

theorem push_fst_of_fits {r : Ring n} {bytes : List UInt8} (h : r.Fits bytes) :
    (r.push bytes).1 = .ok .stored := by
  rw [push, if_neg (Nat.not_lt.mpr h)]

theorem push_of_not_fits {r : Ring n} {bytes : List UInt8} (h : ¬ r.Fits bytes) :
    r.push bytes = ((Word.add 32 r.overruns.toNat 1).map fun _ => .overrun,
      { r.flush with overruns := r.overruns + 1 }) := by
  rw [push, if_pos (Nat.not_le.mp h)]

/-- A packet is stored, or it overruns, or its overrun is one too many to count. -/
theorem push_cases (r : Ring n) (bytes : List UInt8) :
    (r.Fits bytes ∧ (r.push bytes).1 = .ok .stored)
      ∨ (¬ r.Fits bytes
        ∧ ((r.push bytes).1 = .ok .overrun ∨ ∃ fault, (r.push bytes).1 = .error fault)) := by
  by_cases hfits : r.Fits bytes
  · exact Or.inl ⟨hfits, push_fst_of_fits hfits⟩
  · refine Or.inr ⟨hfits, ?_⟩
    rw [push_of_not_fits hfits]
    cases Word.add 32 r.overruns.toNat 1 with
    | ok total => exact Or.inl rfl
    | error fault => exact Or.inr ⟨fault, rfl⟩

theorem front_push {r : Ring n} {bytes : List UInt8} (h : r.Fits bytes) :
    (r.push bytes).2.front = r.front := by
  rw [push, if_neg (Nat.not_lt.mpr h)]
  rfl

theorem unread_push {r : Ring n} {bytes : List UInt8} (h : r.Fits bytes) :
    (r.push bytes).2.unread = r.unread := by
  rw [push, if_neg (Nat.not_lt.mpr h)]
  rfl

theorem tail_push {r : Ring n} {bytes : List UInt8} (h : r.Fits bytes) :
    (r.push bytes).2.tail = r.tail := by
  rw [push, if_neg (Nat.not_lt.mpr h)]

theorem marker_push {r : Ring n} {bytes : List UInt8} (h : r.Fits bytes) :
    (r.push bytes).2.marker = r.marker := by
  rw [push, if_neg (Nat.not_lt.mpr h)]

theorem capacity_push (r : Ring n) (bytes : List UInt8) :
    (r.push bytes).2.capacity = r.capacity := by
  rw [push]
  split <;> rfl

theorem head_push {r : Ring n} {bytes : List UInt8} (h : r.Fits bytes) :
    (r.push bytes).2.head = r.forward r.head bytes.length := by
  rw [push, if_neg (Nat.not_lt.mpr h)]

theorem storage_push {r : Ring n} {bytes : List UInt8} (h : r.Fits bytes) :
    (r.push bytes).2.storage = Storage.storeAround r.storage r.capacity r.head bytes := by
  rw [push, if_neg (Nat.not_lt.mpr h)]

theorem gap_push {r : Ring n} {bytes : List UInt8} (h : r.Fits bytes) :
    (r.push bytes).2.gap (r.push bytes).2.tail (r.push bytes).2.head
      = (r.gap r.tail r.head + bytes.length) % (2 * r.capacity) := by
  rw [tail_push h, head_push h, ← r.gap_forward r.tail_lt]
  simp only [gap, capacity_push]

theorem fill_push {r : Ring n} {bytes : List UInt8} (h : r.Fits bytes) :
    (r.push bytes).2.fill = r.fill + bytes.length := by
  have hf := r.front_lt
  have hh := r.head_lt
  have hfit : r.fill + bytes.length ≤ r.capacity := h
  rw [fill_eq, front_push h, head_push h, capacity_push, r.forward_eq hh (by omega)]
  rw [fill_eq] at hfit ⊢
  split at hfit <;> split <;> split <;> omega

/-- The head lies as far behind the place to read from as bytes wait, once around the circle or
not. -/
theorem index_head {r : Ring n} (i : Nat) :
    Storage.index r.capacity r.head i
      = Storage.index r.capacity r.front (r.fill + i) := by
  have hf := r.front_lt
  unfold Storage.index
  rw [fill_eq]
  split
  · congr 1
    omega
  · rw [show r.front + (r.head + 2 * r.capacity - r.front + i)
        = r.head + i + r.capacity * 2 by omega, Nat.add_mul_mod_self_left]

/-- A packet that fits is appended to what waits. -/
theorem contents_push {r : Ring n} {bytes : List UInt8} (h : r.Fits bytes) :
    (r.push bytes).2.contents = r.contents ++ bytes := by
  have hfit : r.fill + bytes.length ≤ r.capacity := h
  have hsound : r.Sound := by
    show r.fill ≤ r.capacity
    omega
  have hsound' : (r.push bytes).2.Sound := by
    show (r.push bytes).2.fill ≤ (r.push bytes).2.capacity
    rw [fill_push h, capacity_push]
    exact hfit
  rw [contents_eq hsound', contents_eq hsound]
  apply List.ext_getElem
  · simp [fill_push h]
  · intro i h₁ h₂
    have hi : i < r.fill + bytes.length := by simpa [fill_push h] using h₁
    simp only [List.getElem_map, List.getElem_range, List.getElem_append, List.length_map,
      List.length_range, capacity_push, front_push h, storage_push h]
    split
    · next hold =>
      refine Storage.byte_storeAround_of_ne _ r.capacity_pos _ _ (by omega) fun j hj heq => ?_
      rw [index_head] at heq
      have := Storage.index_inj r.capacity_pos r.front (by omega) (by omega) heq
      omega
    · next hnew =>
      have hplace : Storage.index r.capacity r.front i
          = Storage.index r.capacity r.head (i - r.fill) := by
        rw [index_head]
        congr 1
        omega
      rw [hplace]
      exact Storage.byte_storeAround_of_lt _ r.capacity_pos r.capacity_le _ _ (by omega) (by omega)

/-! ## Taking -/

theorem follow_tail (r : Ring n) : r.follow.tail = r.front := by
  unfold follow front
  split <;> rfl

theorem follow_front (r : Ring n) : r.follow.front = r.front := by
  rw [front_of_unread (unread_follow r), follow_tail]

theorem follow_head (r : Ring n) : r.follow.head = r.head := by
  unfold follow
  split <;> rfl

theorem follow_capacity (r : Ring n) : r.follow.capacity = r.capacity := by
  unfold follow
  split <;> rfl

theorem follow_storage (r : Ring n) : r.follow.storage = r.storage := by
  unfold follow
  split <;> rfl

/-- Following a marker leaves the last frame and the counters alone. -/
theorem follow_counters (r : Ring n) :
    r.follow.lastFrame = r.lastFrame ∧ r.follow.overruns = r.overruns
      ∧ r.follow.underruns = r.underruns := by
  unfold follow
  split <;> exact ⟨rfl, rfl, rfl⟩

theorem fill_follow (r : Ring n) : r.follow.fill = r.fill := by
  rw [fill_eq, fill_eq, follow_front, follow_head, follow_capacity]

/-- Following a marker changes nothing that can be read. -/
theorem contents_follow (r : Ring n) : r.follow.contents = r.contents := by
  rw [contents, contents, follow_storage, follow_capacity, follow_front, fill_follow]

theorem take_of_lt {r : Ring n} {count : Nat} (h : r.fill < count) :
    r.take count = (none, r.follow) := by
  have hd : r.follow.gap r.follow.tail r.follow.head = r.fill := by
    rw [← fill_follow r, fill, follow_front, follow_tail]
  rw [take]
  simp only [hd, if_pos h]

theorem take_of_le {r : Ring n} {count : Nat} (h : count ≤ r.fill) :
    r.take count
      = (some (Storage.loadAround r.storage r.capacity r.front count),
          { r.follow with
            tail := r.follow.forward r.front count
            tail_lt := r.follow.forward_lt _ _ }) := by
  have hd : r.follow.gap r.follow.tail r.follow.head = r.fill := by
    rw [← fill_follow r, fill, follow_front, follow_tail]
  have hge : ¬ r.follow.gap r.follow.tail r.follow.head < count := hd ▸ Nat.not_lt.mpr h
  rw [take]
  simp only [if_neg hge]
  simp only [follow_storage, follow_capacity, follow_tail]

/-- Bytes are taken from the front, and only if all of them are there. -/
theorem take_fst {r : Ring n} (h : r.Sound) (count : Nat) :
    (r.take count).1 = if count ≤ r.fill then some (r.contents.take count) else none := by
  have hsound : r.fill ≤ r.capacity := h
  split
  · next hle =>
    rw [take_of_le hle, contents_eq h, Storage.loadAround_eq _ r.capacity_pos _ (by omega),
      ← List.map_take, List.take_range, Nat.min_eq_left hle]
  · next hlt => rw [take_of_lt (Nat.not_le.mp hlt)]

theorem unread_take (r : Ring n) (count : Nat) : (r.take count).2.unread = 0 := by
  by_cases h : count ≤ r.fill
  · rw [take_of_le h]
    exact unread_follow r
  · rw [take_of_lt (Nat.not_le.mp h)]
    exact unread_follow r

theorem capacity_take (r : Ring n) (count : Nat) : (r.take count).2.capacity = r.capacity := by
  by_cases h : count ≤ r.fill
  · rw [take_of_le h]
    exact follow_capacity r
  · rw [take_of_lt (Nat.not_le.mp h)]
    exact follow_capacity r

theorem head_take (r : Ring n) (count : Nat) : (r.take count).2.head = r.head := by
  by_cases h : count ≤ r.fill
  · rw [take_of_le h]
    exact follow_head r
  · rw [take_of_lt (Nat.not_le.mp h)]
    exact follow_head r

theorem storage_take (r : Ring n) (count : Nat) : (r.take count).2.storage = r.storage := by
  by_cases h : count ≤ r.fill
  · rw [take_of_le h]
    exact follow_storage r
  · rw [take_of_lt (Nat.not_le.mp h)]
    exact follow_storage r

/-- Taking leaves the last frame and the counters alone. -/
theorem take_counters (r : Ring n) (count : Nat) :
    (r.take count).2.lastFrame = r.lastFrame ∧ (r.take count).2.overruns = r.overruns
      ∧ (r.take count).2.underruns = r.underruns := by
  by_cases h : count ≤ r.fill
  · rw [take_of_le h]
    exact follow_counters r
  · rw [take_of_lt (Nat.not_le.mp h)]
    exact follow_counters r

theorem front_take {r : Ring n} {count : Nat} (h : count ≤ r.fill) :
    (r.take count).2.front = r.forward r.front count := by
  rw [front_of_unread (unread_take r count), take_of_le h]
  simp only [forward, follow_capacity]

theorem fill_take {r : Ring n} {count : Nat} (h : count ≤ r.fill) :
    (r.take count).2.fill = r.fill - count := by
  have hf := r.front_lt
  have hh := r.head_lt
  have hlt := r.fill_lt
  rw [fill_eq, front_take h, head_take, capacity_take, r.forward_eq hf (by omega)]
  rw [fill_eq] at h hlt ⊢
  split at h <;> split <;> split <;> omega

/-- What is left waits on. -/
theorem contents_take {r : Ring n} (hsound : r.Sound) {count : Nat} (h : count ≤ r.fill) :
    (r.take count).2.contents = r.contents.drop count := by
  have hcap : r.fill ≤ r.capacity := hsound
  have hsound' : (r.take count).2.Sound := by
    show (r.take count).2.fill ≤ (r.take count).2.capacity
    rw [fill_take h, capacity_take]
    omega
  rw [contents_eq hsound', contents_eq hsound]
  apply List.ext_getElem
  · simp [fill_take h]
  · intro i h₁ h₂
    simp only [List.getElem_map, List.getElem_range, List.getElem_drop, capacity_take,
      front_take h, storage_take]
    congr 1
    unfold Storage.index forward
    rw [Nat.add_mod, Nat.mod_mod_of_dvd _ (Nat.dvd_mul_left _ _), ← Nat.add_mod, Nat.add_assoc]

theorem storage_fillBuffer (r : Ring n) (buffer : List UInt8) :
    (r.fillBuffer buffer).2.2.storage = r.storage := by
  rw [← r.storage_take buffer.length, fillBuffer]
  rcases r.take buffer.length with ⟨_ | bytes, rest⟩ <;> rfl

/-- Taking more than there is leaves what waits. -/
theorem contents_take_of_lt {r : Ring n} {count : Nat} (h : r.fill < count) :
    (r.take count).2.contents = r.contents := by
  rw [take_of_lt h]
  exact contents_follow r

/-! ## Frames -/

/-- A dry ring repeats itself. -/
theorem takeFrame_of_lt {r : Ring n} (h : r.fill < playedFrameBytes) :
    r.takeFrame = (.again r.lastFrame, { r.follow with underruns := r.underruns + 1 }) := by
  obtain ⟨hlast, -, hunderruns⟩ := follow_counters r
  simp only [takeFrame, take_of_lt h, hlast, hunderruns]

/-- Otherwise the frame is the first four bytes that wait. -/
theorem takeFrame_of_le {r : Ring n} (hsound : r.Sound) (h : playedFrameBytes ≤ r.fill) :
    r.takeFrame
      = (.fresh (UInt32.ofNat (LittleEndian.value (r.contents.take playedFrameBytes))),
          { (r.take playedFrameBytes).2 with
            lastFrame :=
              UInt32.ofNat (LittleEndian.value (r.contents.take playedFrameBytes)) }) := by
  have hbytes := take_fst hsound playedFrameBytes
  rw [if_pos h] at hbytes
  rw [takeFrame]
  revert hbytes
  rcases r.take playedFrameBytes with ⟨bytes, rest⟩
  rintro (rfl : bytes = _)
  rfl

/-- What the last frame was is no part of what waits. -/
theorem contents_lastFrame (r : Ring n) (value : UInt32) :
    ({ r with lastFrame := value } : Ring n).contents = r.contents :=
  rfl

theorem contents_takeFrame {r : Ring n} (hsound : r.Sound) (h : playedFrameBytes ≤ r.fill) :
    r.takeFrame.2.contents = r.contents.drop playedFrameBytes := by
  rw [takeFrame_of_le hsound h, contents_lastFrame, contents_take hsound h]

/-- If enough waits, the frame is fresh. -/
theorem takeFrame_fst_of_le {r : Ring n} (h : playedFrameBytes ≤ r.fill) :
    ∃ value, r.takeFrame.1 = .fresh value := by
  rw [takeFrame, take_of_le h]
  exact ⟨_, rfl⟩

/-- Apart from the bytes it takes, a frame is noted as the last one or counted. -/
theorem takeFrame_snd (r : Ring n) :
    ∃ lastFrame underruns, r.takeFrame.2
      = { (r.take playedFrameBytes).2 with lastFrame := lastFrame, underruns := underruns } := by
  rw [takeFrame]
  rcases r.take playedFrameBytes with ⟨_ | bytes, rest⟩
  · exact ⟨rest.lastFrame, rest.underruns + 1, rfl⟩
  · exact ⟨_, rest.underruns, rfl⟩

theorem capacity_takeFrame (r : Ring n) : r.takeFrame.2.capacity = r.capacity := by
  obtain ⟨lastFrame, underruns, hring⟩ := r.takeFrame_snd
  rw [hring]
  exact r.capacity_take playedFrameBytes

theorem storage_takeFrame (r : Ring n) : r.takeFrame.2.storage = r.storage := by
  obtain ⟨lastFrame, underruns, hring⟩ := r.takeFrame_snd
  rw [hring]
  exact r.storage_take playedFrameBytes

theorem unread_takeFrame (r : Ring n) : r.takeFrame.2.unread = 0 := by
  obtain ⟨lastFrame, underruns, hring⟩ := r.takeFrame_snd
  rw [hring]
  exact unread_take r playedFrameBytes

/-- A frame is four bytes, and a dry ring gives none of them. -/
theorem fill_takeFrame (r : Ring n) :
    r.takeFrame.2.fill
      = if r.fill < playedFrameBytes then r.fill else r.fill - playedFrameBytes := by
  split
  · next hdry =>
    rw [takeFrame_of_lt hdry]
    exact fill_follow r
  · next hwaits =>
    obtain ⟨lastFrame, underruns, hring⟩ := r.takeFrame_snd
    rw [hring]
    exact fill_take (Nat.not_lt.mp hwaits)

theorem overruns_takeFrame (r : Ring n) : r.takeFrame.2.overruns = r.overruns := by
  obtain ⟨lastFrame, underruns, hring⟩ := r.takeFrame_snd
  rw [hring]
  exact (r.take_counters playedFrameBytes).2.1

/-- An underrun is counted exactly if the ring is dry. -/
theorem underruns_takeFrame (r : Ring n) :
    r.takeFrame.2.underruns
      = if r.fill < playedFrameBytes then r.underruns + 1 else r.underruns := by
  split
  · next hdry => rw [takeFrame_of_lt hdry]
  · next hwaits =>
    have hcounters := (r.take_counters playedFrameBytes).2.2
    rw [takeFrame]
    rw [take_of_le (Nat.not_lt.mp hwaits)] at hcounters ⊢
    exact hcounters

/-! ## Counters of the writer -/

theorem overruns_push (r : Ring n) (bytes : List UInt8) :
    (r.push bytes).2.overruns
      = if r.capacity < r.fill + bytes.length then r.overruns + 1 else r.overruns := by
  rw [push]
  split <;> rfl

theorem underruns_push (r : Ring n) (bytes : List UInt8) :
    (r.push bytes).2.underruns = r.underruns := by
  rw [push]
  split <;> rfl

end PacedAudio.Ring
