/-
# PacedAudio.Proofs.Ring.Copies — what the copies of a ring touch

A packet that is stored, a buffer that is filled and a frame that is fresh are copied in two parts,
one up to the end of the circle and one from its start (`copied`). `SoundCopy` says what makes
such a copy safe: both parts lie inside the bytes that the ring has in use, together they are as
long as what is copied, a packet is stored over nothing that waits, and no byte elsewhere changes.

Packets and frames are always copied safely. So is a buffer, unless it overreaches: it is longer
than the circle from the place to read from to its end and once around, while as many bytes seem
to wait. That takes more bytes than the ring has room for, hence a lapse (`copies_sound_iff`). After
a lapse it does happen (`not_copiesSound_of_65536_flushes`).
-/

import PacedAudio.Proofs.Ring.Flushing

namespace PacedAudio

/-! ## Places in two stretches -/

/-- The byte at an index belongs to the stretch. -/
def Stretch.Covers (s : Stretch) (place : Nat) : Prop :=
  s.start ≤ place ∧ place < s.start + s.length

/-- The places of a run that fits the circle are those of its bytes. -/
theorem covers_stretches_iff {capacity length : Nat} (h : 0 < capacity) (cursor : Nat)
    (hlength : length ≤ capacity) (place : Nat) :
    (stretches capacity cursor length).1.Covers place
        ∨ (stretches capacity cursor length).2.Covers place
      ↔ ∃ i, i < length ∧ Storage.index capacity cursor i = place := by
  have hlt := Nat.mod_lt cursor h
  simp only [stretches, Stretch.Covers]
  constructor
  · rintro (hfirst | hsecond)
    · refine ⟨place - cursor % capacity, by omega, ?_⟩
      rw [Storage.index_eq h cursor (by omega), if_pos (by omega)]
      omega
    · refine ⟨place + capacity - cursor % capacity, by omega, ?_⟩
      rw [Storage.index_eq h cursor (by omega), if_neg (by omega)]
      omega
  · rintro ⟨i, hi, rfl⟩
    rw [Storage.index_eq h cursor (by omega)]
    split
    · left
      omega
    · right
      omega

namespace Ring

variable {n : Nat} {r : Ring n}

/-! ## Copies -/

/-- The bytes that an operation has to copy. -/
def Operation.length : Operation → Nat
  | .push bytes => bytes.length
  | .fillBuffer buffer => buffer.length
  | .takeFrame => playedFrameBytes
  | _ => 0

/-- The stretches of storage that an operation copies into or out of, if by its answer it copies
anything. -/
def copied (r : Ring n) : Operation → Option (Stretch × Stretch)
  | .push bytes =>
    match (r.push bytes).1 with
    | .ok .stored => some (stretches r.capacity r.head bytes.length)
    | _ => none
  | .fillBuffer buffer =>
    if (r.fillBuffer buffer).1 then some (stretches r.capacity r.follow.tail buffer.length)
    else none
  | .takeFrame =>
    match r.takeFrame.1 with
    | .fresh _ => some (stretches r.capacity r.follow.tail playedFrameBytes)
    | .again _ => none
  | .flush | .resize _ => none

/-- What makes a copy safe. -/
structure SoundCopy (r : Ring n) (operation : Operation) (first second : Stretch) : Prop where
  length : first.length + second.length = operation.length
  capacity_le : r.capacity ≤ n
  first_within : first.Within r.capacity
  second_within : second.Within r.capacity
  disjoint : ∀ bytes, operation = .push bytes → ∀ i, i < r.fill →
    ¬ first.Covers (Storage.index r.capacity r.front i)
      ∧ ¬ second.Covers (Storage.index r.capacity r.front i)
  elsewhere : ∀ place, ¬ first.Covers place → ¬ second.Covers place →
    Storage.byte (r.perform operation).2.storage place = Storage.byte r.storage place

/-- All copies of a run are safe. -/
def CopiesSound (r : Ring n) (operations : List Operation) : Prop :=
  ∀ before operation later, operations = before ++ operation :: later →
    ∀ first second, (r.after before).copied operation = some (first, second) →
      (r.after before).SoundCopy operation first second

/-- A buffer of `count` bytes is filled, as that many seem to wait, and they go around the circle
once more after its end and further. -/
def Overreaches (r : Ring n) (count : Nat) : Prop :=
  count ≤ r.fill ∧ 2 * r.capacity < r.front % r.capacity + count

/-! ## Which operations copy -/

theorem copied_push (r : Ring n) (bytes : List UInt8) :
    r.copied (.push bytes)
      = if r.fill + bytes.length ≤ r.capacity then
          some (stretches r.capacity r.head bytes.length)
        else none := by
  rw [copied]
  by_cases hfits : r.fill + bytes.length ≤ r.capacity
  · rw [push_fst_of_fits hfits, if_pos hfits]
  · rw [push_of_not_fits hfits, if_neg hfits]
    cases Word.add 32 r.overruns.toNat 1 <;> rfl

theorem copied_fillBuffer (r : Ring n) (buffer : List UInt8) :
    r.copied (.fillBuffer buffer)
      = if buffer.length ≤ r.fill then some (stretches r.capacity r.front buffer.length)
        else none := by
  rw [copied, fillBuffer, follow_tail]
  by_cases hle : buffer.length ≤ r.fill
  · rw [take_of_le hle, if_pos hle]
    rfl
  · rw [take_of_lt (Nat.not_le.mp hle), if_neg hle]
    rfl

theorem copied_takeFrame (r : Ring n) :
    r.copied .takeFrame
      = if playedFrameBytes ≤ r.fill then some (stretches r.capacity r.front playedFrameBytes)
        else none := by
  rw [copied, takeFrame, follow_tail]
  by_cases hle : playedFrameBytes ≤ r.fill
  · rw [take_of_le hle, if_pos hle]
  · rw [take_of_lt (Nat.not_le.mp hle), if_neg hle]

/-! ## Which copies are safe -/

/-- A packet that fits is stored safely, whatever the ring has been through. -/
theorem soundCopy_push {bytes : List UInt8} (h : r.Fits bytes) :
    r.SoundCopy (.push bytes) (stretches r.capacity r.head bytes.length).1
      (stretches r.capacity r.head bytes.length).2 where
  length := stretches_length _ _ _
  capacity_le := r.capacity_le
  first_within := stretches_fst_within _ _ r.capacity_pos
  second_within := by
    have hfit : r.fill + bytes.length ≤ r.capacity := h
    have hlt := Nat.mod_lt r.head r.capacity_pos
    rw [stretches_snd_within_iff _ _ r.capacity_pos]
    omega
  disjoint := by
    rintro bytes' - i hi
    have hfit : r.fill + bytes.length ≤ r.capacity := h
    rw [← not_or, covers_stretches_iff r.capacity_pos r.head (by omega)]
    rintro ⟨j, hj, heq⟩
    -- The packet begins as far behind the front as bytes wait, so it cannot come round to them.
    rw [index_head] at heq
    have hsame := Storage.index_inj r.capacity_pos r.front (by omega) (by omega) heq
    omega
  elsewhere := by
    intro place hfirst hsecond
    have hfit : r.fill + bytes.length ≤ r.capacity := h
    have huncovered := mt (covers_stretches_iff r.capacity_pos r.head (by omega) place).mpr
      (not_or.mpr ⟨hfirst, hsecond⟩)
    refine (congrArg (Storage.byte · place) (storage_push h)).trans ?_
    refine Storage.byte_storeAround_of_ne _ r.capacity_pos _ _ (by omega) fun i hi heq => ?_
    exact huncovered ⟨i, hi, heq⟩

/-- Bytes are taken safely if they go around the circle at most once after its end. -/
theorem soundCopy_take {operation : Operation} (hpush : ∀ bytes, operation ≠ .push bytes)
    (hkept : (r.perform operation).2.storage = r.storage)
    (h : r.front % r.capacity + operation.length ≤ 2 * r.capacity) :
    r.SoundCopy operation (stretches r.capacity r.front operation.length).1
      (stretches r.capacity r.front operation.length).2 where
  length := stretches_length _ _ _
  capacity_le := r.capacity_le
  first_within := stretches_fst_within _ _ r.capacity_pos
  second_within := (stretches_snd_within_iff _ _ r.capacity_pos).mpr h
  disjoint := fun bytes heq => absurd heq (hpush bytes)
  elsewhere := fun _ _ _ => by rw [hkept]

/-- A frame is short enough. In a ring of two bytes or one, as many never wait. -/
theorem frame_within (h : playedFrameBytes ≤ r.fill) :
    r.front % r.capacity + playedFrameBytes ≤ 2 * r.capacity := by
  have hlt := Nat.mod_lt r.front r.capacity_pos
  have hfill := r.fill_lt
  simp only [playedFrameBytes] at h ⊢
  omega

/-- Every copy of an operation is safe, unless it fills a buffer that overreaches. -/
theorem soundCopy_iff (r : Ring n) (operation : Operation) :
    (∀ first second, r.copied operation = some (first, second) →
      r.SoundCopy operation first second)
    ↔ ∀ buffer, operation = .fillBuffer buffer → ¬ r.Overreaches buffer.length := by
  constructor
  · rintro hsound buffer rfl ⟨hle, hover⟩
    have hcopied := r.copied_fillBuffer buffer
    rw [if_pos hle] at hcopied
    have hsecond := (stretches_snd_within_iff _ _ r.capacity_pos).mp
      (hsound _ _ hcopied).second_within
    omega
  · intro hnone first second hcopied
    cases operation with
    | push bytes =>
      rw [copied_push] at hcopied
      obtain ⟨hfits, heq⟩ := Option.ite_none_right_eq_some.mp hcopied
      cases heq
      exact soundCopy_push hfits
    | fillBuffer buffer =>
      rw [copied_fillBuffer] at hcopied
      obtain ⟨hle, heq⟩ := Option.ite_none_right_eq_some.mp hcopied
      cases heq
      refine soundCopy_take (fun _ => nofun) (r.storage_fillBuffer buffer)
        (Nat.not_lt.mp fun hover => ?_)
      exact hnone buffer rfl ⟨hle, hover⟩
    | takeFrame =>
      rw [copied_takeFrame] at hcopied
      obtain ⟨hle, heq⟩ := Option.ite_none_right_eq_some.mp hcopied
      cases heq
      exact soundCopy_take (fun _ => nofun) r.storage_takeFrame (frame_within hle)
    | flush => cases hcopied
    | resize capacity => cases hcopied

/-! ## Runs -/

theorem copiesSound_iff (r : Ring n) (operations : List Operation) :
    r.CopiesSound operations
      ↔ ∀ before buffer later, operations = before ++ .fillBuffer buffer :: later →
          ¬ (r.after before).Overreaches buffer.length := by
  constructor
  · intro hsound before buffer later heq
    exact (soundCopy_iff _ _).mp (hsound before _ later heq) buffer rfl
  · intro hnone before operation later heq
    refine (soundCopy_iff _ operation).mpr ?_
    rintro buffer rfl
    exact hnone before buffer later heq

/-- No buffer overreaches while no more bytes wait than there is room for. -/
theorem Sound.not_overreaches (h : r.Sound) (count : Nat) : ¬ r.Overreaches count := by
  rintro ⟨hle, hover⟩
  have hfill : r.fill ≤ r.capacity := h
  have hlt := Nat.mod_lt r.front r.capacity_pos
  omega

/-- From a new ring, the copies of a run are safe exactly if no buffer overreaches: packets and
frames never do. If no flush falls on a lapse, no buffer does either, and all copies are safe. -/
theorem copies_sound_iff (h : 0 < n) (operations : List Operation) :
    ((empty n h).CopiesSound operations
      ↔ ∀ before buffer later, operations = before ++ .fillBuffer buffer :: later →
          ¬ ((empty n h).after before).Overreaches buffer.length)
    ∧ ((Watched.empty n h).LapseFree operations → (empty n h).CopiesSound operations) := by
  refine ⟨copiesSound_iff _ operations, ?_⟩
  intro hlapse
  have hstart : (Watched.empty n h).ring.Holds (ByteQueue.empty n) (Watched.empty n h).lag :=
    holds_empty h
  refine (copiesSound_iff _ operations).mpr ?_
  rintro before buffer later rfl
  have hbefore := hstart.after hlapse.of_append
  rw [Watched.after_ring] at hbefore
  exact hbefore.sound.not_overreaches buffer.length

/-- A packet that wraps around three bytes of five, a flush, and a frame that is taken in two
parts. -/
theorem copies_sound_iff_wrapped :
    let operations : List Operation :=
      [.push [1, 2, 3], .fillBuffer [0, 0, 0], .flush, .push [4, 5, 6, 7], .takeFrame]
    0 < 5
      ∧ (Watched.empty 5 (by decide)).LapseFree operations
      ∧ ((empty 5 (by decide)).after (operations.take 4)).copied .takeFrame
        = some (⟨3, 2⟩, ⟨0, 2⟩)
      ∧ (empty 5 (by decide)).CopiesSound operations := by
  intro operations
  have hlapse : (Watched.empty 5 (by decide)).LapseFree operations := by
    refine Watched.lapseFree_of_missed fun before hbefore => ?_
    have hlength : before.length ≤ 5 := hbefore.length_le
    have hle := (Watched.empty 5 (by decide)).missed_after_le before
    have hnone : (Watched.empty 5 (by decide)).lag.missed = 0 := rfl
    omega
  exact ⟨by decide, hlapse, by decide, (copies_sound_iff (by decide) operations).2 hlapse⟩

/-! ## A buffer that overreaches -/

/-- Flushes move nothing but the marker. -/
theorem after_replicate_flush (r : Ring n) (count : Nat) :
    (r.after (List.replicate count .flush)).capacity = r.capacity
      ∧ (r.after (List.replicate count .flush)).head = r.head
      ∧ (r.after (List.replicate count .flush)).tail = r.tail
      ∧ (r.after (List.replicate count .flush)).unread = (r.unread + count) % 65536 := by
  induction count generalizing r with
  | zero => exact ⟨rfl, rfl, rfl, (Nat.mod_eq_of_lt r.unread_lt).symm⟩
  | succ count ih =>
    obtain ⟨hcapacity, hhead, htail, hunread⟩ := ih r.flush
    refine ⟨hcapacity, hhead, htail, ?_⟩
    rw [unread_flush, Nat.mod_add_mod] at hunread
    rw [List.replicate_succ, after_cons]
    refine hunread.trans ?_
    rw [Nat.add_assoc, Nat.add_comm 1 count]

/-- In a ring of 64 bytes of which sixteen are in use, 31 bytes seem to wait after 65536 flushes in
a row. A buffer of that length is filled from two stretches, of which the second ends seven bytes
after the bytes in use. -/
theorem not_copiesSound_of_65536_flushes :
    ¬ (empty 64 (by decide)).CopiesSound
      ([.resize 16, .push (List.replicate 8 1), .fillBuffer (List.replicate 8 0),
          .push (List.replicate 16 2), .flush, .push (List.replicate 15 3)]
        ++ List.replicate 65535 .flush ++ [.fillBuffer (List.replicate 31 0)]) := by
  rw [copiesSound_iff]
  intro hnone
  refine hnone _ (List.replicate 31 0) [] rfl ?_
  rw [after_append]
  generalize hr : (empty 64 (by decide)).after [.resize 16, .push (List.replicate 8 1),
    .fillBuffer (List.replicate 8 0), .push (List.replicate 16 2), .flush,
    .push (List.replicate 15 3)] = r
  have hcursors : r.capacity = 16 ∧ r.head = 7 ∧ r.tail = 8 ∧ r.unread = 1 := by
    rw [← hr]
    decide
  obtain ⟨hcapacity, hhead, htail, hunread⟩ := hcursors
  obtain ⟨hcapacity', hhead', htail', hunread'⟩ := r.after_replicate_flush 65535
  rw [hcapacity] at hcapacity'
  rw [hhead] at hhead'
  rw [htail] at htail'
  rw [hunread] at hunread'
  -- The marker bears the number that the reader has acknowledged, so the reader is where it was.
  have hfront : (r.after (List.replicate 65535 .flush)).front = 8 :=
    (front_of_unread hunread').trans htail'
  have hfill : (r.after (List.replicate 65535 .flush)).fill = 31 := by
    rw [fill_eq, hfront, hhead', hcapacity']
    decide
  rw [Overreaches, hfill, hfront, hcapacity', List.length_replicate]
  decide

end Ring

end PacedAudio
