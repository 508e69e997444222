/-
# PacedAudio.Proofs.Ring.Refinement — a ring is a bounded queue of bytes

`Holds` relates a ring to the queue that it stands for and to the lag of its reader. Every
operation keeps the relation (`Holds.perform`), with one exception: a flush at a lapse. As long as
fewer than 65536 flushes are missed in a row there is no lapse, and ring and queue cannot be told
apart, neither by their answers nor by what can be read off them between two operations
(`answers_eq_queue`).
-/

import PacedAudio.ByteQueue
import PacedAudio.Ring.Contents
import PacedAudio.Ring.Lag

namespace PacedAudio.Ring

variable {n : Nat} {r : Ring n} {q : ByteQueue} {lag : Lag}

/-! ## The relation -/

/-- A ring stands for a queue, and its reader lags behind by `lag`. The last two fields read the
ring's circles off the lag: the sequence numbers modulo 2^16, and the reader's cursor modulo twice
the capacity. -/
structure Holds (r : Ring n) (q : ByteQueue) (lag : Lag) : Prop where
  limit : q.limit = n
  capacity : r.capacity = q.capacity
  bounded : q.Bounded
  contents : r.contents = q.bytes
  lastFrame : r.lastFrame = q.lastFrame
  overruns : r.overruns = UInt32.ofNat q.overruns
  underruns : r.underruns = UInt32.ofNat q.underruns
  waiting : lag.waiting = q.bytes.length
  missed : r.unread = lag.missed % 65536
  distance : r.gap r.tail r.head = lag.distance % (2 * r.capacity)

theorem Holds.fill (h : r.Holds q lag) : r.fill = q.bytes.length := by
  rw [← length_contents, h.contents]

theorem Holds.sound (h : r.Holds q lag) : r.Sound := by
  have hb : q.bytes.length ≤ q.capacity := h.bounded
  show r.fill ≤ r.capacity
  rw [h.fill, h.capacity]
  exact hb

theorem holds_empty (h : 0 < n) : (empty n h).Holds (ByteQueue.empty n) Lag.none where
  limit := rfl
  capacity := rfl
  bounded := Nat.zero_le n
  contents := contents_empty h
  lastFrame := rfl
  overruns := rfl
  underruns := rfl
  waiting := rfl
  missed := by simp [unread, empty, Lag.none]
  distance := by simp [gap, empty, Lag.none]

/-- What can be read off a ring is what can be read off its queue, while the overruns fit their
counter. -/
theorem Holds.gauge (h : r.Holds q lag) (hover : q.overruns < Word.bound 32) :
    r.gauge = q.gauge := by
  have hsound : r.fill ≤ r.capacity := h.sound
  have hroom : r.room = .ok (q.capacity - q.bytes.length) := by
    rw [room, Word.sub_of_le hsound, h.capacity, h.fill]
  have hempty : r.isEmpty = q.bytes.isEmpty := by
    rw [isEmpty, h.fill]
    cases q.bytes <;> rfl
  have hoverruns : r.overruns.toNat = q.overruns := by
    rw [h.overruns, UInt32.toNat_ofNat']
    exact Nat.mod_eq_of_lt hover
  have hunderruns : r.underruns.toNat = q.underruns % Word.bound 32 := by
    rw [h.underruns, UInt32.toNat_ofNat']
    rfl
  simp only [Ring.gauge, ByteQueue.gauge, h.capacity, h.fill, hroom, hempty, hoverruns, hunderruns]

/-! ## The writer -/

theorem Holds.fits_iff (h : r.Holds q lag) (bytes : List UInt8) :
    r.Fits bytes ↔ q.bytes.length + bytes.length ≤ q.capacity := by
  rw [Fits, h.fill, h.capacity]

/-- A packet that fits. -/
theorem Holds.push (h : r.Holds q lag) {bytes : List UInt8} (hfits : r.Fits bytes) :
    (r.push bytes).2.Holds (q.push bytes).2 (lag.stored bytes.length) := by
  have hq : (q.push bytes).2 = { q with bytes := q.bytes ++ bytes } := by
    rw [ByteQueue.push, if_pos ((h.fits_iff bytes).mp hfits)]
  have hr : (r.push bytes).2.lastFrame = r.lastFrame ∧ (r.push bytes).2.overruns = r.overruns
      ∧ (r.push bytes).2.underruns = r.underruns := by
    rw [Ring.push, if_neg (Nat.not_lt.mpr hfits)]
    exact ⟨rfl, rfl, rfl⟩
  exact {
    limit := by rw [hq]; exact h.limit
    capacity := by rw [hq, capacity_push]; exact h.capacity
    bounded := q.bounded_push bytes
    contents := by rw [hq, contents_push hfits, h.contents]
    lastFrame := by rw [hq, hr.1]; exact h.lastFrame
    overruns := by rw [hq, hr.2.1]; exact h.overruns
    underruns := by rw [hq, hr.2.2]; exact h.underruns
    waiting := by rw [hq, Lag.stored, h.waiting, List.length_append]
    missed := by rw [unread_push hfits]; exact h.missed
    distance := by
      rw [gap_push hfits, h.distance, Nat.mod_add_mod, capacity_push]
      rfl }

/-- What waits after a flush: nothing, unless the flush lapses. Then everything counts again that
was stored since the reader last looked, around the circle. -/
theorem Holds.fill_flush (h : r.Holds q lag) :
    r.flush.fill = if 65536 ∣ lag.missed + 1 then lag.distance % (2 * r.capacity) else 0 := by
  have hunread : r.unread + 1 = 65536 ↔ 65536 ∣ lag.missed + 1 := by
    rw [h.missed, Nat.dvd_iff_mod_eq_zero]
    omega
  rw [Ring.fill_flush, h.distance]
  simp only [hunread]

/-- A flush empties the ring exactly if it does not lapse. -/
theorem Holds.fill_flush_eq_zero_iff (h : r.Holds q lag) :
    r.flush.fill = 0 ↔ ¬ lag.Lapses r.capacity := by
  rw [h.fill_flush, Lag.Lapses, Nat.dvd_iff_mod_eq_zero (n := lag.distance)]
  split
  · next hmissed => simp [hmissed]
  · next hmissed => simp [hmissed]

/-- A flush that does not lapse. -/
theorem Holds.flush (h : r.Holds q lag) (hlapse : ¬ lag.Lapses r.capacity) :
    r.flush.Holds q.flush lag.discarded where
  limit := h.limit
  capacity := h.capacity
  bounded := Nat.zero_le _
  contents := contents_flush (h.fill_flush_eq_zero_iff.mpr hlapse)
  lastFrame := h.lastFrame
  overruns := h.overruns
  underruns := h.underruns
  waiting := rfl
  missed := by
    rw [unread_flush, h.missed, Nat.mod_add_mod]
    rfl
  distance := h.distance

/-- A packet that does not fit, at no lapse. -/
theorem Holds.overrun (h : r.Holds q lag) {bytes : List UInt8} (hfits : ¬ r.Fits bytes)
    (hlapse : ¬ lag.Lapses r.capacity) :
    (r.push bytes).2.Holds (q.push bytes).2 lag.discarded := by
  have hflush := h.flush hlapse
  rw [push_of_not_fits hfits, ByteQueue.push, if_neg (mt (h.fits_iff bytes).mpr hfits)]
  exact {
    limit := hflush.limit
    capacity := hflush.capacity
    bounded := hflush.bounded
    contents := hflush.contents
    lastFrame := hflush.lastFrame
    overruns := by
      show r.overruns + 1 = UInt32.ofNat (q.overruns + 1)
      rw [h.overruns, UInt32.ofNat_add]
      rfl
    underruns := hflush.underruns
    waiting := hflush.waiting
    missed := hflush.missed
    distance := hflush.distance }

theorem overran_push_iff (r : Ring n) (bytes : List UInt8) :
    (Answer.pushed (r.push bytes).1).overran = true ↔ ¬ r.Fits bytes := by
  by_cases hfits : r.Fits bytes
  · rw [push_fst_of_fits hfits]
    simp [Answer.overran, hfits]
  · rw [push_of_not_fits hfits]
    cases Word.add 32 r.overruns.toNat 1 <;> simp [Answer.overran, Except.map, hfits]

/-! ## The reader -/

theorem Holds.take_fst (h : r.Holds q lag) (count : Nat) :
    (r.take count).1 = (q.take count).1 := by
  rw [Ring.take_fst h.sound, h.fill, h.contents, ByteQueue.take]
  split <;> rfl

/-- The reader looks and takes what it asks for, if that much waits. -/
theorem Holds.take (h : r.Holds q lag) (count : Nat) :
    (r.take count).2.Holds (q.take count).2 (lag.taken ((r.take count).1.getD []).length) := by
  obtain ⟨hlast, hover, hunder⟩ := take_counters r count
  have hwaiting : lag.waiting - ((r.take count).1.getD []).length = (r.take count).2.fill := by
    rw [h.waiting, h.take_fst, ByteQueue.take]
    split
    · next hle =>
      rw [fill_take (h.fill ▸ hle), h.fill]
      simp [hle]
    · next hlt =>
      rw [take_of_lt (h.fill ▸ Nat.not_le.mp hlt), fill_follow, h.fill]
      simp
  have hcontents : (r.take count).2.contents = (q.take count).2.bytes := by
    rw [ByteQueue.take]
    split
    · next hle => rw [contents_take h.sound (h.fill ▸ hle), h.contents]
    · next hlt => rw [contents_take_of_lt (h.fill ▸ Nat.not_le.mp hlt), h.contents]
  have hqueue : (q.take count).2 = { q with bytes := (q.take count).2.bytes } := by
    rw [ByteQueue.take]
    split <;> rfl
  have hbounded := ByteQueue.bounded_take h.bounded count
  rw [hqueue] at hbounded ⊢
  exact {
    limit := h.limit
    capacity := by rw [capacity_take]; exact h.capacity
    bounded := hbounded
    contents := hcontents
    lastFrame := by rw [hlast]; exact h.lastFrame
    overruns := by rw [hover]; exact h.overruns
    underruns := by rw [hunder]; exact h.underruns
    waiting := by
      show lag.waiting - _ = _
      rw [hwaiting, ← length_contents, hcontents]
    missed := unread_take r count
    distance := by
      show _ = (lag.waiting - _) % _
      rw [gap_of_unread (unread_take r count), hwaiting]
      exact (Nat.mod_eq_of_lt (fill_lt _)).symm }

theorem Holds.fillBuffer_answer (h : r.Holds q lag) (buffer : List UInt8) :
    (r.fillBuffer buffer).1 = (q.fillBuffer buffer).1
      ∧ (r.fillBuffer buffer).2.1 = (q.fillBuffer buffer).2.1 := by
  have hfst := h.take_fst buffer.length
  revert hfst
  rw [fillBuffer, ByteQueue.fillBuffer]
  rcases r.take buffer.length with ⟨taken, rest⟩
  rcases q.take buffer.length with ⟨taken', rest'⟩
  rintro rfl
  cases taken <;> exact ⟨rfl, rfl⟩

theorem Holds.fillBuffer (h : r.Holds q lag) (buffer : List UInt8) :
    (r.fillBuffer buffer).2.2.Holds (q.fillBuffer buffer).2.2
      (lag.taken (Answer.filled (r.fillBuffer buffer).1 (r.fillBuffer buffer).2.1).drained.length)
    := by
  have hfst := h.take_fst buffer.length
  have hsnd := h.take buffer.length
  revert hfst hsnd
  rw [Ring.fillBuffer, ByteQueue.fillBuffer]
  rcases r.take buffer.length with ⟨taken, rest⟩
  rcases q.take buffer.length with ⟨taken', rest'⟩
  rintro rfl hsnd
  cases taken <;> exact hsnd

theorem Holds.takeFrame_fst (h : r.Holds q lag) : r.takeFrame.1 = q.takeFrame.1 := by
  have hfst := h.take_fst playedFrameBytes
  have hlast := (h.take playedFrameBytes).lastFrame
  revert hfst hlast
  rw [Ring.takeFrame, ByteQueue.takeFrame]
  rcases r.take playedFrameBytes with ⟨taken, rest⟩
  rcases q.take playedFrameBytes with ⟨taken', rest'⟩
  rintro rfl hlast
  cases taken with
  | none => exact congrArg Frame.again hlast
  | some bytes => rfl

theorem length_take_fst {count : Nat} {bytes : List UInt8} (h : (r.take count).1 = some bytes) :
    bytes.length = count := by
  by_cases hle : count ≤ r.fill
  · rw [take_of_le hle] at h
    cases h
    exact Storage.length_loadAround _ _ _ _
  · rw [take_of_lt (Nat.not_le.mp hle)] at h
    cases h

theorem Holds.takeFrame (h : r.Holds q lag) :
    r.takeFrame.2.Holds q.takeFrame.2 (lag.taken (Answer.frame r.takeFrame.1).drained.length) := by
  have hfst := h.take_fst playedFrameBytes
  have hsnd := h.take playedFrameBytes
  have hlength := @length_take_fst n r playedFrameBytes
  revert hfst hsnd hlength
  rw [Ring.takeFrame, ByteQueue.takeFrame]
  rcases r.take playedFrameBytes with ⟨taken, rest⟩
  rcases q.take playedFrameBytes with ⟨taken', rest'⟩
  rintro rfl hsnd hlength
  cases taken with
  | none =>
    exact {
      hsnd with
      underruns := by
        show rest.underruns + 1 = UInt32.ofNat (rest'.underruns + 1)
        rw [hsnd.underruns, UInt32.ofNat_add]
        rfl }
  | some bytes =>
    rw [Answer.drained_fresh (hlength rfl)]
    exact { hsnd with lastFrame := rfl }

/-! ## The owner -/

theorem Holds.resize (h : r.Holds q lag) (capacity : Nat) :
    (r.resize capacity).Holds (q.resize capacity) Lag.none where
  limit := h.limit
  capacity := by simp only [Ring.resize, ByteQueue.resize, h.limit]
  bounded := Nat.zero_le _
  contents := contents_resize r capacity
  lastFrame := rfl
  overruns := h.overruns
  underruns := h.underruns
  waiting := rfl
  missed := by simp [unread, Ring.resize, Lag.none]
  distance := by simp [gap, Ring.resize, Lag.none]

/-! ## Any operation, and any run -/

/-- Every operation keeps the relation, but for a flush at a lapse. -/
theorem Holds.perform (h : r.Holds q lag) (operation : Operation)
    (hlapse : operation.discards (r.perform operation).1 = true → ¬ lag.Lapses r.capacity) :
    (r.perform operation).2.Holds (q.perform operation).2
      (lag.next operation (r.perform operation).1) := by
  cases operation with
  | push bytes =>
    by_cases hfits : r.Fits bytes
    · have hover : ¬ (r.perform (.push bytes)).1.overran = true :=
        mt (overran_push_iff r bytes).mp (not_not_intro hfits)
      rw [Lag.next, if_neg hover]
      exact h.push hfits
    · have hover : (r.perform (.push bytes)).1.overran = true :=
        (overran_push_iff r bytes).mpr hfits
      rw [Lag.next, if_pos hover]
      exact h.overrun hfits (hlapse hover)
  | flush => exact h.flush (hlapse rfl)
  | fillBuffer buffer => exact h.fillBuffer buffer
  | takeFrame => exact h.takeFrame
  | resize capacity => exact h.resize capacity

theorem Holds.after {w : Watched n} (h : w.ring.Holds q w.lag) {operations : List Operation}
    (hlapse : w.LapseFree operations) :
    (w.after operations).ring.Holds (q.after operations) (w.after operations).lag := by
  induction operations generalizing w q with
  | nil => exact h
  | cons operation rest ih =>
    obtain ⟨hhead, hrest⟩ := Watched.lapseFree_cons.mp hlapse
    exact ih (h.perform operation hhead) hrest

/-- Ring and queue answer alike, while the overruns fit their counter. -/
theorem Holds.answer (h : r.Holds q lag) (operation : Operation)
    (hover : (q.perform operation).2.overruns < Word.bound 32) :
    (r.perform operation).1 = (q.perform operation).1 := by
  cases operation with
  | push bytes =>
    by_cases hfits : r.Fits bytes
    · have hq : (q.push bytes).1 = .stored := by
        rw [ByteQueue.push, if_pos ((h.fits_iff bytes).mp hfits)]
      show Answer.pushed (r.push bytes).1 = .pushed (.ok (q.push bytes).1)
      rw [push_fst_of_fits hfits, hq]
    · have hq : q.push bytes = (.overrun, { q.flush with overruns := q.overruns + 1 }) := by
        rw [ByteQueue.push, if_neg (mt (h.fits_iff bytes).mpr hfits)]
      have hcount : q.overruns + 1 < Word.bound 32 := by
        have hsnd : (q.push bytes).2.overruns < Word.bound 32 := hover
        rw [hq] at hsnd
        exact hsnd
      have hword : r.overruns.toNat = q.overruns := by
        rw [h.overruns, UInt32.toNat_ofNat']
        exact Nat.mod_eq_of_lt (Nat.lt_of_succ_lt hcount)
      show Answer.pushed (r.push bytes).1 = .pushed (.ok (q.push bytes).1)
      rw [push_of_not_fits hfits, hq, hword, Word.add_of_lt hcount]
      rfl
  | flush => rfl
  | fillBuffer buffer =>
    obtain ⟨hcomplete, hbuffer⟩ := h.fillBuffer_answer buffer
    show Answer.filled (r.fillBuffer buffer).1 (r.fillBuffer buffer).2.1
      = Answer.filled (q.fillBuffer buffer).1 (q.fillBuffer buffer).2.1
    rw [hcomplete, hbuffer]
  | takeFrame => exact congrArg Answer.frame h.takeFrame_fst
  | resize capacity => rfl

theorem overran_fillBuffer (r : Ring n) (buffer : List UInt8) :
    (r.perform (.fillBuffer buffer)).1.overran = false := by
  show (Answer.filled (r.fillBuffer buffer).1 (r.fillBuffer buffer).2.1).overran = false
  rfl

/-- The queue counts the packets that the ring turns away. -/
theorem Holds.overruns_perform (h : r.Holds q lag) (operation : Operation) :
    (q.perform operation).2.overruns
      = q.overruns + if (r.perform operation).1.overran then 1 else 0 := by
  cases operation with
  | push bytes =>
    show (q.push bytes).2.overruns = _
    rw [ByteQueue.push]
    by_cases hfits : r.Fits bytes
    · have hover : ¬ (r.perform (.push bytes)).1.overran = true :=
        mt (overran_push_iff r bytes).mp (not_not_intro hfits)
      rw [if_pos ((h.fits_iff bytes).mp hfits), if_neg hover]
      rfl
    · have hover : (r.perform (.push bytes)).1.overran = true :=
        (overran_push_iff r bytes).mpr hfits
      rw [if_neg (mt (h.fits_iff bytes).mpr hfits), if_pos hover]
  | flush => rfl
  | fillBuffer buffer => exact (overran_fillBuffer r buffer) ▸ q.overruns_fillBuffer buffer
  | takeFrame => exact q.overruns_takeFrame
  | resize capacity => rfl

/-- Ring and queue give the same answers to every sequence free of lapses, while the overruns fit
their counter. -/
theorem Holds.answers {w : Watched n} (h : w.ring.Holds q w.lag) {operations : List Operation}
    (hlapse : w.LapseFree operations)
    (hover : q.overruns + (w.ring.answers operations).countP Answer.overran < Word.bound 32) :
    w.ring.answers operations = q.answers operations
      ∧ (q.after operations).overruns < Word.bound 32 := by
  induction operations generalizing w q with
  | nil => exact ⟨rfl, hover⟩
  | cons operation rest ih =>
    obtain ⟨hhead, hrest⟩ := Watched.lapseFree_cons.mp hlapse
    have hcount : (q.perform operation).2.overruns
        + ((w.ring.perform operation).2.answers rest).countP Answer.overran < Word.bound 32 := by
      rw [answers_cons, List.countP_cons] at hover
      rw [h.overruns_perform operation]
      omega
    have hanswer := h.answer operation (Nat.lt_of_le_of_lt (Nat.le_add_right _ _) hcount)
    obtain ⟨hanswers, hbound⟩ := ih (h.perform operation hhead) hrest hcount
    refine ⟨?_, hbound⟩
    rw [answers_cons, ByteQueue.answers_cons, hanswer]
    exact congrArg _ hanswers

/-! ## A ring and a queue from the start -/

/-- As long as fewer than 65536 flushes are missed in a row, no more waits in a new ring than it
holds. -/
theorem sound_of_missed (h : 0 < n) {operations : List Operation}
    (hmissed : ∀ before, before <+: operations →
      ((Watched.empty n h).after before).lag.missed < 65536) :
    ((empty n h).after operations).Sound := by
  have hstart : (Watched.empty n h).ring.Holds (ByteQueue.empty n) (Watched.empty n h).lag :=
    holds_empty h
  have hend := hstart.after (Watched.lapseFree_of_missed hmissed)
  rw [Watched.after_ring] at hend
  exact hend.sound

/-- A new ring cannot be told from a new queue by any sequence of operations in which fewer than
65536 flushes are missed in a row and fewer than 2^32 packets are turned away: the answers are the
same, and at the end so is everything that can be read off the two. -/
theorem answers_eq_queue (h : 0 < n) (operations : List Operation)
    (hmissed : ∀ before, before <+: operations →
      ((Watched.empty n h).after before).lag.missed < 65536)
    (hover : ((empty n h).answers operations).countP Answer.overran < Word.bound 32) :
    (empty n h).answers operations = (ByteQueue.empty n).answers operations
      ∧ ((empty n h).after operations).gauge = ((ByteQueue.empty n).after operations).gauge := by
  have hstart : (Watched.empty n h).ring.Holds (ByteQueue.empty n) (Watched.empty n h).lag :=
    holds_empty h
  have hlapse := Watched.lapseFree_of_missed hmissed
  obtain ⟨hanswers, hbound⟩ := hstart.answers hlapse (by
    rw [show (ByteQueue.empty n).overruns = 0 from rfl, Nat.zero_add]
    exact hover)
  have hend := hstart.after hlapse
  rw [Watched.after_ring] at hend
  exact ⟨hanswers, hend.gauge hbound⟩

/-- A run over five bytes that wraps, is overrun, misses two flushes and is resized. -/
theorem answers_eq_queue_wrapped :
    let operations : List Operation :=
      [.push [1, 2, 3], .fillBuffer [0, 0], .push [4, 5, 6, 7], .takeFrame,
        .push [8, 9, 10, 11, 12], .flush, .fillBuffer [0], .resize 2, .push [13]]
    0 < 5
      ∧ (∀ before, before <+: operations →
        ((Watched.empty 5 (by decide)).after before).lag.missed < 65536)
      ∧ ((empty 5 (by decide)).answers operations).countP Answer.overran < Word.bound 32
      ∧ (empty 5 (by decide)).answers operations = (ByteQueue.empty 5).answers operations
      ∧ ((empty 5 (by decide)).after operations).gauge
        = ((ByteQueue.empty 5).after operations).gauge := by
  intro operations
  have hmissed : ∀ before, before <+: operations →
      ((Watched.empty 5 (by decide)).after before).lag.missed < 65536 := by
    intro before hbefore
    have hlength : before.length ≤ 9 := hbefore.length_le
    have hle := (Watched.empty 5 (by decide)).missed_after_le before
    have hnone : (Watched.empty 5 (by decide)).lag.missed = 0 := rfl
    omega
  have hover : ((empty 5 (by decide)).answers operations).countP Answer.overran
      < Word.bound 32 := by decide
  exact ⟨by decide, hmissed, hover, answers_eq_queue (by decide) operations hmissed hover⟩

end PacedAudio.Ring
