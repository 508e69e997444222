/-
# PacedAudio.Proofs.Ring.Flushing — when a flush empties the ring

`FlushesEmpty` says what a flush is for: the ring is empty right after it, nothing that was stored
before it comes out afterwards, and never do more bytes wait than the ring has room for. A run
keeps to it exactly if it has no lapse (`flushesEmpty_iff_lapseFree`): no flush that the reader
misses as the 65536th in a row, or a multiple of it, while the bytes stored since it last looked
are not a multiple of twice the capacity.

Lapses are real. After 65536 flushes in a row everything that they should have discarded is back
(`not_flushesEmpty_of_65536_flushes`).
-/

import PacedAudio.Proofs.Ring.Refinement

namespace PacedAudio.Ring

variable {n : Nat} {r : Ring n} {q : ByteQueue} {lag : Lag}

/-- What is expected of the flushes of a run, and of the room that is left at any time. A packet
that does not fit counts as a flush. -/
structure FlushesEmpty (r : Ring n) (operations : List Operation) : Prop where
  bounded : ∀ before, before <+: operations →
    (r.after before).fill ≤ (r.after before).capacity
      ∧ (r.after before).room = .ok ((r.after before).capacity - (r.after before).fill)
  emptied : ∀ before operation later, operations = before ++ operation :: later →
    operation.discards ((r.after before).perform operation).1 = true →
    ((r.after before).perform operation).2.fill = 0
      ∧ ((r.after before).perform operation).2.room
        = .ok ((r.after before).perform operation).2.capacity
      ∧ (((r.after before).perform operation).2.drained later).Sublist
        (((r.after before).perform operation).2.stored later)

/-! ## What a run without a lapse brings out -/

theorem Holds.drained_perform (h : r.Holds q lag) (operation : Operation) :
    (r.perform operation).1.drained = (q.perform operation).1.drained := by
  cases operation with
  | push bytes => rfl
  | flush => rfl
  | fillBuffer buffer =>
    obtain ⟨hcomplete, hbuffer⟩ := h.fillBuffer_answer buffer
    show (Answer.filled (r.fillBuffer buffer).1 (r.fillBuffer buffer).2.1).drained
      = (Answer.filled (q.fillBuffer buffer).1 (q.fillBuffer buffer).2.1).drained
    rw [hcomplete, hbuffer]
  | takeFrame =>
    show (Answer.frame r.takeFrame.1).drained = (Answer.frame q.takeFrame.1).drained
    rw [h.takeFrame_fst]
  | resize capacity => rfl

theorem Holds.stored_perform (h : r.Holds q lag) (operation : Operation) :
    operation.stored (r.perform operation).1 = operation.stored (q.perform operation).1 := by
  cases operation with
  | push bytes =>
    show (Operation.push bytes).stored (.pushed (r.push bytes).1)
      = (Operation.push bytes).stored (.pushed (.ok (q.push bytes).1))
    rw [ByteQueue.push]
    by_cases hfits : r.Fits bytes
    · rw [push_fst_of_fits hfits, if_pos ((h.fits_iff bytes).mp hfits)]
    · rw [push_of_not_fits hfits, if_neg (mt (h.fits_iff bytes).mpr hfits)]
      -- a packet that is turned away puts nothing in, whether or not its count fits the counter
      cases Word.add 32 r.overruns.toNat 1 <;> rfl
  | flush => rfl
  | fillBuffer buffer => rfl
  | takeFrame => rfl
  | resize capacity => rfl

/-- Whatever comes out of the ring waited in it at the start or was put in since, and comes out in
the order in which it went in, each byte at most once. -/
theorem Holds.drained_sublist {w : Watched n} (h : w.ring.Holds q w.lag)
    {operations : List Operation} (hlapse : w.LapseFree operations) :
    (w.ring.drained operations).Sublist (q.bytes ++ w.ring.stored operations) := by
  induction operations generalizing w q with
  | nil => exact List.nil_sublist _
  | cons operation rest ih =>
    obtain ⟨hhead, hrest⟩ := Watched.lapseFree_cons.mp hlapse
    have hflow := q.flow operation
    rw [← h.drained_perform operation, ← h.stored_perform operation] at hflow
    have hlater := ih (h.perform operation hhead) hrest
    rw [drained_cons, stored_cons, ← List.append_assoc]
    refine (List.Sublist.append_left hlater _).trans ?_
    rw [← List.append_assoc]
    exact hflow.append_right _

/-! ## A flush at a lapse, and one at none -/

theorem fill_perform_of_discards {operation : Operation}
    (h : operation.discards (r.perform operation).1 = true) :
    (r.perform operation).2.fill = r.flush.fill := by
  cases operation with
  | push bytes =>
    show (r.push bytes).2.fill = r.flush.fill
    rw [push_of_not_fits ((overran_push_iff r bytes).mp h)]
    rfl
  | flush => rfl
  | fillBuffer buffer => cases h
  | takeFrame => cases h
  | resize capacity => cases h

/-- A flush empties the ring exactly if it does not fall on a lapse. -/
theorem Holds.fill_perform_eq_zero_iff (h : r.Holds q lag) {operation : Operation}
    (hdiscards : operation.discards (r.perform operation).1 = true) :
    (r.perform operation).2.fill = 0 ↔ ¬ lag.Lapses r.capacity := by
  rw [fill_perform_of_discards hdiscards]
  exact h.fill_flush_eq_zero_iff

theorem Holds.bytes_of_discards (h : r.Holds q lag) {operation : Operation}
    (hdiscards : operation.discards (r.perform operation).1 = true) :
    (q.perform operation).2.bytes = [] := by
  cases operation with
  | push bytes =>
    have hfits := (overran_push_iff r bytes).mp hdiscards
    show (q.push bytes).2.bytes = []
    rw [ByteQueue.push, if_neg (mt (h.fits_iff bytes).mpr hfits)]
    rfl
  | flush => rfl
  | fillBuffer buffer => cases hdiscards
  | takeFrame => cases hdiscards
  | resize capacity => cases hdiscards

theorem Holds.room (h : r.Holds q lag) : r.room = .ok (r.capacity - r.fill) :=
  Word.sub_of_le h.sound

/-! ## Runs -/

theorem Watched.LapseFree.of_append {w : Watched n} {first second : List Operation}
    (h : w.LapseFree (first ++ second)) : w.LapseFree first := by
  rintro before operation later rfl
  exact h before operation (later ++ second) (by simp)

/-- A run that starts from a queue's ring and has no lapse keeps to `FlushesEmpty`. -/
theorem Holds.flushesEmpty {w : Watched n} (h : w.ring.Holds q w.lag)
    {operations : List Operation} (hlapse : w.LapseFree operations) :
    w.ring.FlushesEmpty operations where
  bounded := by
    rintro before ⟨later, rfl⟩
    have hbefore := h.after hlapse.of_append
    rw [Watched.after_ring] at hbefore
    exact ⟨hbefore.sound, hbefore.room⟩
  emptied := by
    rintro before operation later rfl hdiscards
    have hat := h.after hlapse.of_append
    rw [← Watched.after_ring] at hdiscards ⊢
    have hnone := hlapse before operation later rfl hdiscards
    have hnext := hat.perform operation fun _ => hnone
    have hfill := (hat.fill_perform_eq_zero_iff hdiscards).mpr hnone
    refine ⟨hfill, ?_, ?_⟩
    · rw [hnext.room, hfill, Nat.sub_zero]
    · -- what comes out later was put in later, since the queue is empty here
      have hlater : ((w.after before).perform operation).2.LapseFree later := by
        rintro before' operation' later' rfl
        have hsplit := hlapse (before ++ operation :: before') operation' later' (by simp)
        rw [Watched.after_append] at hsplit
        exact hsplit
      have hsub := Holds.drained_sublist (w := ((w.after before).perform operation).2) hnext hlater
      rw [hat.bytes_of_discards hdiscards] at hsub
      exact hsub

/-- A run that keeps to `FlushesEmpty` has no lapse: at the first one the ring would not be
empty. -/
theorem Holds.lapseFree {w : Watched n} (h : w.ring.Holds q w.lag)
    {operations : List Operation}
    (hempty : ∀ before operation later, operations = before ++ operation :: later →
      operation.discards ((w.ring.after before).perform operation).1 = true →
      ((w.ring.after before).perform operation).2.fill = 0) :
    w.LapseFree operations := by
  induction operations generalizing w q with
  | nil =>
    intro before operation later heq
    simp at heq
  | cons operation rest ih =>
    have hhead : operation.discards (w.ring.perform operation).1 = true →
        ¬ w.lag.Lapses w.ring.capacity := fun hdiscards =>
      (h.fill_perform_eq_zero_iff hdiscards).mp (hempty [] operation rest rfl hdiscards)
    refine Watched.lapseFree_cons.mpr ⟨hhead, ih (h.perform operation hhead) ?_⟩
    intro before next later heq
    exact hempty (operation :: before) next later (by rw [heq]; rfl)

/-- From a new ring, flushes do what is expected of them in exactly the runs without a lapse. -/
theorem flushesEmpty_iff_lapseFree (h : 0 < n) (operations : List Operation) :
    (empty n h).FlushesEmpty operations ↔ (Watched.empty n h).LapseFree operations := by
  have hstart : (Watched.empty n h).ring.Holds (ByteQueue.empty n) (Watched.empty n h).lag :=
    holds_empty h
  constructor
  · intro hempty
    exact hstart.lapseFree fun before operation later heq hdiscards =>
      (hempty.emptied before operation later heq hdiscards).1
  · intro hlapse
    exact hstart.flushesEmpty hlapse

/-- Two flushes in a row, one of them by a packet that does not fit, over three bytes. -/
theorem flushesEmpty_twice :
    0 < 3
      ∧ (empty 3 (by decide)).FlushesEmpty
        [.push [1, 2], .push [3, 4], .flush, .push [5, 6, 7], .fillBuffer [0, 0]] := by
  refine ⟨by decide, (flushesEmpty_iff_lapseFree (by decide) _).mpr ?_⟩
  refine Watched.lapseFree_of_missed fun before hbefore => ?_
  have hlength : before.length ≤ 5 := hbefore.length_le
  have hle := (Watched.empty 3 (by decide)).missed_after_le before
  have hnone : (Watched.empty 3 (by decide)).lag.missed = 0 := rfl
  omega

/-! ## A lapse -/

theorem after_flushes (w : Watched n) (count : Nat) :
    (w.after (List.replicate count .flush)).lag.missed = w.lag.missed + count
      ∧ (w.after (List.replicate count .flush)).lag.distance = w.lag.distance
      ∧ (w.after (List.replicate count .flush)).ring.capacity = w.ring.capacity := by
  induction count generalizing w with
  | zero => exact ⟨rfl, rfl, rfl⟩
  | succ count ih =>
    obtain ⟨hmissed, hdistance, hcapacity⟩ := ih (w.perform .flush).2
    refine ⟨?_, hdistance, hcapacity⟩
    rw [List.replicate_succ, Watched.after_cons, hmissed]
    show w.lag.missed + 1 + count = w.lag.missed + (count + 1)
    omega

/-- After a packet of four bytes, 65536 flushes in a row do not empty sixteen bytes: the last of
them falls on a lapse. -/
theorem not_flushesEmpty_of_65536_flushes :
    ¬ (empty 16 (by decide)).FlushesEmpty
      (.push [1, 2, 3, 4] :: List.replicate 65536 .flush) := by
  intro hempty
  have hstart : (Watched.empty 16 (by decide)).ring.Holds (ByteQueue.empty 16)
      (Watched.empty 16 (by decide)).lag := holds_empty (by decide)
  have hlapse := hstart.lapseFree fun before operation later heq hdiscards =>
    (hempty.emptied before operation later heq hdiscards).1
  -- the packet is four bytes away from the reader, and so is the head at every flush
  have hlag : ((Watched.empty 16 (by decide)).perform (.push [1, 2, 3, 4])).2.lag = ⟨0, 4, 4⟩ := by
    decide
  have hring : ((Watched.empty 16 (by decide)).perform (.push [1, 2, 3, 4])).2.ring.capacity
      = 16 := by
    decide
  obtain ⟨hmissed, hdistance, hcapacity⟩ :=
    after_flushes ((Watched.empty 16 (by decide)).perform (.push [1, 2, 3, 4])).2 65535
  refine hlapse (.push [1, 2, 3, 4] :: List.replicate 65535 .flush) .flush [] ?_ rfl ⟨?_, ?_⟩
  · rw [List.cons_append, ← List.replicate_succ']
  · rewrite [Watched.after_cons, hmissed, hlag]
    decide
  · rewrite [Watched.after_cons, hdistance, hcapacity, hlag, hring]
    decide

end PacedAudio.Ring
