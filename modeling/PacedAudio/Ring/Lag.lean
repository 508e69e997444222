/-
# PacedAudio.Ring.Lag — how far a reader is behind

A ring keeps two things about its reader in a circle: the sequence number of the last marker it
has followed, modulo 2^16, and its cursor, modulo twice the capacity. A `Lag` keeps the same two
things without a circle, as counts over the history of the ring. It is bookkeeping beside the
ring: the ring never looks at it.

The two circles close together at a *lapse*: a flush that the reader misses as the 65536th in a
row, or a multiple of it, while its cursor is not level with the head. The marker then bears the
number that the reader has acknowledged already, and the flush is not seen by anyone.
-/

import PacedAudio.Ring.Operation

namespace PacedAudio.Ring

/-- What a ring's history says of its reader. -/
structure Lag where
  /-- Flushes since the reader last looked. -/
  missed : Nat
  /-- Bytes stored that are neither taken nor discarded. -/
  waiting : Nat
  /-- Bytes stored after the place where the reader stopped when it last looked. -/
  distance : Nat
deriving DecidableEq, Repr

namespace Lag

/-- The lag of a ring that is new or resized. -/
def none : Lag := ⟨0, 0, 0⟩

/-- A packet of `count` bytes is appended. -/
def stored (lag : Lag) (count : Nat) : Lag :=
  ⟨lag.missed, lag.waiting + count, lag.distance + count⟩

/-- What waits is discarded. -/
def discarded (lag : Lag) : Lag := ⟨lag.missed + 1, 0, lag.distance⟩

/-- The reader looks, and takes `count` bytes. -/
def taken (lag : Lag) (count : Nat) : Lag := ⟨0, lag.waiting - count, lag.waiting - count⟩

/-- The lag after an operation, by its answer. -/
def next (lag : Lag) : Operation → Answer → Lag
  | .push bytes, answer => if answer.overran then lag.discarded else lag.stored bytes.length
  | .flush, _ => lag.discarded
  | .fillBuffer _, answer => lag.taken answer.drained.length
  | .takeFrame, answer => lag.taken answer.drained.length
  | .resize _, _ => none

/-- The next flush would go unseen, in a ring of that capacity. -/
def Lapses (lag : Lag) (capacity : Nat) : Prop :=
  65536 ∣ lag.missed + 1 ∧ ¬ 2 * capacity ∣ lag.distance

instance (lag : Lag) (capacity : Nat) : Decidable (lag.Lapses capacity) :=
  inferInstanceAs (Decidable (_ ∧ _))

theorem missed_next_of_discards {lag : Lag} {operation : Operation} {answer : Answer}
    (h : operation.discards answer = true) :
    (lag.next operation answer).missed = lag.missed + 1 := by
  cases operation with
  | push bytes =>
    have hover : answer.overran = true := h
    rw [next, if_pos hover]
    rfl
  | flush => rfl
  | fillBuffer buffer => cases h
  | takeFrame => cases h
  | resize capacity => cases h

theorem missed_next_le (lag : Lag) (operation : Operation) (answer : Answer) :
    (lag.next operation answer).missed ≤ lag.missed + 1 := by
  cases operation with
  | push bytes =>
    rw [next]
    split
    · exact Nat.le_refl _
    · exact Nat.le_succ _
  | flush => exact Nat.le_refl _
  | fillBuffer buffer => exact Nat.zero_le _
  | takeFrame => exact Nat.zero_le _
  | resize capacity => exact Nat.zero_le _

/-- While fewer than 65536 flushes are missed, every flush is seen. -/
theorem not_lapses_of_missed {lag : Lag} (h : lag.missed + 1 < 65536) (capacity : Nat) :
    ¬ lag.Lapses capacity :=
  fun hlapse => Nat.not_dvd_of_pos_of_lt (Nat.succ_pos _) h hlapse.1

end Lag

/-- A ring with the lag of its reader. -/
structure Watched (n : Nat) where
  ring : Ring n
  lag : Lag

namespace Watched

variable {n : Nat}

/-- An empty ring, watched from the start. -/
def empty (n : Nat) (h : 0 < n) : Watched n := ⟨Ring.empty n h, Lag.none⟩

/-- Performs an operation and keeps the lag up to date. -/
def perform (w : Watched n) (operation : Operation) : Answer × Watched n :=
  let (answer, ring) := w.ring.perform operation
  (answer, ⟨ring, w.lag.next operation answer⟩)

/-- The ring and the lag after a sequence of operations. -/
def after (w : Watched n) (operations : List Operation) : Watched n :=
  (run perform w operations).2

@[simp] theorem after_nil (w : Watched n) : w.after [] = w := rfl

@[simp] theorem after_cons (w : Watched n) (operation : Operation) (rest : List Operation) :
    w.after (operation :: rest) = (w.perform operation).2.after rest :=
  rfl

theorem after_append (w : Watched n) (first second : List Operation) :
    w.after (first ++ second) = (w.after first).after second := by
  simp only [after, run_append]

/-- Watching changes nothing. -/
theorem after_ring (w : Watched n) (operations : List Operation) :
    (w.after operations).ring = w.ring.after operations := by
  induction operations generalizing w with
  | nil => rfl
  | cons operation rest ih => exact ih (w.perform operation).2

/-- No more flushes are missed than there are operations. -/
theorem missed_after_le (w : Watched n) (operations : List Operation) :
    (w.after operations).lag.missed ≤ w.lag.missed + operations.length := by
  induction operations generalizing w with
  | nil => exact Nat.le_refl _
  | cons operation rest ih =>
    have hstep : (w.perform operation).2.lag.missed ≤ w.lag.missed + 1 :=
      w.lag.missed_next_le operation _
    have hrest := ih (w.perform operation).2
    rw [after_cons, List.length_cons]
    omega

/-- A short sequence misses few flushes. -/
theorem missed_lt_of_length (h : 0 < n) {operations : List Operation}
    (hlength : operations.length < 65536) :
    ∀ before, before <+: operations → ((empty n h).after before).lag.missed < 65536 := by
  intro before hbefore
  have hle := (empty n h).missed_after_le before
  have hshort := hbefore.length_le
  have hnone : (empty n h).lag.missed = 0 := rfl
  omega

/-- No flush of a sequence of operations falls on a lapse. -/
def LapseFree (w : Watched n) (operations : List Operation) : Prop :=
  ∀ before operation later, operations = before ++ operation :: later →
    operation.discards ((w.after before).ring.perform operation).1 = true →
    ¬ (w.after before).lag.Lapses (w.after before).ring.capacity

theorem lapseFree_cons {w : Watched n} {operation : Operation} {rest : List Operation} :
    w.LapseFree (operation :: rest)
      ↔ (operation.discards (w.ring.perform operation).1 = true →
          ¬ w.lag.Lapses w.ring.capacity)
        ∧ (w.perform operation).2.LapseFree rest := by
  constructor
  · intro h
    exact ⟨h [] operation rest rfl,
      fun before next later heq => h (operation :: before) next later (by rw [heq]; rfl)⟩
  · rintro ⟨hhead, hrest⟩ before next later heq hdiscards
    cases before with
    | nil =>
      obtain ⟨rfl, rfl⟩ := List.cons.inj heq
      exact hhead hdiscards
    | cons first before =>
      obtain ⟨rfl, hlater⟩ := List.cons.inj heq
      exact hrest before next later hlater hdiscards

/-- A sequence in which fewer than 65536 flushes are ever missed is free of lapses. -/
theorem lapseFree_of_missed {w : Watched n} {operations : List Operation}
    (h : ∀ before, before <+: operations → (w.after before).lag.missed < 65536) :
    w.LapseFree operations := by
  intro before operation later heq hdiscards
  have hnext := h (before ++ [operation]) ⟨later, by simp [heq]⟩
  rw [after_append] at hnext
  refine Lag.not_lapses_of_missed (Nat.lt_of_le_of_lt (Nat.le_of_eq ?_) hnext) _
  show _ = ((w.after before).lag.next operation ((w.after before).ring.perform operation).1).missed
  rw [Lag.missed_next_of_discards hdiscards]

end Watched

end PacedAudio.Ring
