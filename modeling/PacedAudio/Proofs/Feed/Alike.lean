/-
# PacedAudio.Proofs.Feed.Alike — alike feeds served alike

Two feeds whose rings are alike, at the same speed, stay so through whatever arrives and through
every refill, and show the same events. Only their counters may differ, and then by as much as
before (`Lead`). If one of the two overrun counters is full, its next overrun is a fault and the
other's is not; `Event.plain` takes one for the other.
-/

import PacedAudio.Proofs.Feed.Course
import PacedAudio.Proofs.Ring.Alike
import PacedAudio.Session.Trace

namespace PacedAudio

variable {n : Nat}

/-! ## How far counters differ -/

/-- How far the counters of one session are ahead of another's, modulo 2^32. -/
structure Lead where
  overruns : UInt32
  underruns : UInt32
  speedUps : UInt32
  slowDowns : UInt32
deriving DecidableEq, Repr

/-- How far the second status is ahead of the first. -/
def Status.lead (first second : Status) : Lead where
  overruns := second.overruns - first.overruns
  underruns := second.underruns - first.underruns
  speedUps := second.speedUps - first.speedUps
  slowDowns := second.slowDowns - first.slowDowns

namespace Feed

variable {f f' : Feed n} {ahead : Lead}

/-- How far the counters of the second feed are ahead of those of the first. -/
def lead (f f' : Feed n) : Lead where
  overruns := f'.ring.overruns - f.ring.overruns
  underruns := f'.ring.underruns - f.ring.underruns
  speedUps := f'.pacer.speedUps - f.pacer.speedUps
  slowDowns := f'.pacer.slowDowns - f.pacer.slowDowns

/-! ## Alike feeds -/

/-- Nothing but the counters and bytes that have not been stored tell the two feeds apart, and the
counters are a constant apart. -/
structure Alike (ahead : Lead) (f f' : Feed n) : Prop where
  ring : f.ring.Alike f'.ring
  speed : f'.pacer.speed = f.pacer.speed
  lead_eq : f.lead f' = ahead

theorem Alike.restart (f f' : Feed n) (capacity : Nat) :
    Alike (f.lead f') (f.restart capacity) (f'.restart capacity) where
  ring := Ring.Alike.resize f.ring f'.ring capacity
  speed := rfl
  lead_eq := rfl

/-! ## Arrivals -/

/-- The same becomes of a packet in either ring, unless it is one overrun too many for one of
them. -/
theorem plain_push {r r' : Ring n} (h : r.Alike r') (bytes : List UInt8) :
    (Event.packet bytes (r'.push bytes).1).plain = (Event.packet bytes (r.push bytes).1).plain := by
  by_cases hfits : r.Fits bytes
  · rw [Ring.push_fst_of_fits hfits, Ring.push_fst_of_fits ((h.fits_iff bytes).mpr hfits)]
  · rw [Ring.push_of_not_fits hfits, Ring.push_of_not_fits (mt (h.fits_iff bytes).mp hfits)]
    cases Word.add 32 r.overruns.toNat 1 <;> cases Word.add 32 r'.overruns.toNat 1 <;> rfl

theorem Alike.push (h : Alike ahead f f') (bytes : List UInt8) :
    Alike ahead (f.push bytes).2 (f'.push bytes).2 where
  ring := h.ring.push bytes
  speed := h.speed
  lead_eq := by
    rw [← h.lead_eq]
    simp only [Feed.lead, Feed.push, Ring.overruns_push, Ring.underruns_push, h.ring.fill,
      h.ring.capacity]
    -- Both count an overrun or neither does.
    split
    · congr 1
      grind
    · rfl

theorem Alike.flush (h : Alike ahead f f') : Alike ahead f.flush f'.flush where
  ring := h.ring.flush
  speed := h.speed
  lead_eq := h.lead_eq

theorem Alike.arrive (h : Alike ahead f f') (arrival : Arrival) :
    (f'.arrive arrival).1.plain = (f.arrive arrival).1.plain
      ∧ Alike ahead (f.arrive arrival).2 (f'.arrive arrival).2 := by
  cases arrival with
  | packet bytes => exact ⟨plain_push h.ring bytes, h.push bytes⟩
  | boundary => exact ⟨rfl, h.flush⟩

/-! ## Refills -/

theorem Alike.takeFrame (h : Alike ahead f f') :
    f'.takeFrame.1 = f.takeFrame.1 ∧ Alike ahead f.takeFrame.2 f'.takeFrame.2 := by
  obtain ⟨hframe, hring⟩ := h.ring.takeFrame
  refine ⟨hframe, hring, h.speed, ?_⟩
  rw [← h.lead_eq]
  simp only [Feed.lead, Feed.takeFrame, Ring.overruns_takeFrame, Ring.underruns_takeFrame,
    h.ring.fill]
  split
  · congr 1
    grind
  · rfl

/-- Alike feeds count the same change alike. -/
theorem Alike.count (h : Alike ahead f f') (change : SpeedChange) :
    Alike ahead { f with pacer := f.pacer.count change }
      { f' with pacer := f'.pacer.count change } where
  ring := h.ring
  speed := by cases change <;> exact h.speed
  lead_eq := by
    rw [← h.lead_eq]
    cases change with
    | hold => rfl
    | speedUp =>
      simp only [Feed.lead, Pacer.count]
      congr 1
      grind
    | slowDown =>
      simp only [Feed.lead, Pacer.count]
      congr 1
      grind

theorem Alike.setSpeed (h : Alike ahead f f') (speed : Speed) :
    Alike ahead { f with pacer := { f.pacer with speed := speed } }
      { f' with pacer := { f'.pacer with speed := speed } } where
  ring := h.ring
  speed := rfl
  lead_eq := h.lead_eq

/-- Alike feeds in the middle of a refill, with the same yet to arrive and the same seen so far. -/
structure Abreast (ahead : Lead) (state state' : Feed n × Record) : Prop where
  feed : Alike ahead state.1 state'.1
  due : state'.2.due = state.2.due
  events : state'.2.events.map Event.plain = state.2.events.map Event.plain

theorem arriveAll_alike (arrivals : List Arrival) (h : Alike ahead f f')
    {events events' : List Event}
    (hevents : events'.map Event.plain = events.map Event.plain) :
    Alike ahead (arriveAll arrivals (f, events)).1 (arriveAll arrivals (f', events')).1
      ∧ (arriveAll arrivals (f', events')).2.map Event.plain
        = (arriveAll arrivals (f, events)).2.map Event.plain := by
  induction arrivals generalizing f f' events events' with
  | nil => exact ⟨h, hevents⟩
  | cons arrival rest ih =>
    obtain ⟨hevent, halike⟩ := h.arrive arrival
    rw [arriveAll_cons, arriveAll_cons]
    apply ih halike
    simp only [List.map_append, List.map_cons, List.map_nil, hevents, hevent]

namespace Abreast

variable {divider : Divider} {marks : Watermarks} {state state' : Feed n × Record}

theorem interrupted (h : Abreast ahead state state') (call : Transmitter.Call) :
    Abreast ahead (Feed.interrupted call state) (Feed.interrupted call state') := by
  have hevents : (state'.2.events ++ [Event.call call]).map Event.plain
      = (state.2.events ++ [Event.call call]).map Event.plain := by
    rw [List.map_append, List.map_append, h.events]
  obtain ⟨halike, hmore⟩ := arriveAll_alike (state.2.due.headD []) h.feed hevents
  simp only [Feed.interrupted, h.due]
  exact ⟨halike, rfl, hmore⟩

theorem sendFrames (h : Abreast ahead state state') (count : Nat) :
    Abreast ahead (Feed.sendFrames Feed.interrupted count state)
      (Feed.sendFrames Feed.interrupted count state') := by
  induction count generalizing state state' with
  | zero => exact h
  | succ count ih =>
    obtain ⟨hframe, halike⟩ := h.feed.takeFrame
    have hsent : Abreast ahead (state.1.takeFrame.2, state.2) (state'.1.takeFrame.2, state'.2) :=
      ⟨halike, h.due, h.events⟩
    simp only [Feed.sendFrames, hframe]
    exact ih (hsent.interrupted _)

theorem adjust (h : Abreast ahead state state') :
    Abreast ahead (Feed.adjust Feed.interrupted divider marks state)
      (Feed.adjust Feed.interrupted divider marks state') := by
  simp only [Feed.adjust, h.feed.speed, h.feed.ring.fill]
  split
  · exact h
  · next hchange =>
    generalize marks.next state.1.pacer.speed state.1.ring.fill = next
    have hcounted : Abreast ahead ({ state.1 with pacer := state.1.pacer.count next.2 }, state.2)
        ({ state'.1 with pacer := state'.1.pacer.count next.2 }, state'.2) :=
      ⟨h.feed.count next.2, h.due, h.events⟩
    have hcalled := hcounted.interrupted (.program divider.prescaler (divider.ratio next.1))
    exact ⟨hcalled.feed.setSpeed next.1, hcalled.due, hcalled.events⟩

theorem refill (h : Abreast ahead state state') (divider : Divider) (marks : Watermarks)
    (level : Nat) :
    (Feed.refill Feed.interrupted level divider marks state').1
        = (Feed.refill Feed.interrupted level divider marks state).1
      ∧ Abreast ahead (Feed.refill Feed.interrupted level divider marks state).2
        (Feed.refill Feed.interrupted level divider marks state').2 := by
  have hasked := h.interrupted .queued
  rcases Nat.lt_or_ge Transmitter.refillLevel level with hlevel | hlevel
  · rw [refill_of_lt _ hlevel, refill_of_lt _ hlevel]
    exact ⟨rfl, hasked⟩
  · rw [refill_of_le _ hlevel, refill_of_le _ hlevel]
    exact ⟨rfl, (hasked.sendFrames _).adjust⟩

end Abreast

end Feed

end PacedAudio
