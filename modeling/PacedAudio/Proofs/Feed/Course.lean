/-
# PacedAudio.Proofs.Feed.Course — an interrupted refill, step by step

`refill` is one function, but what it does to a feed is a sequence of small steps: a look at the
queue, a frame sent, a change of speed, and between any two of them whatever the host's interrupt
brings. `Feed.Step` lists those steps with the events that they make, and a refill under the
reaction `interrupted` is a `Course` of them (`refill_course`). So what every step keeps, a refill
keeps, wherever it is interrupted.
-/

import PacedAudio.Feed.Arrival

namespace PacedAudio

/-! ## Courses -/

/-- A sequence of steps from one state to another, with all of their events in order. -/
inductive Course {σ : Type} (Step : σ → List Event → σ → Prop) : σ → List Event → σ → Prop where
  | refl (s : σ) : Course Step s [] s
  | tail {s t u : σ} {events more : List Event} (h : Course Step s events t)
      (step : Step t more u) : Course Step s (events ++ more) u

namespace Course

variable {σ τ : Type} {Step : σ → List Event → σ → Prop} {s t u : σ} {events more : List Event}

theorem single (step : Step s events t) : Course Step s events t := (refl s).tail step

theorem trans (h : Course Step s events t) (h' : Course Step t more u) :
    Course Step s (events ++ more) u := by
  -- Courses grow at their end, so the induction is on the later one.
  induction h' with
  | refl => rwa [List.append_nil]
  | tail _ step ih =>
    rw [← List.append_assoc]
    exact ih.tail step

/-- What holds at the start and is kept by every step, with the events so far, holds at the end. -/
theorem invariant (Holds : List Event → σ → Prop) (h : Course Step s events t)
    (hstart : Holds [] s)
    (hstep : ∀ events t more u, Holds events t → Step t more u → Holds (events ++ more) u) :
    Holds events t := by
  induction h with
  | refl => exact hstart
  | tail _ step ih => exact hstep _ _ _ _ ih step

/-- Seen in a larger state, a course is one of the steps that its own steps are there. -/
theorem map {Step' : τ → List Event → τ → Prop} (h : Course Step s events t) (f : σ → τ)
    (hstep : ∀ s events t, Step s events t → Step' (f s) events (f t)) :
    Course Step' (f s) events (f t) := by
  induction h with
  | refl => exact refl (f s)
  | tail _ step ih => exact ih.tail (hstep _ _ _ step)

end Course

namespace Feed

variable {n : Nat} {divider : Divider} {marks : Watermarks}

/-! ## The steps of a feed -/

/-- The next speed by the fill of the ring, and the change that leads to it. -/
def look (f : Feed n) (marks : Watermarks) : Speed × SpeedChange :=
  marks.next f.pacer.speed f.ring.fill

/-- The next speed in force, with its change counted. -/
def paced (f : Feed n) (marks : Watermarks) : Feed n :=
  { f with pacer := { f.pacer.count (f.look marks).2 with speed := (f.look marks).1 } }

/-- The speed that is held is the one in force, and no change is counted. -/
theorem paced_of_hold {f : Feed n} (h : (f.look marks).2 = .hold) : f.paced marks = f := by
  have hspeed : (f.look marks).1 = f.pacer.speed := Watermarks.next_hold_iff.mp h
  rw [paced, h, hspeed]
  rfl

/-- What can happen to the feed of a stream that is playing. -/
inductive Step (divider : Divider) (marks : Watermarks) :
    Feed n → List Event → Feed n → Prop where
  /-- Something arrives, between two calls or in the middle of one. -/
  | arrive (f : Feed n) (arrival : Arrival) :
      Step divider marks f [(f.arrive arrival).1] (f.arrive arrival).2
  /-- The refill asks for the level of the queue. -/
  | look (f : Feed n) : Step divider marks f [.call .queued] f
  /-- The refill takes a frame from the ring and sends it. -/
  | send (f : Feed n) :
      Step divider marks f [.call (.send f.takeFrame.1.value)] f.takeFrame.2
  /-- The refill changes the speed. -/
  | change (f : Feed n) (h : (f.look marks).2 ≠ .hold) :
      Step divider marks f
        [.call (.program divider.prescaler (divider.ratio (f.look marks).1))] (f.paced marks)

/-! ## Arrivals -/

/-- What arrives neither looks at the pacer nor changes it. -/
theorem arriveAll_repaced (arrivals : List Arrival) (f : Feed n) (pacer : Pacer)
    (events : List Event) :
    arriveAll arrivals ({ f with pacer := pacer }, events)
      = ({ (arriveAll arrivals (f, events)).1 with pacer := pacer },
          (arriveAll arrivals (f, events)).2) := by
  induction arrivals generalizing f events with
  | nil => rfl
  | cons arrival rest ih =>
    cases arrival with
    | packet bytes => exact ih (f.push bytes).2 _
    | boundary => exact ih f.flush _

theorem arriveAll_cons (arrival : Arrival) (rest : List Arrival) (f : Feed n)
    (events : List Event) :
    arriveAll (arrival :: rest) (f, events)
      = arriveAll rest ((f.arrive arrival).2, events ++ [(f.arrive arrival).1]) :=
  rfl

theorem arriveAll_course (divider : Divider) (marks : Watermarks) (arrivals : List Arrival)
    (f : Feed n) (events : List Event) :
    ∃ more, (arriveAll arrivals (f, events)).2 = events ++ more
      ∧ Course (Step divider marks) f more (arriveAll arrivals (f, events)).1 := by
  induction arrivals generalizing f events with
  | nil => exact ⟨[], (List.append_nil events).symm, .refl f⟩
  | cons arrival rest ih =>
    obtain ⟨more, hevents, hcourse⟩ := ih (f.arrive arrival).2 (events ++ [(f.arrive arrival).1])
    refine ⟨(f.arrive arrival).1 :: more, ?_, ?_⟩
    · rw [arriveAll_cons, hevents, List.append_assoc]
      rfl
    · rw [arriveAll_cons]
      exact (Course.single (.arrive f arrival)).trans hcourse

/-! ## The refill -/

/-- One state of a refill leads to another by a course of steps, and the record notes their
events. -/
def Leads (divider : Divider) (marks : Watermarks) (state later : Feed n × Record) : Prop :=
  ∃ events, later.2.events = state.2.events ++ events
    ∧ Course (Step divider marks) state.1 events later.1

theorem Leads.refl (state : Feed n × Record) : Leads divider marks state state :=
  ⟨[], (List.append_nil _).symm, .refl _⟩

theorem Leads.trans {first second third : Feed n × Record} (h : Leads divider marks first second)
    (h' : Leads divider marks second third) : Leads divider marks first third := by
  obtain ⟨events, hevents, hcourse⟩ := h
  obtain ⟨more, hmore, hcourse'⟩ := h'
  exact ⟨events ++ more, by rw [hmore, hevents, List.append_assoc], hcourse.trans hcourse'⟩

/-- A step that makes one call, and what is due in that call. -/
theorem interrupted_leads {f g : Feed n} {call : Transmitter.Call}
    (step : Step divider marks f [.call call] g) (record : Record) :
    Leads divider marks (f, record) (interrupted call (g, record)) := by
  obtain ⟨more, hevents, hcourse⟩ :=
    arriveAll_course divider marks (record.due.headD []) g (record.events ++ [.call call])
  -- The call is noted first and then what is due in it.
  refine ⟨[.call call] ++ more, ?_, (Course.single step).trans hcourse⟩
  rw [← List.append_assoc]
  exact hevents

theorem sendFrames_leads (count : Nat) (f : Feed n) (record : Record) :
    Leads divider marks (f, record) (sendFrames interrupted count (f, record)) := by
  induction count generalizing f record with
  | zero => exact .refl _
  | succ count ih => exact (interrupted_leads (.send f) record).trans (ih _ _)

/-- The speed is in force only after the call on the transmitter has returned. As nothing that
arrives looks at the pacer, it may as well be in force before. -/
theorem adjust_interrupted {f : Feed n} (h : (f.look marks).2 ≠ .hold) (record : Record) :
    adjust interrupted divider marks (f, record)
      = interrupted (.program divider.prescaler (divider.ratio (f.look marks).1))
          (f.paced marks, record) := by
  have hhold : ¬ (marks.next f.pacer.speed f.ring.fill).2 = .hold := h
  -- On either side the same things arrive at the same ring, beside a pacer of its own.
  simp only [adjust, if_neg hhold, interrupted, paced, look, arriveAll_repaced]

theorem adjust_leads (f : Feed n) (record : Record) :
    Leads divider marks (f, record) (adjust interrupted divider marks (f, record)) := by
  by_cases h : (f.look marks).2 = .hold
  · rw [adjust_of_hold interrupted divider h]
    exact .refl _
  · rw [adjust_interrupted h]
    exact interrupted_leads (.change f h) record

theorem refill_leads (divider : Divider) (marks : Watermarks) (level : Nat) (f : Feed n)
    (record : Record) :
    Leads divider marks (f, record) (refill interrupted level divider marks (f, record)).2 := by
  have hlook : Leads divider marks (f, record) (interrupted .queued (f, record)) :=
    interrupted_leads (.look f) record
  rcases Nat.lt_or_ge Transmitter.refillLevel level with hlevel | hlevel
  · rw [refill_of_lt interrupted hlevel]
    exact hlook
  · rw [refill_of_le interrupted hlevel]
    exact (hlook.trans (sendFrames_leads _ _ _)).trans (adjust_leads _ _)

/-- A refill is a course of steps, whatever is due in its calls. -/
theorem refill_course (level : Nat) (f : Feed n) (due : List (List Arrival)) :
    Course (Step divider marks) f (refill interrupted level divider marks (f, ⟨due, []⟩)).2.2.events
      (refill interrupted level divider marks (f, ⟨due, []⟩)).2.1 := by
  obtain ⟨events, hevents, hcourse⟩ := refill_leads divider marks level f ⟨due, []⟩
  rw [hevents]
  exact hcourse

end Feed

end PacedAudio
