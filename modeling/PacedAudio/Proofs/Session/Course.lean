/-
# PacedAudio.Proofs.Session.Course — a run of a session, move by move

An operation may do many things to a session, or nothing. `Move` lists what it can do at once: the
three changes to the session as a whole, an arrival at a session that plays nothing, and a step of
the feed of the stream that plays. A run of any operations is a course of moves with the same
events (`course_after`), so a law of runs needs one case for each kind of move.
-/

import PacedAudio.Proofs.Feed.Course
import PacedAudio.Session.Operation

namespace PacedAudio.Session

variable {n : Nat} {s t : Session n} {events : List Event}

/-! ## The moves of a session -/

/-- What can happen to a session at once. -/
inductive Move : Session n → List Event → Session n → Prop where
  /-- A switch that is granted. -/
  | switch {s : Session n} {rate : UInt32} {divider : Divider}
      (h : s.dividerFor? rate = some divider) :
      Move s [.call .stop, .call (.program divider.prescaler divider.nominal), .call .start]
        (s.switchTo rate).session
  | halt (s : Session n) : Move s [.call .stop] s.halt.session
  | install (s : Session n) (table : RateTable) : Move s [] (s.install table)
  /-- Something arrives while no stream plays. -/
  | idle {s : Session n} (h : s.stream = none) (arrival : Arrival) :
      Move s [(s.arrive arrival).1] (s.arrive arrival).2
  /-- A step of the feed while a stream plays. -/
  | play {s : Session n} {stream : Stream} {events : List Event} {feed : Feed n}
      (h : s.stream = some stream)
      (step : Feed.Step stream.divider stream.marks s.feed events feed) :
      Move s events { s with feed := feed }

/-! ## The operations are courses of moves -/

/-- A switch that is granted. -/
theorem switchTo_of_some {rate : UInt32} {divider : Divider}
    (h : s.dividerFor? rate = some divider) :
    (s.switchTo rate).result = .ok ()
      ∧ (s.switchTo rate).calls = [.stop, .program divider.prescaler divider.nominal, .start] := by
  simp only [switchTo, h, and_self]

/-- A switch that is granted has found a divider. -/
theorem dividerFor?_of_granted {rate : UInt32} (h : (s.switchTo rate).result = .ok ()) :
    ∃ divider, s.dividerFor? rate = some divider := by
  cases hdivider : s.dividerFor? rate with
  | none =>
    rw [switchTo_of_none hdivider] at h
    cases h
  | some divider => exact ⟨divider, rfl⟩

/-- The session after a switch that is granted. -/
theorem switchTo_session {rate : UInt32} {divider : Divider}
    (h : s.dividerFor? rate = some divider) :
    (s.switchTo rate).session
      = { s with
          stream := some
            (Stream.ofCapacity rate divider (min (Stream.bufferSize rate s.table.format) n))
          rate := rate
          feed := s.feed.restart (min (Stream.bufferSize rate s.table.format) n) } := by
  simp only [switchTo, h]

theorem course_switchTo (s : Session n) (rate : UInt32) :
    Course Move s ((s.switchTo rate).calls.map .call) (s.switchTo rate).session := by
  cases h : s.dividerFor? rate with
  | none =>
    rw [switchTo_of_none h]
    exact .refl s
  | some divider =>
    rw [(switchTo_of_some h).2]
    exact .single (.switch h)

theorem course_setCurrent (s : Session n) (data : List UInt8) :
    Course Move s ((s.setCurrent data).calls.map .call) (s.setCurrent data).session := by
  rw [setCurrent]
  cases SamplingFrequency.decode data with
  | error e => exact .refl s
  | ok rate => exact course_switchTo s rate

theorem course_answer (s : Session n) (request : HostRequest) (data : Option (List UInt8)) :
    Course Move s ((s.answer request data).calls.map .call) (s.answer request data).session := by
  cases data with
  | none => exact .refl s
  | some bytes =>
    cases request with
    | setCurrent => exact course_setCurrent s bytes
    | getCurrent =>
      rw [answer, getCurrent]
      split
      · exact .refl s
      · exact .refl s

/-- While a stream plays, an arrival is one at its feed. -/
theorem arrive_of_some {stream : Stream} (h : s.stream = some stream) (arrival : Arrival) :
    s.arrive arrival
      = ((s.feed.arrive arrival).1, { s with feed := (s.feed.arrive arrival).2 }) := by
  cases arrival with
  | packet bytes =>
    simp only [arrive, receive, h]
    rfl
  | boundary => rfl

theorem course_arrive (s : Session n) (arrival : Arrival) :
    Course Move s [(s.arrive arrival).1] (s.arrive arrival).2 := by
  cases h : s.stream with
  | none => exact .single (.idle h arrival)
  | some stream =>
    rw [arrive_of_some h]
    exact .single (.play h (.arrive s.feed arrival))

/-- A course of the feed of a stream that plays. -/
theorem course_play {stream : Stream} {feed : Feed n} (h : s.stream = some stream)
    (hcourse : Course (Feed.Step stream.divider stream.marks) s.feed events feed) :
    Course Move s events { s with feed := feed } :=
  -- Nothing but the feed changes, so every state of the feed is one of the same session.
  hcourse.map (fun feed => { s with feed := feed }) fun feed _ _ step =>
    Move.play (s := { s with feed := feed }) h step

/-- While a stream plays, a transmit interrupt refills from its feed. -/
theorem transmit_of_some {σ : Type} (react : Reaction n σ) (level : Nat) {stream : Stream}
    (h : s.stream = some stream) (record : σ) :
    s.transmit react level record
      = ((Feed.refill react level stream.divider stream.marks (s.feed, record)).1,
          { s with feed :=
              (Feed.refill react level stream.divider stream.marks (s.feed, record)).2.1 },
          (Feed.refill react level stream.divider stream.marks (s.feed, record)).2.2) := by
  simp only [transmit, h]

theorem course_transmit (s : Session n) (level : Nat) (due : List (List Arrival)) :
    Course Move s (s.transmit Feed.interrupted level ⟨due, []⟩).2.2.events
      (s.transmit Feed.interrupted level ⟨due, []⟩).2.1 := by
  cases h : s.stream with
  | none =>
    rw [transmit_of_none _ _ h]
    exact .refl s
  | some stream =>
    rw [transmit_of_some _ _ h]
    exact course_play h (Feed.refill_course level s.feed due)

theorem course_perform (s : Session n) (operation : Operation) :
    Course Move s (s.perform operation).1.events (s.perform operation).2 := by
  cases operation with
  | switchTo rate => exact course_switchTo s rate
  | halt => exact .single (.halt s)
  | install table => exact .single (.install s table)
  | ask request data => exact course_answer s request data
  | arrive arrival => exact course_arrive s arrival
  | transmit level due => exact course_transmit s level due

/-! ## Runs -/

theorem after_cons (s : Session n) (operation : Operation) (rest : List Operation) :
    s.after (operation :: rest) = (s.perform operation).2.after rest :=
  rfl

theorem events_cons (s : Session n) (operation : Operation) (rest : List Operation) :
    s.events (operation :: rest)
      = (s.perform operation).1.events ++ (s.perform operation).2.events rest :=
  rfl

/-- Every run is a course of moves, with the same events. -/
theorem course_after (s : Session n) (operations : List Operation) :
    Course Move s (s.events operations) (s.after operations) := by
  induction operations generalizing s with
  | nil => exact .refl s
  | cons operation rest ih =>
    rw [after_cons, events_cons]
    exact (course_perform s operation).trans (ih _)

end PacedAudio.Session
