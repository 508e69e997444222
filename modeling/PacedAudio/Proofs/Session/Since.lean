/-
# PacedAudio.Proofs.Session.Since — a run since a switch

From the last granted switch of a run on, one stream plays until it is stopped. Up to then the run
is a course of events at its feed, whatever else is asked of the session, and after that nothing is
stored and no speed is changed (`ticks_since`). Each event of a course is one step, so a course goes
through a session between any two events (`Course.split`).
-/

import PacedAudio.Proofs.Session.Accounts
import PacedAudio.Proofs.Session.Protocol

namespace PacedAudio

/-! ## Courses in two parts -/

/-- Where each step makes one event, a course goes through a state between any two events. -/
theorem Course.split {σ : Type} {Step : σ → List Event → σ → Prop} {s t : σ}
    (hone : ∀ s events t, Step s events t → ∃ e, events = [e]) {events past later : List Event}
    (h : Course Step s events t) (hevents : events = past ++ later) :
    ∃ middle, Course Step s past middle ∧ Course Step middle later t := by
  induction h generalizing later with
  | refl =>
    obtain ⟨rfl, rfl⟩ := List.append_eq_nil_iff.mp hevents.symm
    exact ⟨s, .refl s, .refl s⟩
  | @tail t u events more hcourse step ih =>
    obtain ⟨e, rfl⟩ := hone t more u step
    rcases List.eq_nil_or_concat later with rfl | ⟨front, last, rfl⟩
    · rw [List.append_nil] at hevents
      exact ⟨u, hevents ▸ hcourse.tail step, .refl u⟩
    · rw [List.concat_eq_append] at hevents ⊢
      rw [← List.append_assoc] at hevents
      obtain ⟨hfront, hlast⟩ := List.append_inj' hevents rfl
      obtain ⟨middle, hfirst, hsecond⟩ := ih hfront
      exact ⟨middle, hfirst, hlast ▸ hsecond.tail step⟩

/-! ## Events after a stop -/

/-- Neither a setting nor a packet that is stored. -/
def Event.inert : Event → Bool
  | .call (.program _ _) => false
  | .packet _ (.ok .stored) => false
  | _ => true

variable {n : Nat}

namespace Session

variable {s t start : Session n} {stream : Stream} {events more : List Event}
  {operation : Operation} {operations later : List Operation}

/-- Only a setting is entered as a change of speed. -/
theorem turns_entry (s : Session n) {e : Event} (h : e.setting? = none) :
    (s.entry e).speedUps = 0 ∧ (s.entry e).slowDowns = 0 := by
  cases e with
  | call call =>
    cases call with
    | program prescaler ratio => cases h
    | _ => exact ⟨rfl, rfl⟩
  | packet bytes outcome =>
    rcases outcome with fault | _ | _ | _ <;> exact ⟨rfl, rfl⟩
  | boundary => exact ⟨rfl, rfl⟩

theorem entry_inert (s : Session n) {e : Event} (h : e.inert = true) :
    (s.entry e).stored = 0 ∧ (s.entry e).speedUps = 0 ∧ (s.entry e).slowDowns = 0 := by
  cases e with
  | call call =>
    cases call with
    | program prescaler ratio => cases h
    | _ => exact ⟨rfl, rfl, rfl⟩
  | packet bytes outcome =>
    cases outcome with
    | error fault => exact ⟨rfl, rfl, rfl⟩
    | ok outcome =>
      cases outcome with
      | stored => cases h
      | _ => exact ⟨rfl, rfl, rfl⟩
  | boundary => exact ⟨rfl, rfl, rfl⟩

theorem tally_inert (s : Session n) (h : ∀ e ∈ events, e.inert = true) :
    (s.tally events).stored = 0 ∧ (s.tally events).speedUps = 0
      ∧ (s.tally events).slowDowns = 0 := by
  induction events generalizing s with
  | nil => exact ⟨rfl, rfl, rfl⟩
  | cons e rest ih =>
    obtain ⟨he, hrest⟩ := List.forall_mem_cons.mp h
    obtain ⟨hstored, hups, hdowns⟩ := s.entry_inert he
    obtain ⟨hstored', hups', hdowns'⟩ := ih (s.next e) hrest
    simp only [tally, Tally.plus, hstored, hups, hdowns, hstored', hups', hdowns', and_self]

/-- With events after a stop, as much is stored as without, and as many changes are made. -/
theorem tally_append_inert (s : Session n) (past : List Event) (h : ∀ e ∈ more, e.inert = true) :
    (s.tally (past ++ more)).stored = (s.tally past).stored
      ∧ (s.tally (past ++ more)).speedUps = (s.tally past).speedUps
      ∧ (s.tally (past ++ more)).slowDowns = (s.tally past).slowDowns := by
  obtain ⟨hstored, hups, hdowns⟩ := (s.through past).tally_inert h
  rw [tally_append]
  simp only [Tally.plus, hstored, hups, hdowns, Nat.add_zero, and_self]

/-! ## Ticks -/

theorem stream_tick (h : Tick s more t) : t.stream = s.stream := by
  cases h with
  | idle hnone arrival => exact (stream_arrive_of_none hnone arrival).trans hnone.symm
  | play hstream step => rfl

theorem stream_ticks (h : Course Tick s events t) : t.stream = s.stream := by
  induction h with
  | refl => rfl
  | tail _ tick ih => exact (stream_tick tick).trans ih

theorem event_of_tick (h : Tick s more t) : ∃ e, more = [e] := by
  cases h with
  | idle hnone arrival => exact ⟨_, rfl⟩
  | play hstream step =>
    obtain ⟨e, he, -⟩ := event_of_step step
    exact ⟨e, he⟩

/-! ## Without a switch -/

/-- Without a switch, only a stop ends a stream or starts one. -/
theorem stream_perform (hnone : ∀ rate, ¬ s.Switches operation rate) (hhalt : operation ≠ .halt) :
    (s.perform operation).2.stream = s.stream := by
  have hchange := change_perform s operation
  generalize (s.perform operation).2 = t at hchange ⊢
  cases hchange with
  | switch hswitch hdivider => exact absurd hswitch (hnone _)
  | halt => exact absurd rfl hhalt
  | install table => rfl
  | play hrate htable hplays hcourse => rfl
  | flush hidle => rfl
  | keep hnone' htable => rfl

/-- Nor does anything else than an arrival or an interrupt happen to the feed then. -/
theorem feed_perform (hfeeds : operation.feeds = false) (hnone : ∀ rate, ¬ s.Switches operation rate)
    (hhalt : operation ≠ .halt) :
    (s.perform operation).2.feed = s.feed ∧ (s.perform operation).1.events = [] := by
  cases aside_perform s hfeeds with
  | restart capacity calls hrestarts hfeed hevents hsent =>
    rw [Operation.restarts, Bool.and_eq_true, Bool.or_eq_true, beq_iff_eq] at hrestarts
    obtain ⟨hgranted, hrate | hhalt'⟩ := hrestarts
    · obtain ⟨rate, hrate⟩ := Option.isSome_iff_exists.mp hrate
      exact absurd ⟨hrate, hgranted⟩ (hnone rate)
    · exact absurd hhalt' hhalt
  | keep hrestarts hfeed hevents => exact ⟨hfeed, hevents⟩

/-- While a stream plays, arrivals and interrupts are courses of its feed. -/
theorem course_of_feeds (hstream : s.stream = some stream) (hfeeds : operation.feeds = true) :
    Course (Feed.Step stream.divider stream.marks) s.feed (s.perform operation).1.events
      (s.perform operation).2.feed := by
  cases operation with
  | arrive arrival =>
    show Course _ s.feed [(s.arrive arrival).1] (s.arrive arrival).2.feed
    rw [arrive_of_some hstream]
    exact .single (.arrive s.feed arrival)
  | transmit level due =>
    show Course _ s.feed (s.transmit Feed.interrupted level ⟨due, []⟩).2.2.events
      (s.transmit Feed.interrupted level ⟨due, []⟩).2.1.feed
    rw [transmit_of_some _ _ hstream]
    exact Feed.refill_course level s.feed due
  | _ => cases hfeeds

/-- Without a stream, nothing is stored and no speed is changed. -/
theorem inert_perform (hstream : s.stream = none) (hnone : ∀ rate, ¬ s.Switches operation rate) :
    (∀ e ∈ (s.perform operation).1.events, e.inert = true)
      ∧ (s.perform operation).2.feed.pacer.reset = s.feed.pacer.reset
      ∧ (s.perform operation).2.stream = none := by
  by_cases hhalt : operation = .halt
  · subst hhalt
    refine ⟨?_, rfl, rfl⟩
    show ∀ e ∈ [Event.call .stop], e.inert = true
    exact List.forall_mem_singleton.mpr rfl
  · have hidle := (stream_perform hnone hhalt).trans hstream
    cases hfeeds : operation.feeds with
    | false =>
      obtain ⟨hfeed, hevents⟩ := feed_perform hfeeds hnone hhalt
      rw [hevents, hfeed]
      exact ⟨fun e he => absurd he List.not_mem_nil, rfl, hidle⟩
    | true =>
      cases operation with
      | arrive arrival =>
        refine ⟨?_, ?_, hidle⟩
        · show ∀ e ∈ [(s.arrive arrival).1], e.inert = true
          refine List.forall_mem_singleton.mpr ?_
          cases arrival with
          | packet bytes =>
            rw [arrive, receive_of_none hstream]
            rfl
          | boundary => rfl
        · show (s.arrive arrival).2.feed.pacer.reset = s.feed.pacer.reset
          cases arrival with
          | packet bytes => rw [arrive, receive_of_none hstream]
          | boundary => rfl
      | transmit level due =>
        refine ⟨?_, ?_, hidle⟩
        · show ∀ e ∈ (s.transmit Feed.interrupted level ⟨due, []⟩).2.2.events, e.inert = true
          rw [transmit_of_none _ _ hstream]
          exact fun e he => absurd he List.not_mem_nil
        · show (s.transmit Feed.interrupted level ⟨due, []⟩).2.1.feed.pacer.reset = _
          rw [transmit_of_none _ _ hstream]
      | _ => cases hfeeds

/-- A run without a switch. -/
def Unswitched (s : Session n) (operations : List Operation) : Prop :=
  ∀ between next rest, operations = between ++ next :: rest →
    ∀ rate, ¬ (s.after between).Switches next rate

theorem unswitched_cons : s.Unswitched (operation :: operations) ↔
    (∀ rate, ¬ s.Switches operation rate) ∧ (s.perform operation).2.Unswitched operations := by
  refine ⟨fun h => ⟨h [] operation operations rfl, fun between next rest heq => ?_⟩, ?_⟩
  · exact h (operation :: between) next rest (congrArg (operation :: ·) heq)
  · rintro ⟨hfirst, hrest⟩ between next rest heq
    cases between with
    | nil =>
      obtain ⟨rfl, -⟩ := List.cons.inj heq
      exact hfirst
    | cons first between =>
      obtain ⟨rfl, htail⟩ := List.cons.inj heq
      exact hrest between next rest htail

theorem inert_after (hstream : s.stream = none) (hnone : s.Unswitched operations) :
    (∀ e ∈ s.events operations, e.inert = true)
      ∧ (s.after operations).feed.pacer.reset = s.feed.pacer.reset := by
  induction operations generalizing s with
  | nil => exact ⟨fun e he => absurd he List.not_mem_nil, rfl⟩
  | cons operation rest ih =>
    obtain ⟨hfirst, hrest⟩ := unswitched_cons.mp hnone
    obtain ⟨hinert, hpacer, hidle⟩ := inert_perform hstream hfirst
    obtain ⟨hinert', hpacer'⟩ := ih hidle hrest
    rw [events_cons, after_cons]
    exact ⟨List.forall_mem_append.mpr ⟨hinert, hinert'⟩, hpacer'.trans hpacer⟩

/-- A run without a switch is a course of the feed, up to the first stop. Nothing that comes after
is stored or changes a speed. -/
theorem played_since (hstream : s.stream = some stream) (hnone : s.Unswitched operations) :
    ∃ played stopped feed, s.events operations = played ++ stopped
      ∧ Course (Feed.Step stream.divider stream.marks) s.feed played feed
      ∧ (∀ e ∈ stopped, e.inert = true) ∧ (s.after operations).feed.pacer.reset = feed.pacer.reset := by
  induction operations generalizing s with
  | nil => exact ⟨[], [], s.feed, rfl, .refl _, fun e he => absurd he List.not_mem_nil, rfl⟩
  | cons operation rest ih =>
    obtain ⟨hfirst, hrest⟩ := unswitched_cons.mp hnone
    by_cases hhalt : operation = .halt
    · subst hhalt
      obtain ⟨hinert, hpacer⟩ := inert_after (s := s.halt.session) rfl hrest
      refine ⟨[], .call .stop :: s.halt.session.events rest, s.feed, rfl, .refl _, ?_, hpacer⟩
      exact List.forall_mem_cons.mpr ⟨rfl, hinert⟩
    · obtain ⟨played, stopped, feed, hevents, hcourse, hinert, hpacer⟩ :=
        ih ((stream_perform hfirst hhalt).trans hstream) hrest
      have hstep : Course (Feed.Step stream.divider stream.marks) s.feed
          (s.perform operation).1.events (s.perform operation).2.feed := by
        cases hfeeds : operation.feeds with
        | true => exact course_of_feeds hstream hfeeds
        | false =>
          obtain ⟨hfeed, hquiet⟩ := feed_perform hfeeds hfirst hhalt
          rw [hfeed, hquiet]
          exact .refl _
      refine ⟨(s.perform operation).1.events ++ played, stopped, feed, ?_, hstep.trans hcourse,
        hinert, hpacer⟩
      rw [events_cons, hevents, List.append_assoc]

/-! ## Right after a switch -/

/-- The session right after a switch. -/
theorem start_of_switches {rate : UInt32} (h : s.Switches operation rate) :
    ∃ stream, (s.perform operation).2.stream = some stream
      ∧ stream.marks = Watermarks.ofCapacity stream.capacity ∧ stream.capacity ≤ n
      ∧ (s.perform operation).2.feed = s.feed.restart stream.capacity := by
  have hchange := change_perform s operation
  generalize (s.perform operation).2 = t at hchange ⊢
  cases hchange with
  | switch hswitch hdivider =>
    rw [switchTo_session hdivider]
    exact ⟨_, rfl, rfl, Nat.min_le_right _ _, rfl⟩
  | halt => exact absurd h (not_switches_of_rate? rfl rate)
  | install table => exact absurd h (not_switches_of_rate? rfl rate)
  | play hrate htable hplays hcourse => exact absurd h (not_switches_of_rate? hrate rate)
  | flush hidle => exact absurd h (not_switches_of_rate? rfl rate)
  | keep hnone htable => exact absurd h (hnone rate)

/-- A session right after a switch to a stream. -/
structure Outset (start : Session n) (stream : Stream) : Prop where
  plays : start.stream = some stream
  marks : stream.marks = Watermarks.ofCapacity stream.capacity
  capacity : start.feed.ring.capacity = max 1 stream.capacity
  fill : start.feed.ring.fill = 0
  speed : start.feed.pacer.speed = .nominal
  reads : Reads [] start

theorem outset_of_switches {rate : UInt32} (h : s.Switches operation rate) :
    ∃ stream, (s.perform operation).2.Outset stream := by
  obtain ⟨stream, hstream, hmarks, hle, hfeed⟩ := start_of_switches h
  refine ⟨stream, hstream, hmarks, ?_, ?_, ?_, ?_⟩
  · rw [hfeed]
    show max 1 (min stream.capacity n) = max 1 stream.capacity
    rw [Nat.min_eq_left hle]
  · rw [hfeed]
    exact Ring.fill_resize _ _
  · rw [hfeed]
    rfl
  · rw [Reads, hfeed]
    simp [Feed.restart, Ring.resize, Ring.unread, Trace.missed]

theorem Outset.low_le_high (h : start.Outset stream) : stream.marks.low ≤ stream.marks.high := by
  rw [h.marks]
  simp only [Watermarks.ofCapacity]
  omega

/-- A run since a switch: what happens to the feed of its stream, and what comes after a stop. -/
theorem ticks_since (hsince : s.SinceSwitch operations start later) :
    ∃ stream, start.Outset stream ∧ ∃ played stopped last,
      start.events later = played ++ stopped ∧ Course Tick start played last
        ∧ (∀ e ∈ stopped, e.inert = true)
        ∧ (start.after later).feed.pacer.reset = last.feed.pacer.reset := by
  obtain ⟨before, operation, rate, -, hswitch, hstart, hnone⟩ := hsince
  obtain ⟨stream, houtset⟩ := outset_of_switches hswitch
  rw [← after_concat, ← hstart] at houtset
  obtain ⟨played, stopped, feed, hevents, hcourse, hinert, hpacer⟩ :=
    played_since houtset.plays hnone
  -- Nothing but the feed changes, so its course is one of the session after the switch.
  have hticks : Course Tick start played { start with feed := feed } :=
    hcourse.map (fun feed => { start with feed := feed }) fun feed _ _ step =>
      Tick.play (s := { start with feed := feed }) houtset.plays step
  exact ⟨stream, houtset, played, stopped, _, hevents, hticks, hinert, hpacer⟩

end Session

end PacedAudio
