/-
# PacedAudio.Proofs.Session.Entries — what is entered is what happens

`Tick` lists what can happen to the feed of a session, each with its event. For each of them the
entry of the event agrees with the counters (`booked_tick`) and, unless too many flushes in a row
go unnoticed, with the bytes that wait before and after it (`conserved_tick`). A transmit interrupt
and an arrival are courses of ticks, so their tallies do, too.
-/

import PacedAudio.Proofs.Session.Overruns
import PacedAudio.Session.Account

namespace PacedAudio

variable {n : Nat}

/-! ## Changes of speed -/

/-- By how many the changes to a speed outnumber the changes back, from the nominal speed. -/
def Speed.ahead : Speed → Nat
  | .nominal => 0
  | .fast => 1

theorem Speed.ahead_eq (speed : Speed) : speed.ahead = if speed = .fast then 1 else 0 := by
  cases speed <;> rfl

/-- A change of speed turns to the other one. -/
theorem Feed.paced_of_change {f : Feed n} {marks : Watermarks} (h : (f.look marks).2 ≠ .hold) :
    (f.look marks).1 = f.pacer.speed.other
      ∧ f.paced marks = { f with pacer := f.pacer.turned } := by
  refine ⟨Watermarks.next_of_ne_hold h, ?_⟩
  obtain ⟨ring, speed, speedUps, slowDowns⟩ := f
  revert h
  cases speed <;> simp only [paced, look, Watermarks.next, Pacer.turned] <;> split <;>
    simp [Pacer.count]

namespace Session

variable {s t u : Session n} {events more past : List Event}

/-! ## What can happen to the feed -/

/-- What can happen to the feed of a session at once. -/
inductive Tick : Session n → List Event → Session n → Prop where
  /-- Something arrives while no stream plays. -/
  | idle {s : Session n} (h : s.stream = none) (arrival : Arrival) :
      Tick s [(s.arrive arrival).1] (s.arrive arrival).2
  /-- A step of the feed while a stream plays. -/
  | play {s : Session n} {stream : Stream} {events : List Event} {feed : Feed n}
      (h : s.stream = some stream)
      (step : Feed.Step stream.divider stream.marks s.feed events feed) :
      Tick s events { s with feed := feed }

/-- The sessions that the events are gone through with are the ones that there are. -/
theorem through_tick (h : Tick s more t) : s.through more = t := by
  cases h with
  | idle hnone arrival =>
    cases arrival with
    | packet bytes =>
      rw [arrive, receive_of_none hnone]
      rfl
    | boundary => rfl
  | play hstream step =>
    cases step with
    | arrive arrival =>
      cases arrival with
      | packet bytes =>
        show s.next (.packet bytes (s.feed.ring.push bytes).1) = _
        rcases s.feed.ring.push_cases bytes with ⟨-, hstored⟩ | ⟨-, hover | ⟨fault, hfault⟩⟩
        · rw [hstored]
          rfl
        · rw [hover]
          rfl
        · rw [hfault]
          rfl
      | boundary => rfl
    | look => rfl
    | send => rfl
    | change hchange =>
      rw [(Feed.paced_of_change hchange).2]
      rfl

theorem through_ticks (h : Course Tick s events t) : s.through events = t := by
  induction h with
  | refl => rfl
  | tail _ tick ih => rw [through_append, ih, through_tick tick]

/-! ## Counters -/

/-- From one session to another, by some events and with so many restarts of a feed that was fast,
a tally agrees with the counters and the events. -/
structure Booked (s : Session n) (events : List Event) (tally : Tally) (forced : Nat)
    (t : Session n) : Prop where
  underruns : t.feed.ring.underruns = s.feed.ring.underruns + UInt32.ofNat tally.again
  speedUps : t.feed.pacer.speedUps = s.feed.pacer.speedUps + UInt32.ofNat tally.speedUps
  slowDowns : t.feed.pacer.slowDowns = s.feed.pacer.slowDowns + UInt32.ofNat tally.slowDowns
  turns : tally.speedUps + s.feed.pacer.speed.ahead
    = tally.slowDowns + t.feed.pacer.speed.ahead + forced
  settings : tally.speedUps + tally.slowDowns = tally.settings
  frames : tally.fresh + tally.again = (Trace.sent events).length
  overruns : (∀ e ∈ events, e.plain = e) → tally.overruns = events.countP Event.overran

theorem Booked.append {first second : Tally} {forced forced' : Nat}
    (h : Booked s events first forced t) (h' : Booked t more second forced' u) :
    Booked s (events ++ more) (first.plus second) (forced + forced') u where
  underruns := by
    rw [h'.underruns, h.underruns, Tally.plus, UInt32.ofNat_add, UInt32.add_assoc]
  speedUps := by
    rw [h'.speedUps, h.speedUps, Tally.plus, UInt32.ofNat_add, UInt32.add_assoc]
  slowDowns := by
    rw [h'.slowDowns, h.slowDowns, Tally.plus, UInt32.ofNat_add, UInt32.add_assoc]
  turns := by
    have hfirst := h.turns
    have hsecond := h'.turns
    simp only [Tally.plus]
    omega
  settings := by
    have hfirst := h.settings
    have hsecond := h'.settings
    simp only [Tally.plus]
    omega
  frames := by
    have hfirst := h.frames
    have hsecond := h'.frames
    rw [Trace.sent_append, List.length_append]
    simp only [Tally.plus]
    omega
  overruns := by
    intro hplain
    rw [List.countP_append, ← h.overruns fun e he => hplain e (List.mem_append_left more he),
      ← h'.overruns fun e he => hplain e (List.mem_append_right events he)]
    rfl

/-- Neither a frame is sent nor the speed changed. -/
theorem booked_quiet (stored discarded overruns : Nat)
    (hunderruns : t.feed.ring.underruns = s.feed.ring.underruns)
    (hpacer : t.feed.pacer = s.feed.pacer) (hsent : Trace.sent events = [])
    (hoverran : (∀ e ∈ events, e.plain = e) → overruns = events.countP Event.overran) :
    Booked s events { stored := stored, discarded := discarded, overruns := overruns } 0 t where
  underruns := by rw [hunderruns]; simp
  speedUps := by rw [hpacer]; simp
  slowDowns := by rw [hpacer]; simp
  turns := by
    rw [hpacer]
    rfl
  settings := rfl
  frames := by rw [hsent]; rfl
  overruns := hoverran

theorem booked_packet (s : Session n) (bytes : List UInt8) :
    Booked s [.packet bytes (s.feed.push bytes).1] (s.entry (.packet bytes (s.feed.push bytes).1)) 0
      { s with feed := (s.feed.push bytes).2 } := by
  have hunderruns := s.feed.ring.underruns_push bytes
  show Booked s [.packet bytes (s.feed.ring.push bytes).1]
    (s.entry (.packet bytes (s.feed.ring.push bytes).1)) 0 _
  rcases s.feed.ring.push_cases bytes with ⟨-, hstored⟩ | ⟨-, hover | ⟨fault, hfault⟩⟩
  · rw [hstored]
    exact booked_quiet bytes.length 0 0 hunderruns rfl rfl fun _ => rfl
  · rw [hover]
    exact booked_quiet 0 s.feed.ring.fill 1 hunderruns rfl rfl fun _ => rfl
  · rw [hfault]
    refine booked_quiet 0 s.feed.ring.fill 0 hunderruns rfl rfl fun hplain => ?_
    cases hplain _ (List.mem_singleton.mpr rfl)

/-- A frame from a dry ring is sent again, any other one is fresh. -/
theorem entry_send (s : Session n) :
    s.entry (.call (.send s.feed.takeFrame.1.value))
      = if s.feed.ring.fill < playedFrameBytes then { again := 1 } else { fresh := 1 } := by
  show s.entry (.call (.send s.feed.ring.takeFrame.1.value)) = _
  split
  · next hdry => simp [entry, Feed.takeFrame, Ring.takeFrame_of_lt hdry, Frame.value]
  · next hwaits =>
    obtain ⟨value, hfresh⟩ := Ring.takeFrame_fst_of_le (Nat.not_lt.mp hwaits)
    simp [entry, Feed.takeFrame, hfresh, Frame.value]

theorem booked_send (s : Session n) :
    Booked s [.call (.send s.feed.takeFrame.1.value)]
      (s.entry (.call (.send s.feed.takeFrame.1.value))) 0
      { s with feed := s.feed.takeFrame.2 } := by
  have hunderruns := s.feed.ring.underruns_takeFrame
  rw [entry_send]
  split
  · next hdry =>
    rw [if_pos hdry] at hunderruns
    exact ⟨hunderruns, by simp [Feed.takeFrame], by simp [Feed.takeFrame], rfl, rfl, rfl,
      fun _ => rfl⟩
  · next hwaits =>
    rw [if_neg hwaits] at hunderruns
    exact ⟨by simpa [Feed.takeFrame] using hunderruns, by simp [Feed.takeFrame],
      by simp [Feed.takeFrame], rfl, rfl, rfl, fun _ => rfl⟩

/-- The setting for the other speed is given, and the change counted. -/
theorem booked_turn {stream : Stream} (hstream : s.stream = some stream) :
    Booked s
      [.call (.program stream.divider.prescaler (stream.divider.ratio s.feed.pacer.speed.other))]
      (s.entry
        (.call (.program stream.divider.prescaler (stream.divider.ratio s.feed.pacer.speed.other))))
      0 { s with feed := { s.feed with pacer := s.feed.pacer.turned } } := by
  have hsets : ∀ speed,
      s.Sets stream.divider.prescaler (stream.divider.ratio speed) speed := by
    intro speed
    rw [Sets, hstream]
    rfl
  cases hspeed : s.feed.pacer.speed with
  | nominal =>
    have hentry : s.entry (.call (.program stream.divider.prescaler
        (stream.divider.ratio Speed.nominal.other))) = { settings := 1, speedUps := 1 } := by
      simp [entry, hspeed, Speed.other, hsets .fast]
    have hturned : s.feed.pacer.turned
        = { s.feed.pacer with speed := .fast, speedUps := s.feed.pacer.speedUps + 1 } := by
      simp only [Pacer.turned, hspeed]
    rw [hentry, hturned]
    refine ⟨by simp, rfl, by simp, ?_, rfl, rfl, fun _ => rfl⟩
    rw [hspeed]
    rfl
  | fast =>
    have hentry : s.entry (.call (.program stream.divider.prescaler
        (stream.divider.ratio Speed.fast.other))) = { settings := 1, slowDowns := 1 } := by
      simp [entry, hspeed, Speed.other, hsets .nominal]
    have hturned : s.feed.pacer.turned
        = { s.feed.pacer with speed := .nominal, slowDowns := s.feed.pacer.slowDowns + 1 } := by
      simp only [Pacer.turned, hspeed]
    rw [hentry, hturned]
    refine ⟨by simp, by simp, rfl, ?_, rfl, rfl, fun _ => rfl⟩
    rw [hspeed]
    rfl

theorem booked_tick (h : Tick s more t) : Booked s more (s.tally more) 0 t := by
  cases h with
  | idle hnone arrival =>
    cases arrival with
    | packet bytes =>
      rw [arrive, receive_of_none hnone]
      exact booked_quiet 0 0 0 rfl rfl rfl fun _ => rfl
    | boundary => exact booked_quiet 0 s.feed.ring.fill 0 rfl rfl rfl fun _ => rfl
  | play hstream step =>
    cases step with
    | arrive arrival =>
      cases arrival with
      | packet bytes => exact booked_packet s bytes
      | boundary => exact booked_quiet 0 s.feed.ring.fill 0 rfl rfl rfl fun _ => rfl
    | look => exact booked_quiet 0 0 0 rfl rfl rfl fun _ => rfl
    | send => exact booked_send s
    | change hchange =>
      obtain ⟨hspeed, hpaced⟩ := Feed.paced_of_change hchange
      rw [hspeed, hpaced]
      exact booked_turn hstream

theorem booked_ticks (h : Course Tick s events t) : Booked s events (s.tally events) 0 t := by
  induction h with
  | refl => exact booked_quiet 0 0 0 rfl rfl rfl fun _ => rfl
  | tail hcourse tick ih =>
    rw [tally_append, through_ticks hcourse]
    exact ih.append (booked_tick tick)

/-! ## Bytes -/

/-- The bytes that waited and that came in are those that went out, were discarded or wait. -/
def Conserves (s : Session n) (tally : Tally) (t : Session n) : Prop :=
  s.feed.ring.fill + tally.stored
    = playedFrameBytes * tally.fresh + tally.discarded + t.feed.ring.fill

theorem Conserves.append {first second : Tally} (h : Conserves s first t)
    (h' : Conserves t second u) : Conserves s (first.plus second) u := by
  simp only [Conserves, Tally.plus, Nat.mul_add] at h h' ⊢
  omega

/-- The ring's reader has missed as many flushes as the trace says. -/
def Reads (past : List Event) (s : Session n) : Prop := s.feed.ring.unread = Trace.missed past

/-- What is discarded is gone, if the marker can be told from the ones that were followed. -/
theorem fill_discarded (hreads : Reads past s) {e : Event} (hdiscards : e.discards = true)
    (hmissed : Trace.missed (past ++ [e]) < 65536) :
    s.feed.ring.flush.fill = 0 ∧ s.feed.ring.flush.unread = Trace.missed (past ++ [e]) := by
  rw [Trace.missed_concat, Trace.missedNext, if_pos hdiscards, ← hreads] at hmissed ⊢
  rw [Ring.fill_flush, Ring.unread_flush, if_neg (by omega), Nat.mod_eq_of_lt hmissed]
  exact ⟨rfl, rfl⟩

/-- An event that the ring's reader has nothing to do with. -/
theorem Reads.quiet (hreads : Reads past s) {e : Event} (hdiscards : e.discards = false)
    (hnotices : e.notices = false) (hunread : t.feed.ring.unread = s.feed.ring.unread) :
    Reads (past ++ [e]) t := by
  rw [Reads, Trace.missed_concat, Trace.missedNext, hdiscards, hnotices, hunread]
  exact hreads

theorem conserved_boundary (hreads : Reads past s)
    (hmissed : Trace.missed (past ++ [.boundary]) < 65536) :
    Reads (past ++ [.boundary]) s.boundary ∧ Conserves s (s.entry .boundary) s.boundary := by
  obtain ⟨hfill, hunread⟩ := fill_discarded hreads rfl hmissed
  have hboundary : s.boundary.feed.ring.fill = 0 := hfill
  refine ⟨hunread, ?_⟩
  simp only [Conserves, entry, hboundary]
  omega

theorem conserved_packet (hreads : Reads past s) (bytes : List UInt8)
    (hmissed : Trace.missed (past ++ [.packet bytes (s.feed.ring.push bytes).1]) < 65536) :
    Reads (past ++ [.packet bytes (s.feed.ring.push bytes).1])
        { s with feed := (s.feed.push bytes).2 }
      ∧ Conserves s (s.entry (.packet bytes (s.feed.ring.push bytes).1))
        { s with feed := (s.feed.push bytes).2 } := by
  rcases s.feed.ring.push_cases bytes with ⟨hfits, hstored⟩ | ⟨hfits, houtcome⟩
  · rw [hstored]
    refine ⟨hreads.quiet rfl rfl (Ring.unread_push hfits), ?_⟩
    have hfill : (s.feed.push bytes).2.ring.fill = s.feed.ring.fill + bytes.length :=
      Ring.fill_push hfits
    simp only [Conserves, entry, hfill]
    omega
  · obtain ⟨hdiscards, overruns, hentry⟩ :
        (Event.packet bytes (s.feed.ring.push bytes).1).discards = true
          ∧ ∃ overruns, s.entry (.packet bytes (s.feed.ring.push bytes).1)
            = { discarded := s.feed.ring.fill, overruns := overruns } := by
      rcases houtcome with hover | ⟨fault, hfault⟩
      · rw [hover]
        exact ⟨rfl, 1, rfl⟩
      · rw [hfault]
        exact ⟨rfl, 0, rfl⟩
    obtain ⟨hfill, hunread⟩ := fill_discarded hreads hdiscards hmissed
    -- Apart from its counter the ring is as after a flush.
    have hring : (s.feed.push bytes).2.ring
        = { s.feed.ring.flush with overruns := s.feed.ring.overruns + 1 } :=
      congrArg Prod.snd (Ring.push_of_not_fits hfits)
    have hempty : (s.feed.push bytes).2.ring.fill = 0 := by
      rw [hring]
      exact hfill
    refine ⟨?_, ?_⟩
    · rw [Reads, hring]
      exact hunread
    · rw [hentry]
      simp only [Conserves, hempty]
      omega

theorem conserved_send (s : Session n) (past : List Event) :
    Reads (past ++ [.call (.send s.feed.takeFrame.1.value)]) { s with feed := s.feed.takeFrame.2 }
      ∧ Conserves s (s.entry (.call (.send s.feed.takeFrame.1.value)))
        { s with feed := s.feed.takeFrame.2 } := by
  constructor
  · rw [Reads, Trace.missed_concat]
    exact s.feed.ring.unread_takeFrame
  · have hfill : s.feed.takeFrame.2.ring.fill = _ := s.feed.ring.fill_takeFrame
    rw [entry_send, Conserves, hfill]
    split
    · simp
    · next hwaits =>
      simp only [playedFrameBytes] at hwaits ⊢
      omega

/-- Unless too many flushes in a row go unnoticed, no byte is lost that is not entered. -/
theorem conserved_tick (h : Tick s more t) (hreads : Reads past s)
    (hmissed : Trace.missed (past ++ more) < 65536) :
    Reads (past ++ more) t ∧ Conserves s (s.tally more) t := by
  cases h with
  | idle hnone arrival =>
    cases arrival with
    | packet bytes =>
      rw [arrive, receive_of_none hnone]
      exact ⟨hreads.quiet rfl rfl rfl, by simp [Conserves, tally_single, entry]⟩
    | boundary => exact conserved_boundary hreads hmissed
  | play hstream step =>
    cases step with
    | arrive arrival =>
      cases arrival with
      | packet bytes => exact conserved_packet hreads bytes hmissed
      | boundary => exact conserved_boundary hreads hmissed
    | look => exact ⟨hreads.quiet rfl rfl rfl, by simp [Conserves, tally_single, entry]⟩
    | send => exact conserved_send s past
    | change hchange =>
      exact ⟨hreads.quiet rfl rfl rfl,
        by simp [Conserves, tally_single, entry, Feed.paced]⟩

theorem conserved_ticks (h : Course Tick s events t) (hreads : Reads past s)
    (hmissed : ∀ before, before <+: past ++ events → Trace.missed before < 65536) :
    Reads (past ++ events) t ∧ Conserves s (s.tally events) t := by
  induction h with
  | refl =>
    rw [List.append_nil]
    exact ⟨hreads, by simp [Conserves, tally, Tally.blank]⟩
  | @tail t u events more hcourse tick ih =>
    rw [← List.append_assoc] at hmissed ⊢
    obtain ⟨hreads', hconserves⟩ := ih fun before hbefore =>
      hmissed before (hbefore.trans (List.prefix_append _ more))
    obtain ⟨hreads'', hconserves'⟩ := conserved_tick tick hreads' (hmissed _ (List.prefix_refl _))
    rw [tally_append, through_ticks hcourse]
    exact ⟨hreads'', hconserves.append hconserves'⟩

end Session

end PacedAudio
