/-
# PacedAudio.Proofs.Session.Protocol — the transmitter and the session stay in step

The session keeps no copy of what it has told the transmitter, and the transmitter cannot be asked.
That the two agree nevertheless is a law of whole runs (`transmitter_protocol`),
in three parts.

* Transmission is started by a granted switch only, with the nominal setting just programmed; a
  frame is sent and the divider changed only while it runs, and it runs exactly while the session
  has a stream.
* The last setting programmed is the one of the stream's divider for the speed in force.
* From a start to the next stop the settings go back and forth between fast and nominal.

`InStep` and `Alternates` are the invariants, of any course of moves, behind the three parts.
-/

import PacedAudio.Proofs.Session.Course
import PacedAudio.Session.Trace

namespace PacedAudio.Session

open Trace

variable {n : Nat} {s t u : Session n} {events more : List Event}

/-! ## What the moves show -/

/-- A step of a feed makes one event, which starts and stops nothing. If it is a setting, it is
the one of the other speed, and that is the speed from then on. -/
theorem event_of_step {divider : Divider} {marks : Watermarks} {f g : Feed n}
    (step : Feed.Step divider marks f events g) :
    ∃ e, events = [e] ∧ e.switched? = none
      ∧ (e.setting? = none ∧ g.pacer.speed = f.pacer.speed
        ∨ e.setting? = some (divider.setting f.pacer.speed.other)
          ∧ g.pacer.speed = f.pacer.speed.other) := by
  cases step with
  | arrive arrival =>
    refine ⟨_, rfl, ?_, Or.inl ?_⟩
    · cases arrival <;> rfl
    · cases arrival <;> exact ⟨rfl, rfl⟩
  | look => exact ⟨_, rfl, rfl, Or.inl ⟨rfl, rfl⟩⟩
  | send => exact ⟨_, rfl, rfl, Or.inl ⟨rfl, rfl⟩⟩
  | change hchange =>
    have hother : (f.look marks).1 = f.pacer.speed.other := Watermarks.next_of_ne_hold hchange
    refine ⟨_, rfl, rfl, Or.inr ⟨?_, hother⟩⟩
    rw [← hother]
    rfl

/-- An arrival at a session without a stream makes no stream. -/
theorem stream_arrive_of_none (h : s.stream = none) (arrival : Arrival) :
    (s.arrive arrival).2.stream = none := by
  cases arrival with
  | packet bytes =>
    show (s.receive bytes).2.stream = none
    rw [receive_of_none h]
    exact h
  | boundary => exact h

/-! ## In step -/

/-- What the events so far say of the transmitter agrees with the session. -/
structure InStep (events : List Event) (t : Session n) : Prop where
  running : running events = t.active
  send : ∀ past frame later, events = past ++ .call (.send frame) :: later →
    Trace.running past = true
  program : ∀ past prescaler ratio later,
    events = past ++ .call (.program prescaler ratio) :: later →
    Trace.running past = true
      ∨ ∃ before rest, past = before ++ [.call .stop] ∧ later = .call .start :: rest
  setting : ∀ stream, t.stream = some stream →
    (settings events).getLast? = some (stream.divider.setting t.feed.pacer.speed)

theorem inStep_idle (table : RateTable) (h : 0 < n) : InStep [] (idle table n h) where
  running := rfl
  send := by
    intro past frame later heq
    simp at heq
  program := by
    intro past prescaler ratio later heq
    simp at heq
  setting := by
    intro stream heq
    cases heq

/-- More events, of which every call falls at the right time. -/
theorem InStep.append (h : InStep events t) (hrunning : Trace.running (events ++ more) = u.active)
    (hsend : ∀ past frame later, more = past ++ .call (.send frame) :: later →
      Trace.running (events ++ past) = true)
    (hprogram : ∀ past prescaler ratio later,
      more = past ++ .call (.program prescaler ratio) :: later →
      Trace.running (events ++ past) = true
        ∨ ∃ before rest, past = before ++ [.call .stop] ∧ later = .call .start :: rest)
    (hsetting : ∀ stream, u.stream = some stream →
      (settings (events ++ more)).getLast? = some (stream.divider.setting u.feed.pacer.speed)) :
    InStep (events ++ more) u where
  running := hrunning
  send := by
    intro past frame later heq
    rcases eq_append_cons heq with ⟨rest, hevents, -⟩ | ⟨rest, rfl, hmore⟩
    · exact h.send past frame rest hevents
    · exact hsend rest frame later hmore
  program := by
    intro past prescaler ratio later heq
    rcases eq_append_cons heq with ⟨rest, hevents, rfl⟩ | ⟨middle, rfl, hmore⟩
    · rcases h.program past prescaler ratio rest hevents with hon | ⟨before, after, hpast, rfl⟩
      · exact Or.inl hon
      · exact Or.inr ⟨before, after ++ more, hpast, rfl⟩
    · rcases hprogram middle prescaler ratio later hmore with hon | ⟨before, after, rfl, hlater⟩
      · exact Or.inl hon
      · exact Or.inr ⟨events ++ before, after, (List.append_assoc _ _ _).symm, hlater⟩
  setting := hsetting

/-- One event more. A call other than a start or a stop falls while the transmitter runs. -/
theorem InStep.single (h : InStep events t) {e : Event}
    (hrunning : e.switched?.getD t.active = u.active)
    (hcall : ∀ call, e = .call call → e.switched? = none → t.active = true)
    (hsetting : ∀ stream, u.stream = some stream →
      (settings (events ++ [e])).getLast? = some (stream.divider.setting u.feed.pacer.speed)) :
    InStep (events ++ [e]) u := by
  apply h.append
  · rw [running_concat, h.running]
    exact hrunning
  · intro past frame later heq
    obtain ⟨rfl, rfl, -⟩ := singleton_eq_append_cons heq
    rw [List.append_nil, h.running]
    exact hcall _ rfl rfl
  · intro past prescaler ratio later heq
    obtain ⟨rfl, rfl, -⟩ := singleton_eq_append_cons heq
    left
    rw [List.append_nil, h.running]
    exact hcall _ rfl rfl
  · exact hsetting

theorem InStep.switch (h : InStep events t) {rate : UInt32} {divider : Divider}
    (hdivider : t.dividerFor? rate = some divider) :
    InStep (events ++ [.call .stop, .call (.program divider.prescaler divider.nominal),
      .call .start]) (t.switchTo rate).session := by
  rw [switchTo_session hdivider]
  apply h.append
  · exact running_append _ _
  · intro past frame later heq
    rcases triple_eq_append_cons heq with ⟨-, he, -⟩ | ⟨-, he, -⟩ | ⟨-, he, -⟩ <;> simp at he
  · intro past prescaler ratio later heq
    rcases triple_eq_append_cons heq with ⟨-, he, -⟩ | ⟨rfl, -, rfl⟩ | ⟨-, he, -⟩
    · simp at he
    · -- The one setting stands between the stop and the start.
      exact Or.inr ⟨[], [], rfl, rfl⟩
    · simp at he
  · intro stream hstream
    cases hstream
    rw [getLast?_settings_append]
    rfl

/-- A step of the feed of the stream that plays. -/
theorem InStep.play (h : InStep events t) {stream : Stream} {feed : Feed n}
    (hstream : t.stream = some stream)
    (step : Feed.Step stream.divider stream.marks t.feed more feed) :
    InStep (events ++ more) { t with feed := feed } := by
  have hactive : t.active = true := by rw [active, hstream]; rfl
  obtain ⟨e, rfl, hswitched, hspeed⟩ := event_of_step step
  -- The step starts and stops nothing, and whatever it calls for, the transmitter is running.
  apply h.single
  · rw [hswitched]
    rfl
  · exact fun _ _ _ => hactive
  · intro stream' hstream'
    obtain rfl : stream = stream' := Option.some.inj (hstream.symm.trans hstream')
    rw [getLast?_settings_concat, h.setting stream hstream]
    rcases hspeed with ⟨hnone, hsame⟩ | ⟨hsome, hother⟩
    · rw [hnone, hsame]
      rfl
    · rw [hsome, hother]
      rfl

/-- Every move keeps the agreement. -/
theorem InStep.move (h : InStep events t) (step : Move t more u) : InStep (events ++ more) u := by
  cases step with
  | switch hdivider => exact h.switch hdivider
  | halt =>
    apply h.single
    · rfl
    · intro _ _ hnone
      cases hnone
    · intro stream hstream
      cases hstream
  | install table =>
    rw [List.append_nil]
    exact ⟨h.running, h.send, h.program, h.setting⟩
  | idle hnone arrival =>
    have hstream := stream_arrive_of_none hnone arrival
    apply h.single
    · rw [active, active, hstream, hnone]
      cases arrival <;> rfl
    · intro call hcall
      cases arrival <;> cases hcall
    · intro stream hsome
      rw [hstream] at hsome
      cases hsome
  | play hstream step => exact h.play hstream step

/-! ## Back and forth -/

/-- The settings up to the next stop go back and forth, and as long as there is no stop, the stream
plays on and would next be given the setting of the other speed. -/
structure Alternates (stream : Stream) (first : Speed) (events : List Event) (t : Session n) :
    Prop where
  stretch : stretch events
    = stream.divider.alternation first (Trace.stretch events).length
  goesOn : (∀ e ∈ events, e.goesOn = true) → t.stream = some stream
    ∧ ∀ count, stream.divider.alternation first ((settings events).length + count)
      = settings events ++ stream.divider.alternation t.feed.pacer.speed.other count

/-- While there is no stop, what comes next decides. -/
theorem alternates_of_next {stream : Stream} {first : Speed}
    (hgoes : ∀ e ∈ events, e.goesOn = true) (hstream : t.stream = some stream)
    (hnext : ∀ count, stream.divider.alternation first ((settings events).length + count)
      = settings events ++ stream.divider.alternation t.feed.pacer.speed.other count) :
    Alternates stream first events t where
  stretch := by
    have hzero := hnext 0
    rw [Nat.add_zero] at hzero
    rw [stretch_of_goesOn hgoes, hzero]
    exact (List.append_nil _).symm
  goesOn := fun _ => ⟨hstream, hnext⟩

theorem alternates_start {stream : Stream} (h : s.stream = some stream) :
    Alternates stream s.feed.pacer.speed.other [] s := by
  apply alternates_of_next _ h
  · intro count
    rw [show (settings []).length = 0 from rfl, Nat.zero_add]
    rfl
  · exact fun e he => absurd he List.not_mem_nil

/-- Every move keeps the back and forth. -/
theorem Alternates.move {stream : Stream} {first : Speed} (h : Alternates stream first events t)
    (step : Move t more u) : Alternates stream first (events ++ more) u := by
  by_cases hgoes : ∀ e ∈ events, e.goesOn = true
  · obtain ⟨hstream, hnext⟩ := h.goesOn hgoes
    -- A move that begins with a stop ends the stretch.
    have hstop : ∀ rest, more = .call .stop :: rest →
        Alternates stream first (events ++ more) u := by
      rintro rest rfl
      refine ⟨?_, ?_⟩
      · have hend : Trace.stretch (events ++ .call .stop :: rest) = settings events := by
          rw [stretch_append_of_goesOn hgoes]
          exact List.append_nil _
        rw [hend, ← stretch_of_goesOn hgoes]
        exact h.stretch
      · intro hall
        have habsurd := hall (.call .stop) (by simp)
        cases habsurd
    cases step with
    | switch hdivider => exact hstop _ rfl
    | halt => exact hstop _ rfl
    | install table =>
      rw [List.append_nil]
      exact ⟨h.stretch, h.goesOn⟩
    | idle hnone arrival =>
      rw [hnone] at hstream
      cases hstream
    | play hplay step =>
      obtain rfl := Option.some.inj (hstream.symm.trans hplay)
      obtain ⟨e, rfl, hswitched, hspeed⟩ := event_of_step step
      refine alternates_of_next ?_ hstream ?_
      · intro e' he'
        rcases List.mem_append.mp he' with hpast | hnew
        · exact hgoes e' hpast
        · rw [List.mem_singleton.mp hnew, Event.goesOn, hswitched]
          rfl
      · intro count
        rw [settings_append, settings_single]
        rcases hspeed with ⟨hnone, hsame⟩ | ⟨hsome, hother⟩
        · rw [hnone, hsame, Option.toList_none, List.append_nil]
          exact hnext count
        · rw [hsome, hother, List.length_append, Nat.add_assoc, hnext, List.append_assoc,
            Nat.add_comm]
          rfl
  · refine ⟨?_, ?_⟩
    · rw [stretch_append_of_stop hgoes]
      exact h.stretch
    · intro hall
      exact absurd (fun e he => hall e (List.mem_append_left more he)) hgoes

/-- In a run of a session that plays a stream, the settings up to the next stop go back and forth,
and the first of them is not the one in force. -/
theorem stretch_after {stream : Stream} (h : s.stream = some stream)
    (operations : List Operation) :
    stretch (s.events operations)
      = stream.divider.alternation s.feed.pacer.speed.other
          (stretch (s.events operations)).length := by
  have hall := (course_after s operations).invariant _ (alternates_start h)
    fun _ _ _ _ => Alternates.move
  exact hall.stretch

/-! ## Starts -/

theorem start_switchTo {rate : UInt32} (h : .start ∈ (s.switchTo rate).calls) :
    ∃ divider, s.dividerFor? rate = some divider := by
  cases hdivider : s.dividerFor? rate with
  | none =>
    rw [switchTo_of_none hdivider] at h
    cases h
  | some divider => exact ⟨divider, rfl⟩

/-- A request of the host that makes calls is a switch to the rate in its data. -/
theorem start_answer {request : HostRequest} {data : Option (List UInt8)}
    (h : .start ∈ (s.answer request data).calls) :
    ∃ rate, (Operation.ask request data).rate? = some rate
      ∧ (s.answer request data).toResponse
        = ⟨(s.switchTo rate).result.map fun _ => SamplingFrequency.byteCount,
            (s.switchTo rate).session, (s.switchTo rate).calls⟩ := by
  rcases data with _ | bytes
  · cases h
  · cases request with
    | setCurrent =>
      rw [answer, setCurrent] at h ⊢
      cases hdecode : SamplingFrequency.decode bytes with
      | error e =>
        rw [hdecode] at h
        cases h
      | ok rate =>
        refine ⟨rate, ?_, rfl⟩
        rw [Operation.rate?, hdecode]
        rfl
    | getCurrent =>
      rw [answer, getCurrent] at h
      split at h <;> cases h

/-- A transmit interrupt starts nothing. -/
theorem not_start_transmit (s : Session n) (level : Nat) (due : List (List Arrival)) :
    .call .start ∉ (s.perform (.transmit level due)).1.events := by
  show .call .start ∉ (s.transmit Feed.interrupted level ⟨due, []⟩).2.2.events
  cases h : s.stream with
  | none =>
    rw [transmit_of_none _ _ h]
    exact List.not_mem_nil
  | some stream =>
    rw [transmit_of_some _ _ h]
    apply (Feed.refill_course level s.feed due).invariant
      (fun events _ => .call .start ∉ events) List.not_mem_nil
    intro events t more u hpast step hmem
    obtain ⟨e, rfl, hswitched, -⟩ := event_of_step step
    rcases List.mem_append.mp hmem with hin | hin
    · exact hpast hin
    · rw [← List.mem_singleton.mp hin] at hswitched
      cases hswitched

/-- An operation with a start among its events is a switch that is granted. -/
theorem start_perform {operation : Operation}
    (h : .call .start ∈ (s.perform operation).1.events) :
    ∃ rate divider, operation.rate? = some rate ∧ s.dividerFor? rate = some divider
      ∧ (s.perform operation).1.result.granted = true
      ∧ (s.perform operation).1.events
        = [.call .stop, .call (.program divider.prescaler divider.nominal), .call .start]
      ∧ (s.perform operation).2 = (s.switchTo rate).session := by
  cases operation with
  | switchTo rate =>
    have hstart : .start ∈ (s.switchTo rate).calls := by simpa [perform] using h
    obtain ⟨divider, hdivider⟩ := start_switchTo hstart
    obtain ⟨hresult, hcalls⟩ := switchTo_of_some hdivider
    refine ⟨rate, divider, rfl, hdivider, ?_, ?_, rfl⟩
    · show (s.switchTo rate).result.isOk = true
      rw [hresult]
      rfl
    · show (s.switchTo rate).calls.map Event.call = _
      rw [hcalls]
      rfl
  | halt => cases h with | tail _ h => cases h
  | install table => cases h
  | ask request data =>
    have hstart : .start ∈ (s.answer request data).calls := by simpa [perform] using h
    obtain ⟨rate, hrate, hresponse⟩ := start_answer hstart
    rw [hresponse] at hstart
    obtain ⟨divider, hdivider⟩ := start_switchTo hstart
    obtain ⟨hresult, hcalls⟩ := switchTo_of_some hdivider
    refine ⟨rate, divider, hrate, hdivider, ?_, ?_, ?_⟩
    · show (s.answer request data).result.isOk = true
      rw [hresponse, hresult]
      rfl
    · show (s.answer request data).calls.map Event.call = _
      rw [hresponse, hcalls]
      rfl
    · show (s.answer request data).session = _
      rw [hresponse]
  | arrive arrival =>
    cases arrival <;> cases h with | tail _ h => cases h
  | transmit level due => exact absurd h (not_start_transmit s level due)

/-- Every start of a run is the end of a granted switch, and what follows it goes back and forth. -/
theorem startsBySwitch {operations : List Operation} {past later : List Event}
    (h : s.events operations = past ++ .call .start :: later) :
    s.StartsBySwitch operations past later := by
  induction operations generalizing s past with
  | nil => simp [events] at h
  | cons operation rest ih =>
    rw [events_cons] at h
    rcases eq_append_cons h with ⟨more, hevents, hlater⟩ | ⟨more, hpast, hevents⟩
    · -- The start is among the events of this operation, which therefore are those of a switch.
      have hmem : .call .start ∈ (s.perform operation).1.events := by rw [hevents]; simp
      obtain ⟨rate, divider, hrate, hdivider, hgranted, htriple, hsession⟩ := start_perform hmem
      have hsplit : past = [.call .stop, .call (.program divider.prescaler divider.nominal)]
          ∧ more = [] := by
        rw [htriple] at hevents
        rcases triple_eq_append_cons hevents with ⟨-, he, -⟩ | ⟨-, he, -⟩ | ⟨hpast, -, hmore⟩
        · simp at he
        · simp at he
        · exact ⟨hpast, hmore⟩
      have hstream : (s.switchTo rate).session.stream = some (Stream.ofCapacity rate divider
          (min (Stream.bufferSize rate s.table.format) n)) := by rw [switchTo_session hdivider]
      have hspeed : (s.switchTo rate).session.feed.pacer.speed = .nominal := by
        rw [switchTo_session hdivider]
        rfl
      have hstretch := stretch_after hstream rest
      rw [hspeed] at hstretch
      refine ⟨[], operation, rest, rate, divider, rfl, hrate, hdivider, hgranted, htriple,
        hsplit.1, ?_⟩
      rw [hlater, hsplit.2, List.nil_append, hsession]
      exact hstretch
    · obtain ⟨before, switch, after, rate, divider, hrest, hrate, hdivider, hgranted, htriple,
        hmore, hstretch⟩ := ih hevents
      refine ⟨operation :: before, switch, after, rate, divider, ?_, hrate, hdivider, hgranted,
        htriple, ?_, hstretch⟩
      · rw [hrest]
        rfl
      · rw [hpast, hmore, events_cons, List.append_assoc]

/-! ## The protocol -/

/-- Whatever happens to a session, in whatever order and with whatever interrupts:

* every start is the end of a granted switch, and the settings from there to the next stop go back
  and forth, first to the fast one;
* a frame is sent only while the transmitter runs, and so is a setting, unless it is the one between
  the stop and the start of a switch;
* the transmitter runs exactly while a stream plays;
* while a stream plays, the last setting is the one of its divider for the speed in force. -/
theorem transmitter_protocol (table : RateTable) (h : 0 < n) (operations : List Operation) :
    (∀ past later, (idle table n h).events operations = past ++ .call .start :: later →
      (idle table n h).StartsBySwitch operations past later)
    ∧ (∀ past frame later,
      (idle table n h).events operations = past ++ .call (.send frame) :: later →
      Trace.running past = true)
    ∧ (∀ past prescaler ratio later,
      (idle table n h).events operations = past ++ .call (.program prescaler ratio) :: later →
      Trace.running past = true
        ∨ ∃ before rest, past = before ++ [.call .stop] ∧ later = .call .start :: rest)
    ∧ Trace.running ((idle table n h).events operations)
      = ((idle table n h).after operations).active
    ∧ ∀ stream, ((idle table n h).after operations).stream = some stream →
      (Trace.settings ((idle table n h).events operations)).getLast?
        = some (stream.divider.setting ((idle table n h).after operations).feed.pacer.speed) := by
  have hstep : InStep ((idle table n h).events operations) ((idle table n h).after operations) :=
    (course_after _ operations).invariant _ (inStep_idle table h) fun _ _ _ _ => InStep.move
  exact ⟨fun _ _ => startsBySwitch, hstep.send, hstep.program, hstep.running, hstep.setting⟩

/-- A run that speeds up and, after a boundary in the middle of a refill, slows down again. -/
theorem transmitter_protocol_there_and_back :
    let divider : Divider := ⟨5, ⟨3, 7⟩, ⟨4, 9⟩⟩
    let table : RateTable := ⟨[(48000, some divider)], 204000000, .stereo16⟩
    let operations : List Operation :=
      [.ask .setCurrent (some [0x80, 0xBB, 0]), .arrive (.packet (List.replicate 60 7)),
        .transmit 4 [[], [.packet [1, 2, 3, 4]]], .transmit 0 [[], [], [.boundary]]]
    0 < 64
      ∧ Trace.settings ((idle table 64 (Nat.succ_pos 63)).events operations)
        = [divider.setting .nominal, divider.setting .fast, divider.setting .nominal]
      ∧ (∀ past later,
        (idle table 64 (Nat.succ_pos 63)).events operations = past ++ .call .start :: later →
        (idle table 64 (Nat.succ_pos 63)).StartsBySwitch operations past later)
      ∧ Trace.running ((idle table 64 (Nat.succ_pos 63)).events operations)
        = ((idle table 64 (Nat.succ_pos 63)).after operations).active
      ∧ ∀ stream, ((idle table 64 (Nat.succ_pos 63)).after operations).stream = some stream →
        (Trace.settings ((idle table 64 (Nat.succ_pos 63)).events operations)).getLast?
          = some (stream.divider.setting
            ((idle table 64 (Nat.succ_pos 63)).after operations).feed.pacer.speed) := by
  intro divider table operations
  obtain ⟨hstart, -, -, hrunning, hsetting⟩ :=
    transmitter_protocol (n := 64) table (Nat.succ_pos 63) operations
  exact ⟨by decide, by decide, hstart, hrunning, hsetting⟩

end PacedAudio.Session
