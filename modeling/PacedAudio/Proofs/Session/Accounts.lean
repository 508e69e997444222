/-
# PacedAudio.Proofs.Session.Accounts — the books balance

Over every run of a session, whatever interrupts what, the tally agrees with the counters, with the
frames that the interrupts say they have queued and, since the last switch, with the bytes that
wait (`books_balance`). A restart of the feed is in no tally. It empties the ring, so bytes are
accounted for from one switch on, and it ends the fast speed without a change that is counted, so
changes to the fast speed outnumber the changes back by the restarts that did.
-/

import PacedAudio.Proofs.Session.Change
import PacedAudio.Proofs.Session.Entries

namespace PacedAudio

variable {n : Nat}

/-! ## Frames that a refill queues -/

namespace Feed

theorem sent_arriveAll (arrivals : List Arrival) (f : Feed n) (events : List Event) :
    Trace.sent (arriveAll arrivals (f, events)).2 = Trace.sent events := by
  induction arrivals generalizing f events with
  | nil => rfl
  | cons arrival rest ih =>
    rw [arriveAll_cons, ih, Trace.sent_append]
    cases arrival <;> exact List.append_nil _

/-- Of what happens during a call, only the call itself may send a frame. -/
theorem sent_interrupted (call : Transmitter.Call) (state : Feed n × Record) :
    Trace.sent (interrupted call state).2.events
      = Trace.sent state.2.events ++ Trace.sent [.call call] := by
  rw [← Trace.sent_append]
  exact sent_arriveAll _ _ _

theorem length_sent_sendFrames (count : Nat) (state : Feed n × Record) :
    (Trace.sent (sendFrames interrupted count state).2.events).length
      = (Trace.sent state.2.events).length + count := by
  induction count generalizing state with
  | zero => rfl
  | succ count ih =>
    obtain ⟨feed, record⟩ := state
    rw [sendFrames, ih, sent_interrupted, List.length_append]
    show (Trace.sent record.events).length + 1 + count
      = (Trace.sent record.events).length + (count + 1)
    omega

theorem sent_adjust (divider : Divider) (marks : Watermarks) (state : Feed n × Record) :
    Trace.sent (adjust interrupted divider marks state).2.events
      = Trace.sent state.2.events := by
  obtain ⟨feed, record⟩ := state
  by_cases h : (feed.look marks).2 = .hold
  · rw [adjust_of_hold interrupted divider h]
  · rw [adjust_interrupted h, sent_interrupted]
    exact List.append_nil _

/-- A refill answers how many frames it has sent. -/
theorem length_sent_refill (level : Nat) (divider : Divider) (marks : Watermarks)
    (f : Feed n) (due : List (List Arrival)) :
    (Trace.sent (refill interrupted level divider marks (f, ⟨due, []⟩)).2.2.events).length
      = (refill interrupted level divider marks (f, ⟨due, []⟩)).1 := by
  rcases Nat.lt_or_ge Transmitter.refillLevel level with hlevel | hlevel
  · rw [refill_of_lt interrupted hlevel, sent_interrupted]
    rfl
  · rw [refill_of_le interrupted hlevel, sent_adjust, length_sent_sendFrames, sent_interrupted]
    exact Nat.zero_add _

end Feed

namespace Session

variable {s t u : Session n} {operation : Operation} {operations : List Operation}
  {past : List Event}

/-! ## Arrivals and interrupts -/

/-- Arrivals and interrupts are courses of ticks, and their results say how many frames are sent. -/
theorem ticks_of_feeds (s : Session n) (h : operation.feeds = true) :
    Course Tick s (s.perform operation).1.events (s.perform operation).2
      ∧ (s.perform operation).1.result.frames
        = (Trace.sent (s.perform operation).1.events).length := by
  cases operation with
  | arrive arrival =>
    show Course Tick s [(s.arrive arrival).1] (s.arrive arrival).2
      ∧ 0 = (Trace.sent [(s.arrive arrival).1]).length
    cases hstream : s.stream with
    | none =>
      refine ⟨.single (.idle hstream arrival), ?_⟩
      cases arrival <;> rfl
    | some stream =>
      rw [arrive_of_some hstream]
      refine ⟨.single (.play hstream (.arrive s.feed arrival)), ?_⟩
      cases arrival <;> rfl
  | transmit level due =>
    show Course Tick s (s.transmit Feed.interrupted level ⟨due, []⟩).2.2.events
        (s.transmit Feed.interrupted level ⟨due, []⟩).2.1
      ∧ (s.transmit Feed.interrupted level ⟨due, []⟩).1
        = (Trace.sent (s.transmit Feed.interrupted level ⟨due, []⟩).2.2.events).length
    cases hstream : s.stream with
    | none =>
      rw [transmit_of_none _ _ hstream]
      exact ⟨.refl s, rfl⟩
    | some stream =>
      rw [transmit_of_some _ _ hstream]
      refine ⟨?_, (Feed.length_sent_refill level _ _ _ due).symm⟩
      exact (Feed.refill_course level s.feed due).map (fun feed => { s with feed := feed })
        fun feed _ _ step => Tick.play (s := { s with feed := feed }) hstream step
  | _ => cases h

/-! ## Everything else -/

/-- What an operation does to the feed that is neither an arrival nor an interrupt. -/
inductive Aside (s : Session n) (operation : Operation) (answer : Answer) (t : Session n) :
    Prop where
  /-- Transmission is stopped, and the feed restarted. -/
  | restart (capacity : Nat) (calls : List Transmitter.Call)
      (hrestarts : operation.restarts answer.result = true)
      (hfeed : t.feed = s.feed.restart capacity)
      (hevents : answer.events = (Transmitter.Call.stop :: calls).map .call)
      (hsent : Trace.sent answer.events = [])
  /-- Nothing happens to it. -/
  | keep (hrestarts : operation.restarts answer.result = false) (hfeed : t.feed = s.feed)
      (hevents : answer.events = [])

theorem aside_switchTo (s : Session n) (rate : UInt32) {operation : Operation} {answer : Answer}
    (hrate : operation.rate? = some rate)
    (hresult : answer.result.granted = (s.switchTo rate).result.isOk)
    (hevents : answer.events = (s.switchTo rate).calls.map .call) :
    Aside s operation answer (s.switchTo rate).session := by
  cases hdivider : s.dividerFor? rate with
  | none =>
    rw [switchTo_of_none hdivider] at hresult hevents ⊢
    refine .keep ?_ rfl hevents
    rw [Operation.restarts, hresult]
    rfl
  | some divider =>
    obtain ⟨hok, hcalls⟩ := switchTo_of_some hdivider
    rw [hok] at hresult
    rw [hcalls] at hevents
    refine .restart (min (Stream.bufferSize rate s.table.format) n) _ ?_ ?_ hevents ?_
    · rw [Operation.restarts, hresult, hrate]
      rfl
    · rw [switchTo_session hdivider]
    · rw [hevents]
      rfl

theorem aside_of_rate? {answer : Answer} (hrate : operation.rate? = none)
    (hhalt : (operation == .halt) = false) (hfeed : t.feed = s.feed) (hevents : answer.events = []) :
    Aside s operation answer t := by
  refine .keep ?_ hfeed hevents
  rw [Operation.restarts, hrate, hhalt]
  exact Bool.and_false _

theorem aside_ask (s : Session n) (request : HostRequest) (data : Option (List UInt8)) :
    Aside s (.ask request data) (s.perform (.ask request data)).1
      (s.perform (.ask request data)).2 := by
  rcases data with _ | bytes
  · exact aside_of_rate? (by cases request <;> rfl) rfl rfl rfl
  · cases request with
    | getCurrent =>
      have hquiet : (s.getCurrent bytes).session = s ∧ (s.getCurrent bytes).calls = [] := by
        rw [getCurrent]
        split <;> exact ⟨rfl, rfl⟩
      refine aside_of_rate? rfl rfl (congrArg feed hquiet.1) ?_
      show (s.getCurrent bytes).calls.map Event.call = []
      rw [hquiet.2]
      rfl
    | setCurrent =>
      show Aside s _ ⟨.answered (s.setCurrent bytes).result (s.setCurrent bytes).data,
        (s.setCurrent bytes).calls.map .call⟩ (s.setCurrent bytes).session
      cases hdecode : SamplingFrequency.decode bytes with
      | error e =>
        have hrate : Operation.rate? (.ask .setCurrent (some bytes)) = none := by
          rw [Operation.rate?, hdecode]
          rfl
        rw [setCurrent, hdecode]
        exact aside_of_rate? hrate rfl rfl rfl
      | ok rate =>
        have hrate : Operation.rate? (.ask .setCurrent (some bytes)) = some rate := by
          rw [Operation.rate?, hdecode]
          rfl
        rw [setCurrent, hdecode]
        refine aside_switchTo s rate hrate ?_ rfl
        show ((s.switchTo rate).result.map _).isOk = (s.switchTo rate).result.isOk
        cases (s.switchTo rate).result <;> rfl

theorem aside_perform (s : Session n) (h : operation.feeds = false) :
    Aside s operation (s.perform operation).1 (s.perform operation).2 := by
  cases operation with
  | switchTo rate => exact aside_switchTo s rate rfl rfl rfl
  | halt => exact .restart n [] rfl rfl rfl rfl
  | install table => exact aside_of_rate? rfl rfl rfl rfl
  | ask request data => exact aside_ask s request data
  | arrive arrival => cases h
  | transmit level due => cases h

theorem Aside.sent {answer : Answer} (h : Aside s operation answer t) :
    Trace.sent answer.events = [] := by
  cases h with
  | restart capacity calls hrestarts hfeed hevents hsent => exact hsent
  | keep hrestarts hfeed hevents =>
    rw [hevents]
    rfl

theorem frames_of_not_feeds (s : Session n) (h : operation.feeds = false) :
    (s.perform operation).1.result.frames = 0 := by
  cases operation with
  | arrive arrival => cases h
  | transmit level due => cases h
  | _ => rfl

/-! ## The counters over a run -/

theorem restarts_of_feeds (h : operation.feeds = true) (result : Result) :
    operation.restarts result = false := by
  cases operation with
  | arrive arrival => exact Bool.and_false _
  | transmit level due => exact Bool.and_false _
  | _ => cases h

/-- A restart is in no tally, but it may end the fast speed. -/
theorem booked_aside {answer : Answer} (h : Aside s operation answer t) :
    Booked s answer.events .blank
      (if operation.restarts answer.result ∧ s.feed.pacer.speed = .fast then 1 else 0) t := by
  cases h with
  | restart capacity calls hrestarts hfeed hevents hsent =>
    refine ⟨?_, ?_, ?_, ?_, rfl, ?_, ?_⟩
    · rw [hfeed]
      simp [Feed.restart, Ring.resize, Tally.blank]
    · rw [hfeed]
      simp [Feed.restart, Pacer.reset, Tally.blank]
    · rw [hfeed]
      simp [Feed.restart, Pacer.reset, Tally.blank]
    · rw [hfeed, hrestarts]
      cases hspeed : s.feed.pacer.speed <;> rfl
    · rw [hsent]
      rfl
    · intro _
      rw [hevents, List.countP_map]
      exact (List.countP_eq_zero.mpr fun call _ => Bool.false_ne_true).symm
  | keep hrestarts hfeed hevents =>
    rw [hrestarts, hevents, if_neg fun hboth => Bool.false_ne_true hboth.1]
    exact booked_quiet 0 0 0 (by rw [hfeed]) (by rw [hfeed]) rfl fun _ => rfl

theorem booked_perform (s : Session n) (operation : Operation) :
    Booked s (s.perform operation).1.events
      (if operation.feeds then s.tally (s.perform operation).1.events else .blank)
      (if operation.restarts (s.perform operation).1.result ∧ s.feed.pacer.speed = .fast then 1
        else 0)
      (s.perform operation).2 := by
  cases hfeeds : operation.feeds with
  | true =>
    rw [if_pos rfl, restarts_of_feeds hfeeds, if_neg fun hboth => Bool.false_ne_true hboth.1]
    exact booked_ticks (ticks_of_feeds s hfeeds).1
  | false => exact booked_aside (aside_perform s hfeeds)

theorem booked_after (s : Session n) (operations : List Operation) :
    Booked s (s.events operations) (s.account operations) (s.forced operations)
      (s.after operations) := by
  induction operations generalizing s with
  | nil => exact booked_quiet 0 0 0 rfl rfl rfl fun _ => rfl
  | cons operation rest ih =>
    rw [events_cons, after_cons]
    exact (booked_perform s operation).append (ih _)

/-- The results of a run say how many frames are sent. -/
theorem queued_eq (s : Session n) (operations : List Operation) :
    s.queued operations = (Trace.sent (s.events operations)).length := by
  induction operations generalizing s with
  | nil => rfl
  | cons operation rest ih =>
    have hframes : (s.perform operation).1.result.frames
        = (Trace.sent (s.perform operation).1.events).length := by
      cases hfeeds : operation.feeds with
      | true => exact (ticks_of_feeds s hfeeds).2
      | false => rw [frames_of_not_feeds s hfeeds, (aside_perform s hfeeds).sent]; rfl
    rw [events_cons, Trace.sent_append, List.length_append, ← ih, ← hframes]
    rfl

/-! ## The bytes since a switch -/

/-- After a stop, no flush goes unnoticed. -/
theorem missed_append_stop (past : List Event) (calls : List Transmitter.Call) :
    Trace.missed (past ++ (Transmitter.Call.stop :: calls).map .call) = 0 := by
  have hcalls : (calls.map Event.call).foldl Trace.missedNext 0 = 0 := by
    induction calls with
    | nil => rfl
    | cons call rest ih =>
      have hnext : Trace.missedNext 0 (.call call) = 0 := by
        cases call <;> rfl
      rw [List.map_cons, List.foldl_cons, hnext, ih]
  rw [Trace.missed, List.foldl_append]
  exact hcalls

theorem Aside.reads {answer : Answer} (h : Aside s operation answer t) (hreads : Reads past s) :
    Reads (past ++ answer.events) t := by
  cases h with
  | restart capacity calls hrestarts hfeed hevents hsent =>
    rw [Reads, hevents, missed_append_stop, hfeed]
    simp [Feed.restart, Ring.resize, Ring.unread]
  | keep hrestarts hfeed hevents =>
    rw [Reads, hevents, hfeed, List.append_nil]
    exact hreads

theorem reads_perform (operation : Operation) (hreads : Reads past s)
    (hmissed : ∀ before, before <+: past ++ (s.perform operation).1.events →
      Trace.missed before < 65536) :
    Reads (past ++ (s.perform operation).1.events) (s.perform operation).2 := by
  cases hfeeds : operation.feeds with
  | true => exact (conserved_ticks (ticks_of_feeds s hfeeds).1 hreads hmissed).1
  | false => exact (aside_perform s hfeeds).reads hreads

/-- All along a run, the ring's reader has missed as many flushes as the trace says. -/
theorem reads_after (operations : List Operation) (hreads : Reads past s)
    (hmissed : ∀ before, before <+: past ++ s.events operations → Trace.missed before < 65536) :
    Reads (past ++ s.events operations) (s.after operations) := by
  induction operations generalizing s past with
  | nil =>
    rw [show s.events [] = [] from rfl, List.append_nil]
    exact hreads
  | cons operation rest ih =>
    rw [events_cons, ← List.append_assoc] at hmissed ⊢
    refine ih (reads_perform operation hreads fun before hbefore => ?_) hmissed
    exact hmissed before (hbefore.trans (List.prefix_append _ _))

theorem conserved_perform (operation : Operation) (hreads : Reads past s)
    (hmissed : ∀ before, before <+: past ++ (s.perform operation).1.events →
      Trace.missed before < 65536)
    (hnone : operation.restarts (s.perform operation).1.result = false) :
    Conserves s (if operation.feeds then s.tally (s.perform operation).1.events else .blank)
      (s.perform operation).2 := by
  cases hfeeds : operation.feeds with
  | true => exact (conserved_ticks (ticks_of_feeds s hfeeds).1 hreads hmissed).2
  | false =>
    cases aside_perform s hfeeds with
    | restart capacity calls hrestarts hfeed hevents hsent =>
      rw [hrestarts] at hnone
      cases hnone
    | keep hrestarts hfeed hevents => simp [Conserves, Tally.blank, hfeed]

/-- Without a restart, no byte of a run is lost that is not in its tally. -/
theorem conserved_after (operations : List Operation) (hreads : Reads past s)
    (hmissed : ∀ before, before <+: past ++ s.events operations → Trace.missed before < 65536)
    (hnone : ∀ between next rest, operations = between ++ next :: rest →
      next.restarts ((s.after between).perform next).1.result = false) :
    Conserves s (s.account operations) (s.after operations) := by
  induction operations generalizing s past with
  | nil => simp [Conserves, account, Tally.blank, after, run]
  | cons operation rest ih =>
    rw [events_cons, ← List.append_assoc] at hmissed
    have hfirst : ∀ before, before <+: past ++ (s.perform operation).1.events →
        Trace.missed before < 65536 := fun before hbefore =>
      hmissed before (hbefore.trans (List.prefix_append _ _))
    refine (conserved_perform operation hreads hfirst (hnone [] operation rest rfl)).append
      (ih (reads_perform operation hreads hfirst) hmissed ?_)
    rintro between next rest' rfl
    exact hnone (operation :: between) next rest' rfl

/-! ## A stream that plays on -/

/-- Without a switch, a session that plays nothing goes on playing nothing. -/
theorem stream_after_of_none (hstream : s.stream = none) (operations : List Operation)
    (hnone : ∀ between next rest, operations = between ++ next :: rest →
      ∀ rate, ¬ (s.after between).Switches next rate) :
    (s.after operations).stream = none := by
  induction operations using List.reverseRecOn with
  | nil => exact hstream
  | append_singleton operations operation ih =>
    have hbefore := ih fun between next rest heq => hnone between next (rest ++ [operation])
      (by rw [heq, List.append_assoc]; rfl)
    have hchange := change_perform (s.after operations) operation
    rw [after_concat]
    generalize ((s.after operations).perform operation).2 = t at hchange ⊢
    cases hchange with
    | switch hswitch hdivider => exact absurd hswitch (hnone operations operation [] rfl _)
    | halt => rfl
    | install table => exact hbefore
    | play hrate htable hplays hcourse => exact hbefore
    | flush hidle => exact hbefore
    | keep hnone' htable => exact hbefore

/-- Without a switch, a session that plays in the end has not been restarted. -/
theorem not_restarts_of_active (operations : List Operation)
    (hnone : ∀ between next rest, operations = between ++ next :: rest →
      ∀ rate, ¬ (s.after between).Switches next rate)
    (hactive : (s.after operations).active = true) :
    ∀ between next rest, operations = between ++ next :: rest →
      next.restarts ((s.after between).perform next).1.result = false := by
  rintro between next rest rfl
  refine Bool.eq_false_iff.mpr fun hrestarts => ?_
  rw [Operation.restarts, Bool.and_eq_true, Bool.or_eq_true] at hrestarts
  obtain ⟨hgranted, hrate | hhalt⟩ := hrestarts
  · obtain ⟨rate, hrate⟩ := Option.isSome_iff_exists.mp hrate
    exact hnone between next rest rfl rate ⟨hrate, hgranted⟩
  · rw [beq_iff_eq] at hhalt
    subst hhalt
    have hstream : ((s.after between).perform .halt).2.stream = none := rfl
    have hlater := stream_after_of_none hstream rest fun between' next' rest' heq => by
      have hnext := hnone (between ++ .halt :: between') next' rest' (by rw [heq]; simp)
      rwa [after_append] at hnext
    rw [active, after_append, after_cons, hlater] at hactive
    cases hactive

/-! ## The books -/

/-- After a switch nothing waits. -/
theorem fill_of_switches {rate : UInt32} (h : s.Switches operation rate) :
    (s.perform operation).2.feed.ring.fill = 0 := by
  obtain ⟨hrate, hgranted⟩ := h
  have hfeeds : operation.feeds = false := by
    cases operation with
    | arrive arrival => cases hrate
    | transmit level due => cases hrate
    | _ => rfl
  cases aside_perform s hfeeds with
  | restart capacity calls hrestarts hfeed hevents hsent =>
    rw [hfeed]
    exact Ring.fill_resize _ _
  | keep hrestarts hfeed hevents =>
    rw [Operation.restarts, hgranted, hrate] at hrestarts
    cases hrestarts

/-- The bytes since a switch, in a session that plays in the end. -/
theorem bytes_since {start : Session n} {later : List Operation} (hreads : Reads [] s)
    (hmissed : ∀ before, before <+: s.events operations → Trace.missed before < 65536)
    (hsince : s.SinceSwitch operations start later)
    (hactive : (s.after operations).active = true) :
    (start.account later).stored
      = playedFrameBytes * (start.account later).fresh + (start.account later).discarded
        + (s.after operations).status.fill := by
  obtain ⟨before, operation, rate, rfl, hswitch, rfl, hnone⟩ := hsince
  have happend : before ++ operation :: later = (before ++ [operation]) ++ later := by simp
  rw [happend, events_append s (before ++ [operation]) later] at hmissed
  rw [happend, after_append s (before ++ [operation]) later] at hactive ⊢
  have hreads' := reads_after (before ++ [operation]) hreads fun past hpast =>
    hmissed past (hpast.trans (List.prefix_append _ _))
  have hconserves := conserved_after later hreads' hmissed
    (not_restarts_of_active later hnone hactive)
  have hstart : (s.after (before ++ [operation])).feed.ring.fill = 0 := by
    rw [after_concat]
    exact fill_of_switches hswitch
  rw [Conserves, hstart, Nat.zero_add] at hconserves
  exact hconserves

theorem reads_idle (table : RateTable) (h : 0 < n) : Reads [] (idle table n h) := by
  simp [Reads, idle, Feed.empty, Ring.empty, Ring.unread, Trace.missed]

/-- What outnumbers modulo 2^32. -/
theorem sub_ofNat {more fewer difference : Nat} (h : more = fewer + difference) :
    UInt32.ofNat more - UInt32.ofNat fewer = UInt32.ofNat difference := by
  rw [h, UInt32.ofNat_add, UInt32.add_comm, UInt32.add_sub_cancel]

/-- The books of every run balance, if fewer than 65536 flushes in a row come without a frame being
taken or the feed restarted, and fewer packets overrun than can be counted. -/
theorem books_balance (table : RateTable) (h : 0 < n) (operations : List Operation)
    (hmissed : ∀ past, past <+: (idle table n h).events operations → Trace.missed past < 65536)
    (hroom : ((idle table n h).events operations).countP Event.overran < Word.bound 32) :
    (idle table n h).Balances operations := by
  have hbooked := booked_after (idle table n h) operations
  have hnever : (idle table n h).feed.ring.overruns.toNat = 0 := rfl
  have hcounts := overruns_after (idle table n h) operations (by rwa [hnever, Nat.zero_add])
  refine
    { through := ?_, bytes := ?_, queuedSince := ?_, queued := ?_, overruns := ?_
      plain := hcounts.plain, underruns := ?_, speedUps := ?_, slowDowns := ?_
      settings := hbooked.settings.symm, turns := ?_, kept := ?_ }
  · rintro before operation later - hfeeds
    rw [after_concat]
    exact through_ticks (ticks_of_feeds _ hfeeds).1
  · intro start later hsince hactive
    exact bytes_since (reads_idle table h) hmissed hsince hactive
  · intro start later _
    rw [queued_eq, (booked_after start later).frames]
  · rw [queued_eq, hbooked.frames]
  · rw [hbooked.overruns hcounts.plain]
    exact hcounts.total.trans (Nat.zero_add _)
  · exact hbooked.underruns.trans (UInt32.zero_add _)
  · exact hbooked.speedUps.trans (UInt32.zero_add _)
  · exact hbooked.slowDowns.trans (UInt32.zero_add _)
  · have hturns : ((idle table n h).account operations).speedUps = _ := hbooked.turns
    have hups := hbooked.speedUps.trans (UInt32.zero_add _)
    have hdowns := hbooked.slowDowns.trans (UInt32.zero_add _)
    show ((idle table n h).after operations).feed.pacer.speedUps
      - ((idle table n h).after operations).feed.pacer.slowDowns = _
    rw [hups, hdowns]
    rw [Speed.ahead_eq] at hturns
    exact sub_ofNat (hturns.trans (Nat.add_assoc _ _ _))
  · rintro before operation later - hfeeds
    rw [after_concat]
    cases aside_perform ((idle table n h).after before) hfeeds with
    | restart capacity calls hrestarts hfeed hevents hsent =>
      simp [status, hfeed, Feed.restart, Ring.resize, Pacer.reset]
    | keep hrestarts hfeed hevents => simp [status, hfeed]

/-- A ring of ten bytes. A packet in the middle of a refill leads to the fast speed, from which a
switch leads back, and in the middle of the next refill a packet overruns and the host's stream
starts anew. -/
theorem books_balance_interrupted :
    let table : RateTable := ⟨[(48000, some ⟨5, ⟨3, 7⟩, ⟨4, 9⟩⟩)], 204000000, .stereo16⟩
    let operations : List Operation :=
      [.switchTo 48000, .arrive (.packet [1, 2, 3, 4, 5, 6, 7, 8]),
        .transmit 4 [[], [.packet [9, 10, 11, 12]], [], [],
          [.packet [13, 14, 15, 16, 17, 18, 19, 20]]],
        .switchTo 48000, .arrive (.packet [1, 2, 3, 4, 5, 6, 7, 8]),
        .transmit 4 [[.packet [9, 10, 11, 12]], [.packet [13, 14, 15, 16], .boundary],
          [.packet [17, 18, 19, 20, 21]]],
        .arrive (.packet [22, 23])]
    0 < 10
      ∧ (∀ past, past <+: (idle table 10 (Nat.succ_pos 9)).events operations →
        Trace.missed past < 65536)
      ∧ ((idle table 10 (Nat.succ_pos 9)).events operations).countP Event.overran < Word.bound 32
      ∧ (idle table 10 (Nat.succ_pos 9)).account operations
        = { stored := 39, discarded := 12, fresh := 4, again := 4, overruns := 1, settings := 1,
            speedUps := 1 }
      ∧ (idle table 10 (Nat.succ_pos 9)).forced operations = 1
      ∧ (idle table 10 (Nat.succ_pos 9)).Balances operations := by
  intro table operations
  have hmissed : ∀ past, past <+: (idle table 10 (Nat.succ_pos 9)).events operations →
      Trace.missed past < 65536 := by
    intro past hpast
    have hlength : ((idle table 10 (Nat.succ_pos 9)).events operations).length = 26 := by decide
    have hprefix := hpast.length_le
    have hle := Trace.missed_le_length past
    omega
  have hroom : ((idle table 10 (Nat.succ_pos 9)).events operations).countP Event.overran
      < Word.bound 32 := by
    have hcount :
        ((idle table 10 (Nat.succ_pos 9)).events operations).countP Event.overran = 1 := by decide
    rw [hcount]
    decide
  exact ⟨by decide, hmissed, hroom, by decide +kernel, by decide +kernel,
    books_balance table (Nat.succ_pos 9) operations hmissed hroom⟩

end Session

end PacedAudio
