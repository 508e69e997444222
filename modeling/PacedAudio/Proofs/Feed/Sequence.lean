/-
# PacedAudio.Proofs.Feed.Sequence — an interrupted refill as one sequence of ring operations

A refill and the arrivals that interrupt it use the same ring. Put in the order in which they use
it, what they do is a sequence of ring operations: first what arrives as the refill asks for the
level of the queue, and then, for each frame, that frame taken and what arrives as it is sent
(`sequence`). The frames that are sent are the ones that this sequence brings, and the speed is
decided by the fill that it leaves. What arrives while the divider is programmed comes too late to
be heard, and a change of speed is made as a whole or not at all (`refill_in_sequence`).
-/

import PacedAudio.Proofs.Feed.Course
import PacedAudio.Ring.Operation
import PacedAudio.Session.Checked
import PacedAudio.Session.Trace

namespace PacedAudio

/-! ## Operations, frames and calls -/

/-- What an arrival asks of the ring. -/
def Arrival.operation : Arrival → Ring.Operation
  | .packet bytes => .push bytes
  | .boundary => .flush

/-- The call on the transmitter that an event is. -/
def Event.call? : Event → Option Transmitter.Call
  | .call made => some made
  | _ => none

namespace Trace

/-- All calls on the transmitter, in order. -/
def calls (events : List Event) : List Transmitter.Call := events.filterMap Event.call?

theorem calls_append (past later : List Event) :
    calls (past ++ later) = calls past ++ calls later :=
  List.filterMap_append

end Trace

namespace Ring

variable {n : Nat}

/-- The frame that an answer brings to be played, be it fresh or played again. -/
def Answer.played? : Answer → Option UInt32
  | .frame taken => some taken.value
  | _ => none

/-- All frames that a sequence of operations brings to be played, in order. -/
def played (r : Ring n) (operations : List Operation) : List UInt32 :=
  (r.answers operations).filterMap Answer.played?

theorem played_append (r : Ring n) (first second : List Operation) :
    r.played (first ++ second) = r.played first ++ (r.after first).played second := by
  simp only [played, answers, after, run_append, List.filterMap_append]

theorem played_takeFrame (r : Ring n) (rest : List Operation) :
    r.played (.takeFrame :: rest) = r.takeFrame.1.value :: r.takeFrame.2.played rest :=
  rfl

/-- Arrivals bring nothing to be played. -/
theorem played_arrivals (r : Ring n) (arrivals : List Arrival) :
    r.played (arrivals.map Arrival.operation) = [] := by
  induction arrivals generalizing r with
  | nil => rfl
  | cons arrival rest ih =>
    cases arrival with
    | packet bytes => exact ih (r.push bytes).2
    | boundary => exact ih r.flush

end Ring

namespace Feed

variable {n : Nat}

/-- For each of `count` frames, the frame taken and then what is due as it is sent. -/
def turns : Nat → List (List Arrival) → List Ring.Operation
  | 0, _ => []
  | count + 1, due =>
    .takeFrame :: ((due.headD []).map Arrival.operation ++ turns count due.tail)

/-- What a refill of `count` frames does to the ring before it looks at the fill: what is due as it
asks for the level, and then the frames in turn. -/
def sequence (count : Nat) (due : List (List Arrival)) : List Ring.Operation :=
  (due.headD []).map Arrival.operation ++ turns count due.tail

/-! ## What a refill amounts to -/

/-- From one state of a refill to a later one, operations have been performed on the ring and calls
made on the transmitter. Each call has had what was due in it, and the pacer is as it was. -/
structure Amounts (state : Feed n × Record) (operations : List Ring.Operation)
    (calls : List Transmitter.Call) (later : Feed n × Record) : Prop where
  ring : later.1.ring = state.1.ring.after operations
  pacer : later.1.pacer = state.1.pacer
  due : later.2.due = state.2.due.drop calls.length
  calls : Trace.calls later.2.events = Trace.calls state.2.events ++ calls

namespace Amounts

variable {state later last : Feed n × Record} {operations more : List Ring.Operation}
  {calls others : List Transmitter.Call}

theorem refl (state : Feed n × Record) : Amounts state [] [] state where
  ring := rfl
  pacer := rfl
  due := rfl
  calls := (List.append_nil _).symm

theorem trans (h : Amounts state operations calls later) (h' : Amounts later more others last) :
    Amounts state (operations ++ more) (calls ++ others) last where
  ring := by rw [h'.ring, h.ring, Ring.after_append]
  pacer := h'.pacer.trans h.pacer
  due := by rw [h'.due, h.due, List.drop_drop, List.length_append]
  calls := by rw [h'.calls, h.calls, List.append_assoc]

end Amounts

theorem arriveAll_amounts (arrivals : List Arrival) (f : Feed n) (events : List Event) :
    (arriveAll arrivals (f, events)).1
        = { f with ring := f.ring.after (arrivals.map Arrival.operation) }
      ∧ Trace.calls (arriveAll arrivals (f, events)).2 = Trace.calls events := by
  induction arrivals generalizing f events with
  | nil => exact ⟨rfl, rfl⟩
  | cons arrival rest ih =>
    obtain ⟨hfeed, hcalls⟩ := ih (f.arrive arrival).2 (events ++ [(f.arrive arrival).1])
    rw [arriveAll_cons, hfeed, hcalls, Trace.calls_append]
    cases arrival with
    | packet bytes => exact ⟨rfl, List.append_nil _⟩
    | boundary => exact ⟨rfl, List.append_nil _⟩

/-- A call, with what is due in it. -/
theorem interrupted_amounts (call : Transmitter.Call) (f : Feed n) (record : Record) :
    Amounts (f, record) ((record.due.headD []).map Arrival.operation) [call]
      (interrupted call (f, record)) := by
  obtain ⟨hfeed, hcalls⟩ :=
    arriveAll_amounts (record.due.headD []) f (record.events ++ [.call call])
  refine ⟨?_, ?_, List.drop_one.symm, hcalls.trans (Trace.calls_append _ _)⟩
  · exact congrArg (fun feed => feed.ring) hfeed
  · exact congrArg (fun feed => feed.pacer) hfeed

/-- The frames that are sent are the ones that the turns bring. -/
theorem sendFrames_amounts (count : Nat) (f : Feed n) (record : Record) :
    Amounts (f, record) (turns count record.due)
      ((f.ring.played (turns count record.due)).map .send)
      (sendFrames interrupted count (f, record)) := by
  induction count generalizing f record with
  | zero => exact .refl _
  | succ count ih =>
    have htaken : Amounts (f, record) [.takeFrame] [] (f.takeFrame.2, record) :=
      ⟨rfl, rfl, rfl, (List.append_nil _).symm⟩
    have hcall := interrupted_amounts (.send f.takeFrame.1.value) f.takeFrame.2 record
    have hrest := ih (interrupted (.send f.takeFrame.1.value) (f.takeFrame.2, record)).1
      (interrupted (.send f.takeFrame.1.value) (f.takeFrame.2, record)).2
    have hdue : (interrupted (.send f.takeFrame.1.value) (f.takeFrame.2, record)).2.due
        = record.due.tail := rfl
    have hall := (htaken.trans hcall).trans hrest
    rw [hcall.ring, hdue] at hall
    rw [turns, Ring.played_takeFrame, Ring.played_append, Ring.played_arrivals]
    exact hall

/-- The level has been asked for and the frames have been sent. -/
theorem filled_amounts (count : Nat) (f : Feed n) (due : List (List Arrival)) :
    Amounts (f, ⟨due, []⟩) (sequence count due)
      (.queued :: (f.ring.played (sequence count due)).map .send)
      (sendFrames interrupted count (interrupted .queued (f, ⟨due, []⟩))) := by
  have hasked := interrupted_amounts .queued f ⟨due, []⟩
  have hsent := sendFrames_amounts count (interrupted .queued (f, ⟨due, []⟩)).1
    (interrupted .queued (f, ⟨due, []⟩)).2
  have hdue : (interrupted .queued (f, ⟨due, []⟩)).2.due = due.tail := rfl
  have hall := hasked.trans hsent
  rw [hasked.ring, hdue] at hall
  rw [sequence, Ring.played_append, Ring.played_arrivals]
  exact hall

theorem length_played_turns (count : Nat) (r : Ring n) (due : List (List Arrival)) :
    (r.played (turns count due)).length = count := by
  induction count generalizing r due with
  | zero => rfl
  | succ count ih =>
    rw [turns, Ring.played_takeFrame, Ring.played_append, Ring.played_arrivals, List.nil_append,
      List.length_cons, ih]

theorem length_played_sequence (count : Nat) (r : Ring n) (due : List (List Arrival)) :
    (r.played (sequence count due)).length = count := by
  rw [sequence, Ring.played_append, Ring.played_arrivals, List.nil_append, length_played_turns]

/-- What is due after the last frame is not among the turns. -/
theorem turns_take (count : Nat) (due : List (List Arrival)) :
    turns count (due.take count) = turns count due := by
  induction count generalizing due with
  | zero => rfl
  | succ count ih =>
    cases due with
    | nil => rfl
    | cons first rest =>
      rw [List.take_succ_cons, turns, turns, List.tail_cons, List.tail_cons, ih]
      rfl

theorem sequence_take (count : Nat) (due : List (List Arrival)) :
    sequence count (due.take (count + 1)) = sequence count due := by
  cases due with
  | nil => rfl
  | cons first rest =>
    rw [List.take_succ_cons, sequence, sequence, List.tail_cons, List.tail_cons, turns_take]
    rfl

/-! ## The speed -/

/-- The call by which the speed is changed, if the fill asks for that. -/
def changeCalls (f : Feed n) (divider : Divider) (marks : Watermarks) : List Transmitter.Call :=
  if (f.look marks).2 = .hold then []
  else [.program divider.prescaler (divider.ratio (f.look marks).1)]

/-- A look at the fill leaves everything as it is, or it changes the speed to the other one and
counts that once. -/
theorem look_cases (f : Feed n) (divider : Divider) (marks : Watermarks) :
    f.look marks = (f.pacer.speed, .hold) ∧ f.changeCalls divider marks = []
        ∧ (f.paced marks).pacer = f.pacer
      ∨ f.look marks = (.fast, .speedUp)
        ∧ f.changeCalls divider marks = [.program divider.prescaler divider.fast]
        ∧ (f.paced marks).pacer = ⟨.fast, f.pacer.speedUps + 1, f.pacer.slowDowns⟩
      ∨ f.look marks = (.nominal, .slowDown)
        ∧ f.changeCalls divider marks = [.program divider.prescaler divider.nominal]
        ∧ (f.paced marks).pacer = ⟨.nominal, f.pacer.speedUps, f.pacer.slowDowns + 1⟩ := by
  have hlook : f.look marks = (f.pacer.speed, .hold) ∨ f.look marks = (.fast, .speedUp)
      ∨ f.look marks = (.nominal, .slowDown) := by
    rw [look]
    cases f.pacer.speed <;> simp only [Watermarks.next] <;> split <;> simp
  rcases hlook with hhold | hup | hdown
  · refine .inl ⟨hhold, ?_, ?_⟩
    · rw [changeCalls, hhold, if_pos rfl]
    · rw [paced_of_hold (by rw [hhold])]
  · refine .inr (.inl ⟨hup, ?_, ?_⟩)
    · rw [changeCalls, hup]
      rfl
    · rw [paced, hup]
      rfl
  · refine .inr (.inr ⟨hdown, ?_, ?_⟩)
    · rw [changeCalls, hdown]
      rfl
    · rw [paced, hdown]
      rfl

/-- What is due as the divider is programmed comes after the decision, and the new speed is in force
whatever that is. -/
theorem adjust_amounts (divider : Divider) (marks : Watermarks) (f : Feed n) (record : Record) :
    Amounts (f.paced marks, record)
      (if (f.look marks).2 = .hold then [] else (record.due.headD []).map Arrival.operation)
      (f.changeCalls divider marks) (adjust interrupted divider marks (f, record)) := by
  by_cases hhold : (f.look marks).2 = .hold
  · rw [adjust_of_hold interrupted divider hhold, paced_of_hold hhold, changeCalls, if_pos hhold,
      if_pos hhold]
    exact .refl _
  · rw [adjust_interrupted hhold, changeCalls, if_neg hhold, if_neg hhold]
    exact interrupted_amounts _ _ _

/-! ## The refill -/

/-- The feed that a refill of `count` frames decides on the speed by. -/
def filled (f : Feed n) (count : Nat) (due : List (List Arrival)) : Feed n :=
  { f with ring := f.ring.after (sequence count due) }

theorem refill_eq_sequence {level count : Nat} (hlevel : level ≤ Transmitter.refillLevel)
    (hcount : count = Transmitter.queueDepth - level) (divider : Divider) (marks : Watermarks)
    (f : Feed n) (due : List (List Arrival)) :
    let refilled := refill interrupted level divider marks (f, ⟨due, []⟩)
    refilled.1 = count
      ∧ refilled.2.1.ring = (f.filled count due).ring.after
        (if ((f.filled count due).look marks).2 = .hold then []
          else ((due.drop (count + 1)).headD []).map Arrival.operation)
      ∧ refilled.2.1.pacer = ((f.filled count due).paced marks).pacer
      ∧ Trace.calls refilled.2.2.events
        = .queued :: (f.ring.played (sequence count due)).map .send
          ++ (f.filled count due).changeCalls divider marks := by
  intro refilled
  have hrefilled : refilled
      = (count, adjust interrupted divider marks
          (sendFrames interrupted count (interrupted .queued (f, ⟨due, []⟩)))) := by
    rw [hcount]
    exact refill_of_le interrupted hlevel divider marks _
  have hsent := filled_amounts count f due
  generalize sendFrames interrupted count (interrupted .queued (f, ⟨due, []⟩)) = sent
    at hrefilled hsent
  obtain ⟨feed, record⟩ := sent
  obtain rfl : feed = f.filled count due := by
    show (⟨feed.ring, feed.pacer⟩ : Feed n) = _
    rw [hsent.ring, hsent.pacer]
    rfl
  have hdue : record.due = due.drop (count + 1) := by
    rw [hsent.due, List.length_cons, List.length_map, length_played_sequence]
  have hadjusted := adjust_amounts divider marks (f.filled count due) record
  rw [hrefilled]
  refine ⟨rfl, ?_, hadjusted.pacer, ?_⟩
  · rw [hadjusted.ring, hdue]
    rfl
  · rw [hadjusted.calls, hsent.calls]
    rfl

/-- With too many frames queued, only what is due as their number is asked for happens. -/
theorem refill_of_many {level : Nat} (hlevel : Transmitter.refillLevel < level) (divider : Divider)
    (marks : Watermarks) (f : Feed n) (due : List (List Arrival)) :
    let refilled := refill interrupted level divider marks (f, ⟨due, []⟩)
    refilled.1 = 0 ∧ Trace.calls refilled.2.2.events = [.queued] ∧ refilled.2.1.pacer = f.pacer
      ∧ refilled.2.1.ring = f.ring.after ((due.headD []).map Arrival.operation) := by
  intro refilled
  have hasked := interrupted_amounts .queued f ⟨due, []⟩
  have hrefilled : refilled = (0, interrupted .queued (f, ⟨due, []⟩)) :=
    refill_of_lt interrupted hlevel divider marks _
  rw [hrefilled]
  exact ⟨rfl, hasked.calls, hasked.pacer, hasked.ring⟩

/-- What is due after the last frame changes neither the pacer nor a call: either refill decides
after the same sequence. -/
theorem refill_of_take_eq {level count : Nat} (hlevel : level ≤ Transmitter.refillLevel)
    (hcount : count = Transmitter.queueDepth - level) (divider : Divider) (marks : Watermarks)
    (f : Feed n) {due due' : List (List Arrival)}
    (hdue : due'.take (count + 1) = due.take (count + 1)) :
    let refilled := refill interrupted level divider marks (f, ⟨due, []⟩)
    let other := refill interrupted level divider marks (f, ⟨due', []⟩)
    other.2.1.pacer = refilled.2.1.pacer
      ∧ Trace.calls other.2.2.events = Trace.calls refilled.2.2.events := by
  obtain ⟨-, -, hpacer, hcalls⟩ := refill_eq_sequence hlevel hcount divider marks f due
  obtain ⟨-, -, hpacer', hcalls'⟩ := refill_eq_sequence hlevel hcount divider marks f due'
  have hsequence : sequence count due' = sequence count due := by
    rw [← sequence_take count due', hdue, sequence_take]
  have hfilled : f.filled count due' = f.filled count due := by
    rw [filled, hsequence]
    rfl
  refine ⟨?_, ?_⟩
  · rw [hpacer', hfilled, ← hpacer]
  · rw [hcalls', hsequence, hfilled, ← hcalls]

/-- One transmit interrupt, whatever arrives in the middle of it. No step of its arithmetic is out
of range. If too many frames are queued, it does nothing but ask for their number. Otherwise it
sends the frames that the ring brings when what arrives is put in sequence with them, and then makes
at most one more call. The speed is decided by the fill after the last frame and what arrives as
that is sent: either it stays and nothing is counted, or the divider is programmed for the other
speed, that speed is in force and the change is counted. None of this depends on what arrives as the
divider is programmed. -/
theorem refill_in_sequence (level : Nat) (divider : Divider) (marks : Watermarks) (f : Feed n)
    (due : List (List Arrival)) :
    let refilled := refill interrupted level divider marks (f, ⟨due, []⟩)
    let calls := Trace.calls refilled.2.2.events
    let count := 8 - level
    let before := f.ring.after (sequence count due)
    let late := ((due.drop (count + 1)).headD []).map Arrival.operation
    let decision := marks.next f.pacer.speed before.fill
    (2 * n < Word.bound 16 →
        refill? interrupted level divider marks (f, ⟨due, []⟩) = .ok refilled)
      ∧ (4 < level →
        refilled.1 = 0 ∧ calls = [.queued] ∧ refilled.2.1.pacer = f.pacer
          ∧ refilled.2.1.ring = f.ring.after ((due.headD []).map Arrival.operation))
      ∧ (level ≤ 4 →
        refilled.1 = count
          ∧ (f.ring.played (sequence count due)).length = count
          ∧ (∃ change, calls = .queued :: (f.ring.played (sequence count due)).map .send ++ change
            ∧ (decision = (f.pacer.speed, .hold) ∧ change = []
                ∧ refilled.2.1.pacer = f.pacer ∧ refilled.2.1.ring = before
              ∨ decision = (.fast, .speedUp)
                ∧ change = [.program divider.prescaler divider.fast]
                ∧ refilled.2.1.pacer = ⟨.fast, f.pacer.speedUps + 1, f.pacer.slowDowns⟩
                ∧ refilled.2.1.ring = before.after late
              ∨ decision = (.nominal, .slowDown)
                ∧ change = [.program divider.prescaler divider.nominal]
                ∧ refilled.2.1.pacer = ⟨.nominal, f.pacer.speedUps, f.pacer.slowDowns + 1⟩
                ∧ refilled.2.1.ring = before.after late))
          ∧ ∀ due', due'.take (count + 1) = due.take (count + 1) →
            let other := refill interrupted level divider marks (f, ⟨due', []⟩)
            other.2.1.pacer = refilled.2.1.pacer ∧ Trace.calls other.2.2.events = calls) := by
  intro refilled calls count before late decision
  refine ⟨fun hn => refill?_eq hn interrupted level divider marks _,
    fun hlevel => refill_of_many hlevel divider marks f due, fun hlevel => ?_⟩
  have hslots : count = Transmitter.queueDepth - level := rfl
  obtain ⟨hcount, hring, hpacer, hcalls⟩ := refill_eq_sequence hlevel hslots divider marks f due
  refine ⟨hcount, length_played_sequence count f.ring due, ⟨_, hcalls, ?_⟩,
    fun due' hdue => refill_of_take_eq hlevel hslots divider marks f hdue⟩
  rcases (f.filled count due).look_cases divider marks with
    ⟨hlook, hchange, hpaced⟩ | ⟨hlook, hchange, hpaced⟩ | ⟨hlook, hchange, hpaced⟩
  · rw [hlook, if_pos rfl] at hring
    exact .inl ⟨hlook, hchange, hpacer.trans hpaced, hring⟩
  · rw [hlook, if_neg (by decide)] at hring
    exact .inr (.inl ⟨hlook, hchange, hpacer.trans hpaced, hring⟩)
  · rw [hlook, if_neg (by decide)] at hring
    exact .inr (.inr ⟨hlook, hchange, hpacer.trans hpaced, hring⟩)

/-- The ring is emptied, runs dry and overruns between the frames, and is filled up again as the
last one is sent. That it is emptied once more as the divider is programmed changes nothing. -/
theorem refill_in_sequence_interrupted :
    let f : Feed 16 := ((Feed.empty 16 (by decide)).push [1, 2, 3, 4, 5, 6, 7, 8]).2
    let due : List (List Arrival) :=
      [[.packet [9, 10, 11, 12]], [.boundary, .packet [13, 14, 15, 16]], [],
        [.packet (List.replicate 17 0)], [.packet (List.replicate 12 0)], [.boundary]]
    let refilled := refill interrupted 4 ⟨5, ⟨3, 7⟩, ⟨4, 9⟩⟩ (.ofCapacity 16) (f, ⟨due, []⟩)
    2 * 16 < Word.bound 16
      ∧ refill? interrupted 4 ⟨5, ⟨3, 7⟩, ⟨4, 9⟩⟩ (.ofCapacity 16) (f, ⟨due, []⟩) = .ok refilled
      ∧ refilled.1 = 4
      ∧ Trace.calls refilled.2.2.events
        = [.queued, .send 0x04030201, .send 0x100F0E0D, .send 0x100F0E0D, .send 0x100F0E0D,
          .program 5 ⟨4, 9⟩]
      ∧ refilled.2.1.pacer = ⟨.fast, 1, 0⟩
      ∧ refilled.2.1.ring.fill = 0 := by
  intro f due
  -- To see that a name for the refill and the refill are the same, it would be evaluated.
  dsimp only
  obtain ⟨hchecked, -, hfill⟩ :=
    refill_in_sequence 4 ⟨5, ⟨3, 7⟩, ⟨4, 9⟩⟩ (.ofCapacity 16) f due
  obtain ⟨hcount, -, ⟨change, hcalls, hchange⟩, -⟩ := hfill (by decide)
  have hdecision : (Watermarks.ofCapacity 16).next f.pacer.speed
      (f.ring.after (sequence (8 - 4) due)).fill = (.fast, .speedUp) := by
    decide
  have hplayed : f.ring.played (sequence (8 - 4) due)
      = [0x04030201, 0x100F0E0D, 0x100F0E0D, 0x100F0E0D] := by
    decide
  rcases hchange with ⟨hhold, -⟩ | ⟨-, rfl, hpacer, hring⟩ | ⟨hdown, -⟩
  · exact absurd (hdecision.symm.trans hhold) (by decide)
  · rw [hplayed] at hcalls
    refine ⟨by decide, hchecked (by decide), hcount, hcalls, ?_, ?_⟩
    · exact hpacer.trans (by decide)
    · rw [hring]
      decide
  · exact absurd (hdecision.symm.trans hdown) (by decide)

end Feed

end PacedAudio
