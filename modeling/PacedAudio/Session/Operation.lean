/-
# PacedAudio.Session.Operation — the operations of a session as data

Everything that can happen to a session, and what can be observed of it: the result of the
operation, and the events in the order in which they happen. A sequence of operations is performed
with `run`.
-/

import PacedAudio.Feed.Arrival
import PacedAudio.Run
import PacedAudio.Session.HostRequest

namespace PacedAudio.Session

/-- What can happen to a session. -/
inductive Operation where
  /-- Switch to a rate. -/
  | switchTo (rate : UInt32)
  /-- Stop playing. -/
  | halt
  /-- Replace the table. -/
  | install (table : RateTable)
  /-- Answer a request of the host. -/
  | ask (request : HostRequest) (data : Option (List UInt8))
  /-- Something comes from the host. -/
  | arrive (arrival : Arrival)
  /-- The transmitter interrupts with `level` frames queued, and its calls are interrupted in turn
  by what is due in each of them. -/
  | transmit (level : Nat) (due : List (List Arrival))
deriving DecidableEq, Repr

/-- The result of an operation. -/
inductive Result where
  /-- Of a switch or a stop. -/
  | changed (result : Except Refusal Unit)
  /-- Of an installation. -/
  | installed
  /-- Of a host's request, with the data afterwards. -/
  | answered (result : Except Refusal Nat) (data : Option (List UInt8))
  /-- Of an arrival; what became of it is an event. -/
  | arrived
  /-- Of a transmit interrupt: the number of frames queued. -/
  | transmitted (frames : Nat)

/-- What can be observed of an operation. -/
structure Answer where
  result : Result
  events : List Event

/-- Why an operation was turned down, if it was. -/
def Result.refusal? : Result → Option Refusal
  | .changed (.error refusal) => some refusal
  | .answered (.error refusal) _ => some refusal
  | _ => none

variable {n : Nat}

/-- Lets something arrive at a session. -/
def arrive (s : Session n) : Arrival → Event × Session n
  | .packet bytes =>
    let (outcome, rest) := s.receive bytes
    (.packet bytes outcome, rest)
  | .boundary => (.boundary, s.boundary)

/-- Performs an operation. -/
def perform (s : Session n) : Operation → Answer × Session n
  | .switchTo rate =>
    let response := s.switchTo rate
    (⟨.changed response.result, response.calls.map .call⟩, response.session)
  | .halt =>
    let response := s.halt
    (⟨.changed response.result, response.calls.map .call⟩, response.session)
  | .install table => (⟨.installed, []⟩, s.install table)
  | .ask request data =>
    let response := s.answer request data
    (⟨.answered response.result response.data, response.calls.map .call⟩, response.session)
  | .arrive arrival =>
    let (event, after) := s.arrive arrival
    (⟨.arrived, [event]⟩, after)
  | .transmit level due =>
    let (frames, after, record) := s.transmit Feed.interrupted level ⟨due, []⟩
    (⟨.transmitted frames, record.events⟩, after)

/-- The events of a run, in order. -/
def events (s : Session n) (operations : List Operation) : List Event :=
  (run perform s operations).1.flatMap Answer.events

/-- The session after a run. -/
def after (s : Session n) (operations : List Operation) : Session n :=
  (run perform s operations).2

theorem after_append (s : Session n) (first second : List Operation) :
    s.after (first ++ second) = (s.after first).after second := by
  simp only [after, run_append]

theorem events_append (s : Session n) (first second : List Operation) :
    s.events (first ++ second) = s.events first ++ (s.after first).events second := by
  simp only [events, after, run_append, List.flatMap_append]

end PacedAudio.Session
