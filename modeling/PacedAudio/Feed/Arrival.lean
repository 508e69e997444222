/-
# PacedAudio.Feed.Arrival — the receive interrupt in the middle of a refill

While a refill waits in a call on the transmitter, the host's packets and stream boundaries may
arrive. `Feed.interrupted` is the reaction that lets them: it is given, for each call of the
refill in turn, the list of what arrives during that call, and it notes every call and every
arrival in the order in which they happen.
-/

import PacedAudio.Feed.Basic

namespace PacedAudio

/-- What the host's interrupt brings. -/
inductive Arrival where
  /-- A packet. -/
  | packet (bytes : List UInt8)
  /-- The start or the end of the host's stream. -/
  | boundary
deriving DecidableEq, Repr

/-- Something that happened, as it can be observed. -/
inductive Event where
  /-- A call on the transmitter. -/
  | call (call : Transmitter.Call)
  /-- A packet, with what became of it. -/
  | packet (bytes : List UInt8) (outcome : Checked Outcome)
  /-- A boundary of the host's stream. -/
  | boundary

/-- What is yet to arrive, call by call, and what has happened. -/
structure Record where
  due : List (List Arrival)
  events : List Event

namespace Feed

variable {n : Nat}

/-- Lets one thing arrive. -/
def arrive (f : Feed n) : Arrival → Event × Feed n
  | .packet bytes =>
    let (outcome, rest) := f.push bytes
    (.packet bytes outcome, rest)
  | .boundary => (.boundary, f.flush)

/-- Lets things arrive one after the other. -/
def arriveAll : List Arrival → Feed n × List Event → Feed n × List Event
  | [], state => state
  | arrival :: rest, (feed, events) =>
    let (event, after) := feed.arrive arrival
    arriveAll rest (after, events ++ [event])

/-- The reaction to a call in which the next list of arrivals is due. -/
def interrupted : Reaction n Record
  | call, (feed, record) =>
    let (after, events) :=
      arriveAll (record.due.headD []) (feed, record.events ++ [.call call])
    (after, ⟨record.due.tail, events⟩)

end Feed

end PacedAudio
