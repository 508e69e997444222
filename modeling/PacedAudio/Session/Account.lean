/-
# PacedAudio.Session.Account — the books of a run

Everything that happens to a session is entered in a *tally*: bytes that are stored, bytes that
wait when the ring is discarded, frames that are sent fresh or again, overruns, and settings that
the transmit interrupt gives the divider. What an event is entered as depends on the session just
before it, also in the middle of an operation, so the events of an operation are gone through one
by one, with the session that each of them leaves (`Session.next`).
-/

import PacedAudio.Session.Switching

namespace PacedAudio

/-! ## Tallies -/

/-- What is kept count of. -/
structure Tally where
  /-- Bytes of packets that were stored. -/
  stored : Nat := 0
  /-- Bytes that waited when a packet did not fit or the host's stream started or stopped. -/
  discarded : Nat := 0
  /-- Frames sent that were read from the ring. -/
  fresh : Nat := 0
  /-- Frames sent again, as the ring was dry. -/
  again : Nat := 0
  /-- Packets that overran. -/
  overruns : Nat := 0
  /-- Settings given while a stream plays. -/
  settings : Nat := 0
  /-- Those for the fast speed, while playback was nominal. -/
  speedUps : Nat := 0
  /-- Those for the nominal speed, while playback was fast. -/
  slowDowns : Nat := 0
deriving DecidableEq, Repr

namespace Tally

/-- Nothing was entered. -/
def blank : Tally := {}

/-- Two tallies together. -/
def plus (a b : Tally) : Tally where
  stored := a.stored + b.stored
  discarded := a.discarded + b.discarded
  fresh := a.fresh + b.fresh
  again := a.again + b.again
  overruns := a.overruns + b.overruns
  settings := a.settings + b.settings
  speedUps := a.speedUps + b.speedUps
  slowDowns := a.slowDowns + b.slowDowns

theorem blank_plus (a : Tally) : blank.plus a = a := by
  simp [plus, blank]

theorem plus_assoc (a b c : Tally) : (a.plus b).plus c = a.plus (b.plus c) := by
  simp only [plus, Nat.add_assoc]

end Tally

/-! ## Events of a stream that plays -/

/-- Changes to the other speed and counts the change. -/
def Pacer.turned (p : Pacer) : Pacer :=
  match p.speed with
  | .nominal => { p with speed := .fast, speedUps := p.speedUps + 1 }
  | .fast => { p with speed := .nominal, slowDowns := p.slowDowns + 1 }

namespace Session

variable {n : Nat}

/-- The session after an event at its feed. -/
def next (s : Session n) : Event → Session n
  | .call (.send _) => { s with feed := s.feed.takeFrame.2 }
  | .call (.program _ _) => { s with feed := { s.feed with pacer := s.feed.pacer.turned } }
  | .call _ => s
  | .packet _ (.ok .dropped) => s
  | .packet bytes _ => { s with feed := (s.feed.push bytes).2 }
  | .boundary => s.boundary

/-- The session after some events. -/
def through (s : Session n) (events : List Event) : Session n := events.foldl next s

/-- The setting is the one of a speed, for the stream that plays. -/
def Sets (s : Session n) (prescaler : UInt8) (ratio : Ratio) (speed : Speed) : Prop :=
  s.stream.map (·.divider.setting speed) = some (prescaler, ratio)

instance (s : Session n) (prescaler : UInt8) (ratio : Ratio) (speed : Speed) :
    Decidable (s.Sets prescaler ratio speed) :=
  inferInstanceAs (Decidable (_ = _))

/-- What an event is entered as, by the session just before it. -/
def entry (s : Session n) : Event → Tally
  | .packet bytes (.ok .stored) => { stored := bytes.length }
  | .packet _ (.ok .overrun) => { discarded := s.feed.ring.fill, overruns := 1 }
  | .packet _ (.ok .dropped) => {}
  | .packet _ (.error _) => { discarded := s.feed.ring.fill }
  | .boundary => { discarded := s.feed.ring.fill }
  | .call (.send frame) =>
    { fresh := if s.feed.takeFrame.1 = .fresh frame then 1 else 0
      again := if s.feed.takeFrame.1 = .again frame then 1 else 0 }
  | .call (.program prescaler ratio) =>
    { settings := 1
      speedUps := if s.Sets prescaler ratio .fast ∧ s.feed.pacer.speed = .nominal then 1 else 0
      slowDowns := if s.Sets prescaler ratio .nominal ∧ s.feed.pacer.speed = .fast then 1 else 0 }
  | .call _ => {}

/-- The tally of events one after the other. -/
def tally (s : Session n) : List Event → Tally
  | [] => .blank
  | e :: rest => (s.entry e).plus ((s.next e).tally rest)

/-! ## Runs -/

/-- Whether an operation is an arrival or an interrupt, which change the feed alone. -/
def Operation.feeds : Operation → Bool
  | .arrive _ => true
  | .transmit _ _ => true
  | _ => false

/-- Whether an operation restarts the feed, by its result: a switch or a stop that is granted. -/
def Operation.restarts (operation : Operation) (result : Result) : Bool :=
  result.granted && (operation.rate?.isSome || operation == .halt)

/-- The tally of a run: what its arrivals and interrupts are entered as. -/
def account : Session n → List Operation → Tally
  | _, [] => .blank
  | s, operation :: rest =>
    let (answer, after) := s.perform operation
    (if operation.feeds then s.tally answer.events else .blank).plus (after.account rest)

/-- How many restarts of a run came while playback was fast. -/
def forced : Session n → List Operation → Nat
  | _, [] => 0
  | s, operation :: rest =>
    let (answer, after) := s.perform operation
    (if operation.restarts answer.result ∧ s.feed.pacer.speed = .fast then 1 else 0)
      + after.forced rest

/-- The number of frames that an operation has queued, by its result. -/
def Result.frames : Result → Nat
  | .transmitted frames => frames
  | _ => 0

/-- The number of frames that a run has queued, by its results. -/
def queued : Session n → List Operation → Nat
  | _, [] => 0
  | s, operation :: rest =>
    let (answer, after) := s.perform operation
    answer.result.frames + after.queued rest

/-- Of a run, `later` is what comes after the last granted switch, which left `start`. -/
def SinceSwitch (s : Session n) (operations : List Operation) (start : Session n)
    (later : List Operation) : Prop :=
  ∃ before operation rate, operations = before ++ operation :: later
    ∧ (s.after before).Switches operation rate
    ∧ start = s.after (before ++ [operation])
    ∧ ∀ between next rest, later = between ++ next :: rest →
      ∀ rate', ¬ (start.after between).Switches next rate'

/-- The books of a run balance. -/
structure Balances (s : Session n) (operations : List Operation) : Prop where
  /-- What the events of an arrival or interrupt are gone through with ends where the operation
  does. -/
  through : ∀ before operation later, operations = before ++ operation :: later →
    operation.feeds = true →
    (s.after before).through ((s.after before).perform operation).1.events
      = s.after (before ++ [operation])
  /-- Bytes that were stored since the last switch were sent, discarded or wait. -/
  bytes : ∀ start later, s.SinceSwitch operations start later →
    (s.after operations).active = true →
    (start.account later).stored
      = playedFrameBytes * (start.account later).fresh + (start.account later).discarded
        + (s.after operations).status.fill
  /-- The same holds of the frames since then that interrupts say they have queued. -/
  queuedSince : ∀ start later, s.SinceSwitch operations start later →
    start.queued later = (start.account later).fresh + (start.account later).again
  queued : s.queued operations = (s.account operations).fresh + (s.account operations).again
  overruns : (s.after operations).status.overruns.toNat = (s.account operations).overruns
  /-- No packet meets a fault. -/
  plain : ∀ e ∈ s.events operations, e.plain = e
  underruns : (s.after operations).status.underruns = UInt32.ofNat (s.account operations).again
  speedUps : (s.after operations).status.speedUps = UInt32.ofNat (s.account operations).speedUps
  slowDowns : (s.after operations).status.slowDowns = UInt32.ofNat (s.account operations).slowDowns
  /-- Every setting given while a stream plays is one for the other speed. -/
  settings : (s.account operations).settings
    = (s.account operations).speedUps + (s.account operations).slowDowns
  /-- Changes to the fast speed outnumber the changes back by the restarts that came while playback
  was fast, and by one if it is fast in the end. -/
  turns : (s.after operations).status.speedUps - (s.after operations).status.slowDowns
    = UInt32.ofNat
      ((if (s.after operations).status.speed = .fast then 1 else 0) + s.forced operations)
  /-- No other operation touches a counter. -/
  kept : ∀ before operation later, operations = before ++ operation :: later →
    operation.feeds = false →
    let first := (s.after before).status
    let second := (s.after (before ++ [operation])).status
    second.overruns = first.overruns ∧ second.underruns = first.underruns
      ∧ second.speedUps = first.speedUps ∧ second.slowDowns = first.slowDowns

/-! ## Tallies in two parts -/

theorem through_append (s : Session n) (past later : List Event) :
    s.through (past ++ later) = (s.through past).through later :=
  List.foldl_append

theorem tally_append (s : Session n) (past later : List Event) :
    s.tally (past ++ later) = (s.tally past).plus ((s.through past).tally later) := by
  induction past generalizing s with
  | nil => exact (Tally.blank_plus _).symm
  | cons e rest ih =>
    rw [List.cons_append, tally, ih, tally, Tally.plus_assoc]
    rfl

theorem tally_single (s : Session n) (e : Event) : s.tally [e] = s.entry e := rfl

end Session

end PacedAudio
