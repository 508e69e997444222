/-
# PacedAudio.Session.Basic — a playback session

A session holds the table of playable rates, the stream that is playing, if any, the rate reported
to the host, and the feed. Its operations are of two kinds.

* Packets, stream boundaries and transmit interrupts change the feed alone. They may come at any
  time, and one may come while another waits for the transmitter.
* Switching to a rate, stopping and installing a table change the session as a whole, with
  interrupts held off. Their calls on the transmitter are listed in the order made.

A request that is turned down changes nothing and makes no call.
-/

import PacedAudio.Feed.Basic
import PacedAudio.RateTable
import PacedAudio.Refusal

namespace PacedAudio

/-- The stream that is playing. -/
structure Stream where
  rate : UInt32
  divider : Divider
  /-- The ring's capacity. -/
  capacity : Nat
  marks : Watermarks
deriving DecidableEq, Repr

namespace Stream

/-- A stream of a rate, with the marks of its capacity. -/
def ofCapacity (rate : UInt32) (divider : Divider) (capacity : Nat) : Stream :=
  ⟨rate, divider, capacity, Watermarks.ofCapacity capacity⟩

/-- Packets of one millisecond that half of the ring holds. -/
def packetsPerHalf : Nat := 10

/-- The ring's size for a rate: two halves of ten packets. A rate that is not a whole number of
kilohertz is sized as 44100 Hz. -/
def bufferSize (rate : UInt32) (format : PcmFormat) : Nat :=
  let sizingRate := if rate.toNat % 1000 = 0 then rate.toNat else 44100
  sizingRate * format.bytesPerFrame * packetsPerHalf / 1000 * 2

end Stream

/-- Counters and state of the playback path at one moment. -/
structure Status where
  overruns : UInt32
  underruns : UInt32
  speedUps : UInt32
  slowDowns : UInt32
  fill : Nat
  speed : Speed
deriving DecidableEq, Repr

/-- A playback session with `n` bytes of storage. -/
structure Session (n : Nat) where
  table : RateTable
  /-- The stream that is playing. -/
  stream : Option Stream
  /-- The rate reported to the host. -/
  rate : UInt32
  feed : Feed n

/-- What a request leaves: its result, the session and the calls made on the transmitter. -/
structure Response (n : Nat) (α : Type) where
  result : Except Refusal α
  session : Session n
  calls : List Transmitter.Call

namespace Session

variable {n : Nat} {σ : Type}

/-- The highest rate that a session plays. -/
def maxRate : UInt32 := 48000

/-- The rate that is reported before the host has chosen one. -/
def defaultRate : UInt32 := maxRate

/-- The storage of a session, enough for the largest ring of a playable rate. -/
def defaultStorage : Nat := 4096

/-- A session that plays nothing. -/
def idle (table : RateTable) (n : Nat) (h : 0 < n) : Session n :=
  ⟨table, none, defaultRate, Feed.empty n h⟩

/-- A session that plays nothing, if its ring can be made. -/
def create (table : RateTable) (n : Nat) : Checked (Session n) :=
  (Feed.create n).map fun feed => ⟨table, none, defaultRate, feed⟩

theorem create_eq {n : Nat} (table : RateTable) (h : 0 < n) (hn : 2 * n < Word.bound 16) :
    create table n = .ok (idle table n h) := by
  rw [create, Feed.create_eq h hn]
  rfl

/-- Whether a stream is playing. -/
def active (s : Session n) : Bool := s.stream.isSome

/-- The counters and the state of the playback path. -/
def status (s : Session n) : Status :=
  { overruns := s.feed.ring.overruns
    underruns := s.feed.ring.underruns
    speedUps := s.feed.pacer.speedUps
    slowDowns := s.feed.pacer.slowDowns
    fill := s.feed.ring.fill
    speed := s.feed.pacer.speed }

/-! ## Changes to the session as a whole -/

/-- Replaces the table; a stream that is playing goes on as it is. -/
def install (s : Session n) (table : RateTable) : Session n := { s with table := table }

/-- The divider that a rate would be played with. -/
def dividerFor? (s : Session n) (rate : UInt32) : Option Divider :=
  (s.table.find? rate).filter fun _ => rate ≤ maxRate

/-- Switches to a rate: transmission stops, the feed is restarted at the new size, the nominal
ratio is programmed and transmission starts. A rate that cannot be played is turned down. -/
def switchTo (s : Session n) (rate : UInt32) : Response n Unit :=
  match s.dividerFor? rate with
  | none => ⟨.error (.unsupportedRate rate), s, []⟩
  | some divider =>
    let capacity := min (Stream.bufferSize rate s.table.format) n
    ⟨.ok (),
      { s with
        stream := some (Stream.ofCapacity rate divider capacity)
        rate := rate
        feed := s.feed.restart capacity },
      [.stop, .program divider.prescaler divider.nominal, .start]⟩

/-- Stops playing: transmission stops and the feed is restarted with all of its storage. The rate
reported to the host stays. -/
def halt (s : Session n) : Response n Unit :=
  ⟨.ok (), { s with stream := none, feed := s.feed.restart n }, [.stop]⟩

/-! ## Changes to the feed -/

/-- A packet from the host; without a stream it is dropped. -/
def receive (s : Session n) (packet : List UInt8) : Checked Outcome × Session n :=
  match s.stream with
  | none => (.ok .dropped, s)
  | some _ =>
    let (outcome, feed) := s.feed.push packet
    (outcome, { s with feed := feed })

/-- The host starts or stops its stream: what waits in the ring is discarded. -/
def boundary (s : Session n) : Session n := { s with feed := s.feed.flush }

/-- A transmit interrupt with `level` frames queued; without a stream nothing happens. The answer
is the number of frames queued, with the session and the caller's record afterwards. -/
def transmit (react : Reaction n σ) (level : Nat) (s : Session n) (record : σ) :
    Nat × Session n × σ :=
  match s.stream with
  | none => (0, s, record)
  | some stream =>
    let (frames, feed, record) :=
      Feed.refill react level stream.divider stream.marks (s.feed, record)
    (frames, { s with feed := feed }, record)

/-! ## Requests turned down, and sessions that play nothing -/

theorem switchTo_of_none {s : Session n} {rate : UInt32} (h : s.dividerFor? rate = none) :
    s.switchTo rate = ⟨.error (.unsupportedRate rate), s, []⟩ := by
  simp only [switchTo, h]

theorem receive_of_none {s : Session n} (h : s.stream = none) (packet : List UInt8) :
    s.receive packet = (.ok .dropped, s) := by
  simp only [receive, h]

theorem transmit_of_none (react : Reaction n σ) (level : Nat) {s : Session n}
    (h : s.stream = none) (record : σ) : s.transmit react level record = (0, s, record) := by
  simp only [transmit, h]

end Session

end PacedAudio
