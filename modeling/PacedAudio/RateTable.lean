/-
# PacedAudio.RateTable — the dividers of the listed sample rates

A device lists seven sample rates. A table holds, for one peripheral clock and one stream format,
the divider of each rate that can be played: two of the rates are listed and never played, and the
others are played if a divider is found.

A crystal that runs a little slow makes the nominal speed fall behind the host, so the two highest
rates may be searched a few hertz too high, by the clock's *trim*.
-/

import PacedAudio.Divider.Approximation

namespace PacedAudio

/-- The peripheral clock of a part, in hertz, and what is added to the two highest rates. -/
structure ReferenceClock where
  hertz : UInt32
  trim : UInt32
deriving DecidableEq, Repr

namespace ReferenceClock

/-- The LPC18xx, whose transmitter runs at 180 MHz. -/
def lpc18xx : ReferenceClock := ⟨180000000, 0⟩

/-- The LPC43xx, whose transmitter runs at 204 MHz and needs a trim of one hertz. -/
def lpc43xx : ReferenceClock := ⟨204000000, 1⟩

/-- The rates that the trim is added to. -/
def trimmedRates : List UInt32 := [44100, 48000]

/-- The rate to search a divider for; a trimmed rate has to fit 32 bits. -/
def target (clock : ReferenceClock) (rate : UInt32) : Checked UInt32 :=
  if rate ∈ trimmedRates then
    (Word.add 32 rate.toNat clock.trim.toNat).map UInt32.ofNat
  else .ok rate

end ReferenceClock

/-- The dividers of the listed rates, with the clock and the format that they were searched for. -/
structure RateTable where
  /-- Each listed rate in ascending order, with its divider if it can be played. -/
  entries : List (UInt32 × Option Divider)
  clock : UInt32
  format : PcmFormat
deriving DecidableEq, Repr

namespace RateTable

/-- The sample rates that a device lists, ascending. -/
def listedRates : List UInt32 := [8000, 11025, 16000, 22050, 32000, 44100, 48000]

/-- The rates that are listed and never played. -/
def unplayedRates : List UInt32 := [16000, 32000]

/-- The rates that are played if a divider is found for them. -/
def playedRates : List UInt32 := [8000, 11025, 22050, 44100, 48000]

/-- A table without a divider. -/
def blank (clock : UInt32) (format : PcmFormat) : RateTable :=
  ⟨listedRates.map fun rate => (rate, none), clock, format⟩

/-- The table of a device that has not been set up: nothing can be played. -/
def empty : RateTable := blank 0 .stereo16

/-- The entry of a listed rate. -/
def entryFor (clock : ReferenceClock) (format : PcmFormat) (rate : UInt32) :
    Checked (UInt32 × Option Divider) :=
  if rate ∈ unplayedRates then .ok (rate, none)
  else do
    let target ← clock.target rate
    let divider ← Divider.find? target format clock.hertz
    pure (rate, divider)

/-- The table of a clock and a format. Nothing can be played in a format whose frames do not fit the
transmitter's queue. -/
def build (clock : ReferenceClock) (format : PcmFormat) : Checked RateTable :=
  if format.bytesPerFrame = playedFrameBytes then do
    let entries ← listedRates.mapM (entryFor clock format)
    pure ⟨entries, clock.hertz, format⟩
  else .ok (blank clock.hertz format)

/-- A table as a device comes to have one: the empty table, or one that is built. -/
def Made (table : RateTable) : Prop :=
  table = empty ∨ ∃ clock format, build clock format = .ok table

/-- The divider of a rate, if it can be played. -/
def find? (table : RateTable) (rate : UInt32) : Option Divider :=
  (table.entries.lookup rate).join

/-- Whether a rate can be played. -/
def plays (table : RateTable) (rate : UInt32) : Bool := (table.find? rate).isSome

/-- The rates that can be played, ascending, with their dividers. -/
def playable (table : RateTable) : List (UInt32 × Divider) :=
  table.entries.filterMap fun entry => entry.2.map fun divider => (entry.1, divider)

theorem find?_blank (clock : UInt32) (format : PcmFormat) (rate : UInt32) :
    (blank clock format).find? rate = none := by
  show ((listedRates.map fun listed => (listed, none)).lookup rate).join = none
  induction listedRates with
  | nil => rfl
  | cons listed rest ih =>
    rw [List.map_cons, List.lookup_cons]
    split
    · rfl
    · exact ih

end RateTable

end PacedAudio
