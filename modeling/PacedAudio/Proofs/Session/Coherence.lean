/-
# PacedAudio.Proofs.Session.Coherence — what a session knows twice agrees

The rate of a stream is kept with the stream and reported to the host; its capacity is kept with the
stream and in the ring, and its marks and its divider are worked out once and kept. Different
operations write these copies. `Plays` says that they agree while a stream plays, and `Rests` what a
session without a stream is like; after any run it is one or the other (`session_coherent`). The
divider is the one that the table had at the last granted switch, whatever has been installed since.
-/

import PacedAudio.Proofs.RateTable.Entries
import PacedAudio.Proofs.Session.Change
import PacedAudio.Ring.Contents

namespace PacedAudio

variable {n : Nat}

/-! ## Rings that nothing was stored in -/

/-- No cursor has moved since the ring was made or resized. -/
structure Ring.AtOrigin (r : Ring n) : Prop where
  head : r.head = 0
  tail : r.tail = 0
  marker : r.marker.position = 0

namespace Ring.AtOrigin

variable {r : Ring n}

theorem empty (h : 0 < n) : (Ring.empty n h).AtOrigin := ⟨rfl, rfl, rfl⟩

theorem resize (r : Ring n) (capacity : Nat) : (r.resize capacity).AtOrigin := ⟨rfl, rfl, rfl⟩

theorem flush (h : r.AtOrigin) : r.flush.AtOrigin := ⟨h.head, h.tail, h.head⟩

/-- Nothing waits, whether or not a marker is pending. -/
theorem fill (h : r.AtOrigin) : r.fill = 0 := by
  have hfront : r.front = 0 := by
    rw [Ring.front]
    split
    · exact h.marker
    · exact h.tail
  rw [fill_eq, hfront, h.head]
  rfl

end Ring.AtOrigin

/-! ## The capacity of a ring -/

namespace Feed

variable {divider : Divider} {marks : Watermarks} {f g : Feed n} {events : List Event}

/-- Only a change to the session as a whole gives the ring another capacity. -/
theorem capacity_step (step : Step divider marks f events g) :
    g.ring.capacity = f.ring.capacity := by
  cases step with
  | arrive arrival =>
    cases arrival with
    | packet bytes => exact f.ring.capacity_push bytes
    | boundary => rfl
  | look => rfl
  | send => exact f.ring.capacity_takeFrame
  | change hchange => rfl

theorem capacity_course (h : Course (Step divider marks) f events g) :
    g.ring.capacity = f.ring.capacity := by
  apply h.invariant (fun _ g => g.ring.capacity = f.ring.capacity) rfl
  intro _ _ _ _ hsame step
  rw [capacity_step step, hsame]

end Feed

/-! ## The size of a ring -/

/-- Rates that can be played have rings of at least one byte. -/
theorem Stream.bufferSize_pos {rate : UInt32} (h : rate ∈ RateTable.playedRates) :
    0 < Stream.bufferSize rate .stereo16 := by
  have hall : RateTable.playedRates.all (0 < Stream.bufferSize · .stereo16) = true := by decide
  exact of_decide_eq_true (List.all_eq_true.mp hall rate h)

/-- Of the format only the bytes of a frame matter. -/
theorem Stream.bufferSize_congr {format format' : PcmFormat}
    (h : format.bytesPerFrame = format'.bytesPerFrame) (rate : UInt32) :
    Stream.bufferSize rate format = Stream.bufferSize rate format' := by
  simp only [Stream.bufferSize, h]

namespace Session

variable {s u : Session n} {operation : Operation}

/-! ## Sessions that play and sessions that rest -/

/-- A stream plays, and everything that is known of it agrees. -/
structure Plays (s : Session n) (stream : Stream) : Prop where
  reported : stream.rate = s.rate
  played : stream.rate ∈ RateTable.playedRates
  capacity : stream.capacity = s.feed.ring.capacity
  sized : ∀ format : PcmFormat, format.bytesPerFrame = playedFrameBytes →
    stream.capacity = min (Stream.bufferSize stream.rate format) n
  capacity_pos : 1 ≤ stream.capacity
  marks : stream.marks = Watermarks.ofCapacity stream.capacity
  low_lt_high : stream.marks.low < stream.marks.high
  high_le : stream.marks.high ≤ stream.capacity

/-- No stream plays: nothing waits, and packets and interrupts come to nothing. -/
structure Rests (s : Session n) : Prop where
  fill : s.feed.ring.fill = 0
  capacity : s.feed.ring.capacity = n
  speed : s.feed.pacer.speed = .nominal
  packet : ∀ bytes,
    s.perform (.arrive (.packet bytes)) = (⟨.arrived, [.packet bytes (.ok .dropped)]⟩, s)
  interrupt : ∀ level due, s.perform (.transmit level due) = (⟨.transmitted 0, []⟩, s)

/-- The invariant between operations. Of a session that rests it says more than `Rests`: a boundary
leaves nothing in the ring because the cursors have not moved. -/
structure Coherent (s : Session n) : Prop where
  made : s.table.Made
  plays : ∀ stream, s.stream = some stream → s.Plays stream
  origin : s.stream = none → s.feed.ring.AtOrigin
  capacity : s.stream = none → s.feed.ring.capacity = n
  speed : s.stream = none → s.feed.pacer.speed = .nominal

theorem Coherent.rests (h : s.Coherent) (hnone : s.stream = none) : s.Rests where
  fill := (h.origin hnone).fill
  capacity := h.capacity hnone
  speed := h.speed hnone
  packet := by
    intro bytes
    simp only [perform, arrive, receive_of_none hnone]
  interrupt := by
    intro level due
    simp only [perform, transmit_of_none _ _ hnone]

theorem coherent_idle {table : RateTable} (hmade : table.Made) (h : 0 < n) :
    (idle table n h).Coherent where
  made := hmade
  plays := by
    intro stream hstream
    cases hstream
  origin := fun _ => Ring.AtOrigin.empty h
  capacity := fun _ => rfl
  speed := fun _ => rfl

/-! ## Every operation -/

theorem find?_of_dividerFor? {rate : UInt32} {divider : Divider}
    (h : s.dividerFor? rate = some divider) : s.table.find? rate = some divider :=
  (Option.filter_eq_some_iff.mp h).1

/-- After a granted switch everything agrees. -/
theorem plays_switchTo (hmade : s.table.Made) {rate : UInt32} {divider : Divider}
    (hdivider : s.dividerFor? rate = some divider) :
    (s.switchTo rate).session.Plays
      (Stream.ofCapacity rate divider (min (Stream.bufferSize rate s.table.format) n)) := by
  have hfind := find?_of_dividerFor? hdivider
  have hrate := hmade.mem_playedRates hfind
  have hbytes := hmade.bytesPerFrame hfind
  have hn : 0 < n := Nat.lt_of_lt_of_le s.feed.ring.capacity_pos s.feed.ring.capacity_le
  have hpos : 0 < min (Stream.bufferSize rate s.table.format) n := by
    rw [Stream.bufferSize_congr (hbytes.trans PcmFormat.bytesPerFrame_stereo16.symm)]
    exact Nat.lt_min.mpr ⟨Stream.bufferSize_pos hrate, hn⟩
  rw [switchTo_session hdivider]
  exact {
    reported := rfl
    played := hrate
    capacity := by
      -- The ring sees to it itself that its capacity is within its storage.
      show min (Stream.bufferSize rate s.table.format) n
        = max 1 (min (min (Stream.bufferSize rate s.table.format) n) n)
      omega
    sized := by
      intro format hformat
      show min (Stream.bufferSize rate s.table.format) n = min (Stream.bufferSize rate format) n
      rw [Stream.bufferSize_congr (hbytes.trans hformat.symm)]
    capacity_pos := hpos
    marks := rfl
    low_lt_high := Watermarks.low_lt_high hpos
    high_le := Watermarks.high_le _ }

theorem Coherent.change (h : s.Coherent) (hchange : Change s operation u)
    (hmade : ∀ table, operation.table? = some table → table.Made) : u.Coherent := by
  cases hchange with
  | switch hswitch hdivider =>
    have hplays := plays_switchTo h.made hdivider
    rw [switchTo_session hdivider] at hplays ⊢
    refine ⟨h.made, ?_, ?_, ?_, ?_⟩
    · intro stream hstream
      cases hstream
      exact hplays
    · intro hnone
      cases hnone
    · intro hnone
      cases hnone
    · intro hnone
      cases hnone
  | halt =>
    have hpos := s.feed.ring.capacity_pos
    have hle := s.feed.ring.capacity_le
    refine ⟨h.made, ?_, ?_, ?_, ?_⟩
    · intro stream hstream
      cases hstream
    · exact fun _ => Ring.AtOrigin.resize _ _
    · intro _
      show max 1 (min n n) = n
      omega
    · exact fun _ => rfl
  | install table =>
    refine ⟨hmade table rfl, ?_, h.origin, h.capacity, h.speed⟩
    intro stream hstream
    have hplays := h.plays stream hstream
    exact ⟨hplays.reported, hplays.played, hplays.capacity, hplays.sized, hplays.capacity_pos,
      hplays.marks, hplays.low_lt_high, hplays.high_le⟩
  | @play _ stream events feed hrate htable hstream hcourse =>
    have hplays := h.plays stream hstream
    have hcapacity := Feed.capacity_course hcourse
    have hactive : ¬ s.stream = none := by rw [hstream]; exact nofun
    refine ⟨h.made, ?_, ?_, ?_, ?_⟩
    · intro stream' hstream'
      obtain rfl : stream = stream' := Option.some.inj (hstream.symm.trans hstream')
      exact { hplays with capacity := hplays.capacity.trans hcapacity.symm }
    · exact fun hnone => absurd hnone hactive
    · exact fun hnone => absurd hnone hactive
    · exact fun hnone => absurd hnone hactive
  | flush hnone =>
    refine ⟨h.made, ?_, ?_, h.capacity, h.speed⟩
    · intro stream hstream
      have hsome : s.stream = some stream := hstream
      rw [hnone] at hsome
      cases hsome
    · exact fun _ => (h.origin hnone).flush
  | keep _ _ => exact h

/-! ## Runs -/

theorem coherent_after (h : s.Coherent) (operations : List Operation)
    (hmade : ∀ table, .install table ∈ operations → table.Made) :
    (s.after operations).Coherent := by
  induction operations generalizing s with
  | nil => exact h
  | cons operation rest ih =>
    rw [after_cons]
    apply ih
    · apply h.change (change_perform s operation)
      intro table htable
      cases operation with
      | install installed =>
        cases htable
        exact hmade table List.mem_cons_self
      | _ => cases htable
    · intro table hmem
      exact hmade table (List.mem_cons_of_mem _ hmem)

/-- The stream of a session is the one of the last granted switch. -/
theorem stream_after {table : RateTable} (h : 0 < n) (operations : List Operation)
    {stream : Stream} (hstream : ((idle table n h).after operations).stream = some stream) :
    ∃ before, (idle table n h).LastSwitch operations before stream.rate
      ∧ (lastTable table before).find? stream.rate = some stream.divider := by
  induction operations using List.reverseRecOn generalizing stream with
  | nil => cases hstream
  | append_singleton operations operation ih =>
    rw [after_concat] at hstream
    -- A stream that was there before has the switch that it had.
    have hkept : (∀ rate, ¬ ((idle table n h).after operations).Switches operation rate) →
        ((idle table n h).after operations).stream = some stream →
        ∃ before, (idle table n h).LastSwitch (operations ++ [operation]) before stream.rate
          ∧ (lastTable table before).find? stream.rate = some stream.divider := by
      intro hnone hsame
      obtain ⟨before, hlast, hfind⟩ := ih hsame
      exact ⟨before, hlast.concat hnone, hfind⟩
    generalize hnext : (((idle table n h).after operations).perform operation).2 = next at hstream
    have hchange := hnext ▸ change_perform ((idle table n h).after operations) operation
    cases hchange with
    | switch hswitch hdivider =>
      rw [switchTo_session hdivider] at hstream
      cases hstream
      refine ⟨operations, lastSwitch_concat hswitch, ?_⟩
      have hfind := find?_of_dividerFor? hdivider
      rw [table_after] at hfind
      exact hfind
    | halt => cases hstream
    | install installed => exact hkept (not_switches_of_rate? rfl) hstream
    | play hrate htable hplay hcourse => exact hkept (not_switches_of_rate? hrate) hstream
    | flush hnone => exact hkept (not_switches_of_rate? rfl) hstream
    | keep hnone htable => exact hkept hnone hstream

/-- After any run of a session whose tables are as a device makes them: the stream that plays
agrees with the reported rate and with the ring, its marks are those of its capacity, and its
divider is the one that the table had for its rate at the last granted switch. If no stream plays,
the session rests. -/
theorem session_coherent {table : RateTable} (hmade : table.Made) (h : 0 < n)
    (operations : List Operation)
    (hinstalled : ∀ table, .install table ∈ operations → table.Made) :
    (∀ stream, ((idle table n h).after operations).stream = some stream →
      ((idle table n h).after operations).Plays stream
        ∧ ∃ before, (idle table n h).LastSwitch operations before stream.rate
          ∧ (lastTable table before).find? stream.rate = some stream.divider)
    ∧ (((idle table n h).after operations).stream = none →
      ((idle table n h).after operations).Rests) := by
  have hcoherent := coherent_after (coherent_idle hmade h) operations hinstalled
  refine ⟨?_, hcoherent.rests⟩
  intro stream hstream
  exact ⟨hcoherent.plays stream hstream, stream_after h operations hstream⟩

/-- A stream whose table is replaced by one without its rate plays on with the divider that it
has, until it is halted. -/
theorem session_coherent_retabled :
    let operations : List Operation :=
      [.switchTo 44100, .arrive (.packet [1, 2, 3, 4]), .install RateTable.empty,
        .transmit 4 [[], [.boundary]]]
    let s := (idle RateTable.lpc18xx 64 (Nat.succ_pos 63)).after operations
    RateTable.lpc18xx.Made ∧ 0 < 64
      ∧ (∀ table, .install table ∈ operations ++ [.halt, .arrive .boundary] → table.Made)
      ∧ s.table.find? 44100 = none
      ∧ (∃ stream, s.stream = some stream ∧ s.Plays stream
        ∧ RateTable.lpc18xx.find? 44100 = some stream.divider)
      ∧ (s.after [.halt, .arrive .boundary]).Rests := by
  intro operations s
  have hinstalled : ∀ table, .install table ∈ operations ++ [.halt, .arrive .boundary] →
      table.Made := by
    intro table hmem
    have htable : table = RateTable.empty := by simpa [operations] using hmem
    exact htable ▸ Or.inl rfl
  obtain ⟨hplays, -⟩ := session_coherent RateTable.made_lpc18xx (Nat.succ_pos 63) operations
    fun table hmem => hinstalled table (List.mem_append_left _ hmem)
  obtain ⟨-, hrests⟩ := session_coherent RateTable.made_lpc18xx (Nat.succ_pos 63)
    (operations ++ [.halt, .arrive .boundary]) hinstalled
  refine ⟨RateTable.made_lpc18xx, by decide, hinstalled, by decide, ?_, ?_⟩
  · cases hstream : s.stream with
    | none => exact absurd hstream (by decide)
    | some stream =>
      refine ⟨stream, rfl, (hplays stream hstream).1, ?_⟩
      have hdivider : s.stream.map Stream.divider = RateTable.lpc18xx.find? 44100 := by decide
      rw [← hdivider, hstream]
      rfl
  · rw [← after_append]
    exact hrests (by decide)

end Session

end PacedAudio
