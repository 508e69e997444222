/-
# PacedAudio.Proofs.Session.Playback — what is played is what came in

The transmitter is sent the frames of the stored packets, in order, whatever the receive interrupt
does between any two of the transmit interrupt's calls (`playback_in_order`). Only when no frame
waits is the one before sent again.

A ring stands for a queue of bytes (`Ring.Holds`), and the queue of a stream that plays stands for
a playlist (`Carries`). The second step is where frames stay whole: every packet is a whole number
of frames, so the queue always is one too, wherever the ring's storage wraps.
-/

import PacedAudio.Proofs.Ring.Refinement
import PacedAudio.Proofs.Session.Course
import PacedAudio.Session.Playlist

namespace PacedAudio

variable {n : Nat} {events more : List Event}

/-! ## A queue of whole frames -/

/-- A queue carries what waits in a playlist. -/
structure Carries (p : Playlist) (q : ByteQueue) : Prop where
  aligned : playedFrameBytes ∣ q.bytes.length
  waiting : frames q.bytes = p.waiting.map Slot.value
  last : q.lastFrame = p.last

namespace Carries

variable {p : Playlist} {q : ByteQueue}

theorem length (h : Carries p q) : q.bytes.length = playedFrameBytes * p.waiting.length := by
  rw [← List.length_map (f := Slot.value), ← h.waiting, length_frames]
  exact (Nat.mul_div_cancel' h.aligned).symm

theorem resize (q : ByteQueue) (capacity : Nat) : Carries Playlist.empty (q.resize capacity) where
  aligned := Nat.dvd_zero _
  waiting := rfl
  last := rfl

theorem flush (h : Carries p q) : Carries p.discard q.flush where
  aligned := Nat.dvd_zero _
  waiting := rfl
  last := h.last

/-- A packet that fits. -/
theorem push (h : Carries p q) {bytes : List UInt8} (haligned : playedFrameBytes ∣ bytes.length)
    (hfits : q.bytes.length + bytes.length ≤ q.capacity) :
    Carries (p.store bytes) (q.push bytes).2 := by
  rw [ByteQueue.push, if_pos hfits]
  refine ⟨?_, ?_, h.last⟩
  · rw [List.length_append]
    exact Nat.dvd_add h.aligned haligned
  · rw [frames_append h.aligned, h.waiting, Playlist.store, List.map_append,
      Slot.map_value_ofPacket]

/-- A packet that does not fit. -/
theorem overrun (h : Carries p q) {bytes : List UInt8}
    (hfits : ¬ q.bytes.length + bytes.length ≤ q.capacity) :
    Carries p.discard (q.push bytes).2 := by
  rw [ByteQueue.push, if_neg hfits]
  exact ⟨h.flush.aligned, h.flush.waiting, h.flush.last⟩

/-- The frame that is taken is the one that ought to be sent. -/
theorem takeFrame (h : Carries p q) :
    q.takeFrame.1.value = p.expected
      ∧ Carries (p.send q.takeFrame.1.value) q.takeFrame.2 := by
  have hlength := h.length
  cases hslots : p.waiting with
  | nil =>
    -- As the bytes are whole frames, there is not even a part of one.
    have hlt : q.bytes.length < playedFrameBytes := by
      rw [hlength, hslots]
      decide
    rw [ByteQueue.takeFrame_of_lt hlt]
    refine ⟨?_, h.aligned, ?_, rfl⟩
    · rw [Playlist.expected, hslots]
      exact h.last
    · rw [Playlist.send, h.waiting, hslots]
      rfl
  | cons slot rest =>
    have hle : playedFrameBytes ≤ q.bytes.length := by
      rw [hlength, hslots, List.length_cons]
      exact Nat.le_mul_of_pos_right _ (Nat.succ_pos _)
    have hframes := h.waiting
    rw [frames_of_le hle, hslots, List.map_cons] at hframes
    obtain ⟨hvalue, hrest⟩ := List.cons.inj hframes
    rw [ByteQueue.takeFrame_of_le hle]
    refine ⟨?_, ?_, ?_, rfl⟩
    · rw [Playlist.expected, hslots]
      exact hvalue
    · rw [List.length_drop]
      exact Nat.dvd_sub h.aligned (Nat.dvd_refl _)
    · rw [Playlist.send, hslots]
      exact hrest

end Carries

/-! ## A ring and a trace -/

/-- A ring stands for a queue, its reader has missed as many flushes as the trace says, and while a
stream plays the queue carries what waits in the playlist. -/
def Ring.Tracks (r : Ring n) (events : List Event) (playing : Prop) : Prop :=
  ∃ q lag, r.Holds q lag ∧ lag.missed = Trace.missed events
    ∧ (playing → Carries (Playlist.after events) q)

namespace Ring.Tracks

variable {r : Ring n} {playing : Prop}

/-- A discard that the trace allows is no lapse. -/
theorem not_lapses {lag : Lag} {e : Event} (hlag : lag.missed = Trace.missed events)
    (he : e.discards = true) (hmissed : Trace.missed (events ++ [e]) < 65536) (capacity : Nat) :
    ¬ lag.Lapses capacity := by
  apply Lag.not_lapses_of_missed
  rw [Trace.missed_concat, Trace.missedNext, if_pos he] at hmissed
  rw [hlag]
  exact hmissed

theorem missed_discarded {lag : Lag} {e : Event} (hlag : lag.missed = Trace.missed events)
    (he : e.discards = true) : lag.discarded.missed = Trace.missed (events ++ [e]) := by
  rw [Trace.missed_concat, Trace.missedNext, if_pos he, ← hlag]
  rfl

/-- An event that has nothing to do with the ring. -/
theorem quiet (h : r.Tracks events playing) {e : Event} (hdiscards : e.discards = false)
    (hnotices : e.notices = false) (hnext : ∀ p : Playlist, p.next e = p) :
    r.Tracks (events ++ [e]) playing := by
  obtain ⟨q, lag, hholds, hlag, hcarries⟩ := h
  refine ⟨q, lag, hholds, ?_, ?_⟩
  · rw [Trace.missed_concat, Trace.missedNext, hdiscards, hnotices]
    exact hlag
  · rw [Playlist.after_concat, hnext]
    exact hcarries

theorem flush (h : r.Tracks events playing)
    (hmissed : Trace.missed (events ++ [.boundary]) < 65536) :
    r.flush.Tracks (events ++ [.boundary]) playing := by
  obtain ⟨q, lag, hholds, hlag, hcarries⟩ := h
  refine ⟨q.flush, lag.discarded, ?_, ?_, ?_⟩
  · exact hholds.flush (not_lapses hlag rfl hmissed _)
  · exact missed_discarded hlag rfl
  · intro hplaying
    rw [Playlist.after_concat]
    exact (hcarries hplaying).flush

theorem push (h : r.Tracks events playing) {bytes : List UInt8}
    (haligned : playedFrameBytes ∣ bytes.length)
    (hmissed : Trace.missed (events ++ [.packet bytes (r.push bytes).1]) < 65536) :
    (r.push bytes).2.Tracks (events ++ [.packet bytes (r.push bytes).1]) playing := by
  obtain ⟨q, lag, hholds, hlag, hcarries⟩ := h
  by_cases hfits : r.Fits bytes
  · have hqueue := (hholds.fits_iff bytes).mp hfits
    rw [push_fst_of_fits hfits]
    refine ⟨_, _, hholds.push hfits, ?_, ?_⟩
    · rw [Trace.missed_concat]
      exact hlag
    · intro hplaying
      rw [Playlist.after_concat]
      exact (hcarries hplaying).push haligned hqueue
  · have hqueue := mt (hholds.fits_iff bytes).mpr hfits
    -- The outcome is an overrun or, when the counter is full, a fault; either discards.
    obtain ⟨hdiscards, hnext⟩ : (Event.packet bytes (r.push bytes).1).discards = true
        ∧ ∀ p : Playlist, p.next (.packet bytes (r.push bytes).1) = p.discard := by
      rw [push_of_not_fits hfits]
      cases Word.add 32 r.overruns.toNat 1 <;> exact ⟨rfl, fun _ => rfl⟩
    refine ⟨_, _, hholds.overrun hfits (not_lapses hlag hdiscards hmissed _), ?_, ?_⟩
    · exact missed_discarded hlag hdiscards
    · intro hplaying
      rw [Playlist.after_concat, hnext]
      exact (hcarries hplaying).overrun hqueue

/-- While a stream plays, the frame that is taken is the one that ought to be sent. -/
theorem takeFrame (h : r.Tracks events playing) (hplaying : playing) :
    r.takeFrame.1.value = (Playlist.after events).expected
      ∧ r.takeFrame.2.Tracks (events ++ [.call (.send r.takeFrame.1.value)]) playing := by
  obtain ⟨q, lag, hholds, hlag, hcarries⟩ := h
  obtain ⟨hvalue, hsent⟩ := (hcarries hplaying).takeFrame
  rw [hholds.takeFrame_fst]
  refine ⟨hvalue, _, _, hholds.takeFrame, ?_, ?_⟩
  · rw [Trace.missed_concat]
    rfl
  · intro _
    rw [Playlist.after_concat]
    exact hsent

/-- Transmission stops. -/
theorem stop (h : r.Tracks events playing) (capacity : Nat) :
    (r.resize capacity).Tracks (events ++ [.call .stop]) False := by
  obtain ⟨q, lag, hholds, -, -⟩ := h
  refine ⟨_, _, hholds.resize capacity, ?_, False.elim⟩
  rw [Trace.missed_concat]
  rfl

/-- Transmission stops, is given a setting and starts again. -/
theorem restart (h : r.Tracks events playing) (capacity : Nat) (prescaler : UInt8)
    (ratio : Ratio) :
    (r.resize capacity).Tracks
      (events ++ [.call .stop, .call (.program prescaler ratio), .call .start]) True := by
  obtain ⟨q, lag, hholds, -, -⟩ := h
  refine ⟨_, _, hholds.resize capacity, ?_, ?_⟩
  · rw [Trace.missed, List.foldl_append]
    rfl
  · intro _
    rw [Playlist.after, List.foldl_append]
    exact Carries.resize q capacity

/-- To be tracked while less plays. -/
theorem imp {playing' : Prop} (h : r.Tracks events playing) (himp : playing' → playing) :
    r.Tracks events playing' := by
  obtain ⟨q, lag, hholds, hlag, hcarries⟩ := h
  exact ⟨q, lag, hholds, hlag, fun hplaying => hcarries (himp hplaying)⟩

end Ring.Tracks

/-! ## A session and a trace -/

namespace Session

variable {s t u : Session n}

/-- The ring is as the trace says, and so was every frame that was sent. -/
structure Follows (events : List Event) (t : Session n) : Prop where
  ring : t.feed.ring.Tracks events (t.active = true)
  sent : ∀ past value later, events = past ++ .call (.send value) :: later →
    value = (Playlist.after past).expected

theorem follows_idle (table : RateTable) (h : 0 < n) : Follows [] (idle table n h) where
  ring := by
    refine ⟨ByteQueue.empty n, Ring.Lag.none, Ring.holds_empty h, rfl, ?_⟩
    intro hactive
    cases hactive
  sent := by
    intro past value later heq
    simp at heq

/-- One event more. -/
theorem Follows.single (h : Follows events t) {e : Event}
    (hring : u.feed.ring.Tracks (events ++ [e]) (u.active = true))
    (hsend : ∀ value, e = .call (.send value) → value = (Playlist.after events).expected) :
    Follows (events ++ [e]) u where
  ring := hring
  sent := by
    intro past value later heq
    rcases Trace.eq_append_cons heq with ⟨rest, hevents, -⟩ | ⟨middle, rfl, hmore⟩
    · exact h.sent past value rest hevents
    · obtain ⟨rfl, he, -⟩ := Trace.singleton_eq_append_cons hmore
      rw [List.append_nil]
      exact hsend value he

theorem Follows.switch (h : Follows events t) {rate : UInt32} {divider : Divider}
    (hdivider : t.dividerFor? rate = some divider) :
    Follows (events ++ [.call .stop, .call (.program divider.prescaler divider.nominal),
      .call .start]) (t.switchTo rate).session where
  ring := by
    rw [switchTo_session hdivider]
    exact (h.ring.restart _ divider.prescaler divider.nominal).imp fun _ => trivial
  sent := by
    intro past value later heq
    rcases Trace.eq_append_cons heq with ⟨rest, hevents, -⟩ | ⟨middle, rfl, hmore⟩
    · exact h.sent past value rest hevents
    · -- None of the three is a frame.
      rcases Trace.triple_eq_append_cons hmore with ⟨-, he, -⟩ | ⟨-, he, -⟩ | ⟨-, he, -⟩ <;>
        simp at he

/-- A step of the feed of the stream that plays. -/
theorem Follows.play (h : Follows events t) {stream : Stream} {feed : Feed n}
    (hstream : t.stream = some stream)
    (step : Feed.Step stream.divider stream.marks t.feed more feed)
    (haligned : ∀ e ∈ more, e.Aligned) (hmissed : Trace.missed (events ++ more) < 65536) :
    Follows (events ++ more) { t with feed := feed } := by
  have hactive : t.active = true := by rw [active, hstream]; rfl
  cases step with
  | arrive arrival =>
    cases arrival with
    | packet bytes =>
      apply h.single
      · exact h.ring.push (haligned _ (List.mem_singleton.mpr rfl)) hmissed
      · intro value he
        cases he
    | boundary =>
      apply h.single
      · exact h.ring.flush hmissed
      · intro value he
        cases he
  | look =>
    apply h.single
    · exact h.ring.quiet rfl rfl fun _ => rfl
    · intro value he
      simp at he
  | send =>
    obtain ⟨hvalue, hring⟩ := h.ring.takeFrame hactive
    apply h.single
    · exact hring
    · intro value he
      cases he
      exact hvalue
  | change hchange =>
    apply h.single
    · exact h.ring.quiet rfl rfl fun _ => rfl
    · intro value he
      simp at he

/-- Every move keeps it, if packets are whole frames and not too many flushes are missed. -/
theorem Follows.move (h : Follows events t) (step : Move t more u)
    (haligned : ∀ e ∈ more, e.Aligned) (hmissed : Trace.missed (events ++ more) < 65536) :
    Follows (events ++ more) u := by
  cases step with
  | switch hdivider => exact h.switch hdivider
  | halt =>
    apply h.single
    · exact (h.ring.stop n).imp fun hactive => by cases hactive
    · intro value he
      simp at he
  | install table =>
    rw [List.append_nil]
    exact ⟨h.ring, h.sent⟩
  | idle hnone arrival =>
    cases arrival with
    | packet bytes =>
      -- The packet is dropped.
      have hreceive := receive_of_none hnone bytes
      rw [arrive, hreceive]
      apply h.single
      · exact h.ring.quiet rfl rfl fun _ => rfl
      · intro value he
        simp at he
    | boundary =>
      -- The ring is flushed even now, though nothing waits in it.
      apply h.single
      · exact h.ring.flush hmissed
      · intro value he
        cases he
  | play hstream step => exact h.play hstream step haligned hmissed

/-- The trace of a run is followed to its end, if it is fit to be followed. -/
theorem follows_after (table : RateTable) (h : 0 < n) (operations : List Operation)
    (haligned : ∀ e ∈ (idle table n h).events operations, e.Aligned)
    (hmissed : ∀ past, past <+: (idle table n h).events operations →
      Trace.missed past < 65536) :
    Follows ((idle table n h).events operations) ((idle table n h).after operations) := by
  -- Both conditions are on the whole trace, so they travel along the course as hypotheses.
  refine (course_after (idle table n h) operations).invariant
    (fun events t => (∀ e ∈ events, e.Aligned) →
      (∀ past, past <+: events → Trace.missed past < 65536) → Follows events t)
    (fun _ _ => follows_idle table h) ?_ haligned hmissed
  intro events t more u ih step haligned hmissed
  have hfollows := ih (fun e he => haligned e (List.mem_append_left more he))
    fun past hpast => hmissed past (hpast.trans (List.prefix_append events more))
  exact hfollows.move step (fun e he => haligned e (List.mem_append_right events he))
    (hmissed _ (List.prefix_refl _))

/-- Whatever interrupts come in whatever order, every frame that is sent is the first that waits
in the playlist of the events so far, and when none waits, what was sent last. The frames that wait
in the playlist are what waits in the ring. The playlist plays each frame of each stored packet at
most once, whole and in the order of arrival.

Packets have to be a whole number of frames, and of the flushes fewer than 65536 may come in a row
without a frame being taken. -/
theorem playback_in_order (table : RateTable) (h : 0 < n) (operations : List Operation)
    (haligned : ∀ e ∈ (idle table n h).events operations, e.Aligned)
    (hmissed : ∀ past, past <+: (idle table n h).events operations →
      Trace.missed past < 65536) :
    (∀ past value later,
      (idle table n h).events operations = past ++ .call (.send value) :: later →
      value = (Playlist.after past).expected)
    ∧ (((idle table n h).after operations).active = true →
      ((idle table n h).after operations).feed.ring.fill
        = playedFrameBytes
          * (Playlist.after ((idle table n h).events operations)).waiting.length)
    ∧ ∀ past, past <+: (idle table n h).events operations → (Playlist.after past).Sound := by
  have hfollows := follows_after table h operations haligned hmissed
  refine ⟨hfollows.sent, ?_, fun past _ => Playlist.sound_after past⟩
  intro hactive
  obtain ⟨q, lag, hholds, -, hcarries⟩ := hfollows.ring
  rw [hholds.fill]
  exact (hcarries hactive).length

/-- A ring of ten bytes, which frames wrap around, with a packet and a boundary in the middle of a
refill. -/
theorem playback_in_order_wrapped :
    let table : RateTable := ⟨[(48000, some ⟨5, ⟨3, 7⟩, ⟨4, 9⟩⟩)], 204000000, .stereo16⟩
    let operations : List Operation :=
      [.switchTo 48000, .arrive (.packet [1, 2, 3, 4, 5, 6, 7, 8]),
        .transmit 4 [[], [.packet [9, 10, 11, 12]], [], [.packet [13, 14, 15, 16], .boundary]]]
    0 < 10
      ∧ (∀ e ∈ (idle table 10 (Nat.succ_pos 9)).events operations, e.Aligned)
      ∧ (∀ past, past <+: (idle table 10 (Nat.succ_pos 9)).events operations →
        Trace.missed past < 65536)
      ∧ (Playlist.after ((idle table 10 (Nat.succ_pos 9)).events operations)).played
        = [⟨0, 0, 0x04030201⟩, ⟨0, 1, 0x08070605⟩, ⟨1, 0, 0x0C0B0A09⟩]
      ∧ ∀ past value later,
        (idle table 10 (Nat.succ_pos 9)).events operations
          = past ++ .call (.send value) :: later →
        value = (Playlist.after past).expected := by
  intro table operations
  have haligned : ∀ e ∈ (idle table 10 (Nat.succ_pos 9)).events operations, e.Aligned := by
    decide
  have hmissed : ∀ past, past <+: (idle table 10 (Nat.succ_pos 9)).events operations →
      Trace.missed past < 65536 := by
    intro past hpast
    have hlength : ((idle table 10 (Nat.succ_pos 9)).events operations).length = 12 := by decide
    have hprefix := hpast.length_le
    have hle := Trace.missed_le_length past
    omega
  exact ⟨by decide, haligned, hmissed, by decide,
    (playback_in_order (n := 10) table (Nat.succ_pos 9) operations haligned hmissed).1⟩

end Session

end PacedAudio
