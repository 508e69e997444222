/-
# PacedAudio.Proofs.Session.Absorption — drift that is absorbed costs nothing

As long as the drift of every round is one that the speed at its start absorbs, every packet is
stored, the ring never runs dry, and what is sent is what has arrived, frame by frame
(`drift_absorbed`).

The invariant is on the fill between two rounds (`Balanced`): at the nominal speed it is at most
the high mark, at the fast one it is between the low mark and a packet above the high one. The
speed may change in the middle of a round, but the last interrupt of the round has looked at the
fill that is left, so the speed at the end of a round fits the fill there. What a round does to
the frames and the counters is put together from its operations (`Lossless`).
-/

import PacedAudio.Proofs.Feed.Quiet
import PacedAudio.Proofs.RateTable.Entries
import PacedAudio.Proofs.Session.Course
import PacedAudio.Session.Round

namespace PacedAudio

/-! ## Speeds that suit the fill -/

/-- The fill is one that a look at it may have left the speed at. -/
def Watermarks.Suits (marks : Watermarks) : Speed → Nat → Prop
  | .nominal, fill => fill ≤ marks.high
  | .fast, fill => marks.low ≤ fill

/-- Whatever the speed was, after a look at the fill it suits it. -/
theorem Watermarks.suits_next {marks : Watermarks} (hmarks : marks.low ≤ marks.high) (speed : Speed)
    (fill : Nat) : marks.Suits (marks.next speed fill).1 fill := by
  cases speed with
  | nominal =>
    rw [next]
    split
    · next hhigh => exact Nat.le_trans hmarks hhigh
    · next hhigh => exact Nat.le_of_lt (Nat.not_le.mp hhigh)
  | fast =>
    rw [next]
    split
    · next hlow => exact Nat.le_trans (Nat.le_of_lt hlow) hmarks
    · next hlow => exact Nat.not_lt.mp hlow

theorem Watermarks.low_le_high (capacity : Nat) :
    (ofCapacity capacity).low ≤ (ofCapacity capacity).high := by
  simp only [ofCapacity]
  omega

namespace Session

variable {n : Nat} {s t : Session n} {stream : Stream} {ceiling capacity largest : Nat}

/-! ## Operations that lose nothing -/

/-- As much has been counted as at the start, and no more waits than the ceiling. -/
structure Steady (ceiling : Nat) (s t : Session n) : Prop where
  overruns : t.status.overruns = s.status.overruns
  underruns : t.status.underruns = s.status.underruns
  fill_le : t.status.fill ≤ ceiling

/-- Over some operations, in which `arrived` comes in: every packet is stored, nothing is counted,
the fill stays below the ceiling, and what is sent and what is left are together what there was and
what has come. -/
structure Lossless (ceiling : Nat) (s : Session n) (operations : List Operation)
    (arrived : List UInt32) : Prop where
  stored : ∀ bytes outcome, .packet bytes outcome ∈ s.events operations → outcome = .ok .stored
  steady : ∀ before, before <+: operations → Steady ceiling s (s.after before)
  frames : Trace.sent (s.events operations) ++ frames (s.after operations).feed.ring.contents
    = frames s.feed.ring.contents ++ arrived

theorem Steady.trans {u : Session n} (h : Steady ceiling s t) (h' : Steady ceiling t u) :
    Steady ceiling s u :=
  ⟨h'.overruns.trans h.overruns, h'.underruns.trans h.underruns, h'.fill_le⟩

theorem lossless_nil (h : s.status.fill ≤ ceiling) : Lossless ceiling s [] [] where
  stored := fun _ _ hmem => absurd hmem List.not_mem_nil
  steady := by
    intro before hbefore
    rw [List.prefix_nil.mp hbefore]
    exact ⟨rfl, rfl, h⟩
  frames := (List.append_nil _).symm

theorem Lossless.append {first second : List Operation} {arrived more : List UInt32}
    (h : Lossless ceiling s first arrived) (h' : Lossless ceiling (s.after first) second more) :
    Lossless ceiling s (first ++ second) (arrived ++ more) where
  stored := by
    intro bytes outcome hmem
    rw [events_append] at hmem
    exact (List.mem_append.mp hmem).elim (h.stored bytes outcome) (h'.stored bytes outcome)
  steady := by
    intro before hbefore
    rcases List.prefix_or_prefix_of_prefix hbefore (List.prefix_append first second)
      with hinside | ⟨rest, rfl⟩
    · exact h.steady before hinside
    · rw [after_append]
      exact (h.steady first (List.prefix_refl _)).trans
        (h'.steady rest ((List.prefix_append_right_inj first).mp hbefore))
  frames := by
    rw [events_append, after_append, Trace.sent_append, List.append_assoc, h'.frames,
      ← List.append_assoc, h.frames, List.append_assoc]

theorem events_single (s : Session n) (operation : Operation) :
    s.events [operation] = (s.perform operation).1.events :=
  List.append_nil _

theorem after_single (s : Session n) (operation : Operation) :
    s.after [operation] = (s.perform operation).2 :=
  rfl

/-- One operation, with the fill below the ceiling before and after it. -/
theorem lossless_single {operation : Operation} {arrived : List UInt32}
    (hstored : ∀ bytes outcome, .packet bytes outcome ∈ (s.perform operation).1.events →
      outcome = .ok .stored)
    (hbefore : s.status.fill ≤ ceiling) (hafter : Steady ceiling s (s.perform operation).2)
    (hframes : Trace.sent (s.perform operation).1.events
        ++ PacedAudio.frames (s.perform operation).2.feed.ring.contents
      = PacedAudio.frames s.feed.ring.contents ++ arrived) :
    Lossless ceiling s [operation] arrived where
  stored := by rwa [events_single]
  steady := by
    intro before hprefix
    rcases List.prefix_cons_iff.mp hprefix with rfl | ⟨rest, rfl, hrest⟩
    · exact ⟨rfl, rfl, hbefore⟩
    · rw [List.prefix_nil.mp hrest]
      exact hafter
  frames := by rwa [events_single]

/-! ## A packet, and an interrupt -/

/-- The stream plays at `speed`, and `fill` bytes wait, which are whole frames. -/
structure Standing (stream : Stream) (capacity fill : Nat) (speed : Speed) (s : Session n) :
    Prop where
  playing : s.stream = some stream
  size : s.feed.ring.capacity = capacity
  waiting : s.feed.ring.fill = fill
  pace : s.feed.pacer.speed = speed
  le_capacity : fill ≤ capacity
  aligned : playedFrameBytes ∣ fill

/-- A packet that fits changes the ring alone. -/
theorem perform_packet (h : s.stream = some stream) {bytes : List UInt8}
    (hfits : s.feed.ring.Fits bytes) :
    s.perform (.arrive (.packet bytes))
      = (⟨.arrived, [.packet bytes (.ok .stored)]⟩,
          { s with feed := { s.feed with ring := (s.feed.ring.push bytes).2 } }) := by
  rw [← Ring.push_fst_of_fits hfits]
  simp only [perform, arrive_of_some h]
  rfl

namespace Standing

variable {fill : Nat} {speed : Speed}

theorem sound (h : s.Standing stream capacity fill speed) : s.feed.ring.Sound := by
  show s.feed.ring.fill ≤ s.feed.ring.capacity
  rw [h.waiting, h.size]
  exact h.le_capacity

/-- A packet of whole frames that fits. -/
theorem packet (h : s.Standing stream capacity fill speed) {bytes : List UInt8}
    (haligned : playedFrameBytes ∣ bytes.length) (hle : fill + bytes.length ≤ ceiling)
    (hceiling : ceiling ≤ capacity) :
    Lossless ceiling s [.arrive (.packet bytes)] (frames bytes)
      ∧ (s.after [.arrive (.packet bytes)]).Standing stream capacity (fill + bytes.length)
        speed := by
  have hfits : s.feed.ring.Fits bytes := by
    show s.feed.ring.fill + bytes.length ≤ s.feed.ring.capacity
    rw [h.waiting, h.size]
    omega
  have hfill : (s.feed.ring.push bytes).2.fill = fill + bytes.length := by
    rw [Ring.fill_push hfits, h.waiting]
  have hperform := perform_packet h.playing hfits
  constructor
  · apply lossless_single
    · intro bytes' outcome hmem
      rw [hperform] at hmem
      cases List.mem_singleton.mp hmem
      rfl
    · show s.feed.ring.fill ≤ ceiling
      rw [h.waiting]
      omega
    · rw [hperform]
      refine ⟨?_, Ring.underruns_push _ _, Nat.le_trans (Nat.le_of_eq hfill) hle⟩
      exact (Ring.overruns_push _ _).trans (if_neg (Nat.not_lt.mpr hfits))
    · have hwhole : playedFrameBytes ∣ s.feed.ring.contents.length := by
        rw [Ring.length_contents, h.waiting]
        exact h.aligned
      have hsent : Trace.sent [.packet bytes (.ok .stored)] = [] := rfl
      rw [hperform]
      dsimp only
      rw [hsent, List.nil_append, Ring.contents_push hfits, frames_append hwhole]
  · rw [after_single, hperform]
    exact {
      playing := h.playing
      size := (Ring.capacity_push _ _).trans h.size
      waiting := hfill
      pace := h.pace
      le_capacity := Nat.le_trans hle hceiling
      aligned := Nat.dvd_add h.aligned haligned }

/-- An interrupt that finds the queue empty sends what fills it, if as much waits. -/
theorem perform_interrupt
    (h : s.Standing stream capacity (fill + Round.bytesPerInterrupt) speed) :
    ∃ sent g, s.feed.Drains sent g ∧ g.ring.fill = fill
      ∧ s.perform (.transmit 0 [])
        = (⟨.transmitted Transmitter.queueDepth,
              g.quietEvents stream.divider stream.marks sent⟩,
            { s with feed := g.paced stream.marks }) := by
  have hwaits : playedFrameBytes * (Transmitter.queueDepth - 0) ≤ s.feed.ring.fill := by
    rw [h.waiting]
    exact Nat.le_add_left _ _
  obtain ⟨sent, g, hlength, hdrains, hrefill⟩ :=
    Feed.refill_quiet (Nat.zero_le _) stream.divider stream.marks h.sound hwaits
  refine ⟨sent, g, hdrains, ?_, ?_⟩
  · have hall := hdrains.fill
    rw [h.waiting, hlength, Nat.add_comm] at hall
    exact (Nat.add_left_cancel hall).symm
  · simp only [perform, transmit_of_some _ _ h.playing, hrefill]
    rfl

theorem interrupt (h : s.Standing stream capacity (fill + Round.bytesPerInterrupt) speed)
    (hle : fill + Round.bytesPerInterrupt ≤ ceiling) :
    Lossless ceiling s [.transmit 0 []] []
      ∧ (s.after [.transmit 0 []]).Standing stream capacity fill
        (stream.marks.next speed fill).1 := by
  obtain ⟨sent, g, hdrains, hleft, hperform⟩ := h.perform_interrupt
  constructor
  · apply lossless_single
    · intro bytes outcome hmem
      rw [hperform] at hmem
      exact absurd hmem (g.packet_not_mem_quietEvents _ _ _ _ _)
    · exact Nat.le_trans (Nat.le_of_eq h.waiting) hle
    · rw [hperform]
      refine ⟨hdrains.overruns, hdrains.underruns, ?_⟩
      show g.ring.fill ≤ ceiling
      omega
    · rw [hperform, List.append_nil, hdrains.frames, g.sent_quietEvents]
      rfl
  · rw [after_single, hperform]
    exact {
      playing := h.playing
      size := hdrains.capacity.trans h.size
      waiting := hleft
      pace := by
        show (stream.marks.next g.pacer.speed g.ring.fill).1 = _
        rw [hdrains.pacer, h.pace, hleft]
      le_capacity := Nat.le_trans (Nat.le_add_right _ _) h.le_capacity
      aligned := (Nat.dvd_add_left (Nat.dvd_mul_right _ _)).mp h.aligned }

/-- Some interrupts in a row. After them the speed suits what is left. -/
theorem interrupts (hmarks : stream.marks.low ≤ stream.marks.high) (count : Nat)
    (h : s.Standing stream capacity (fill + Round.bytesPerInterrupt * count) speed)
    (hle : fill + Round.bytesPerInterrupt * count ≤ ceiling) :
    Lossless ceiling s (List.replicate count (.transmit 0 [])) []
      ∧ ∃ speed', (s.after (List.replicate count (.transmit 0 []))).Standing stream capacity fill
          speed'
        ∧ (1 ≤ count → stream.marks.Suits speed' fill) := by
  induction count generalizing fill with
  | zero => exact ⟨lossless_nil (Nat.le_trans (Nat.le_of_eq h.waiting) hle), speed, h, nofun⟩
  | succ count ih =>
    -- The last interrupt is the one that settles the speed.
    have hlast : fill + Round.bytesPerInterrupt * (count + 1)
        = fill + Round.bytesPerInterrupt + Round.bytesPerInterrupt * count := by
      rw [Nat.mul_succ]
      omega
    rw [hlast] at h hle
    obtain ⟨hbefore, speed', hstanding, -⟩ := ih h hle
    obtain ⟨hlossless, hafter⟩ :=
      hstanding.interrupt (Nat.le_trans (Nat.le_add_right _ _) hle)
    rw [List.replicate_succ', after_append]
    exact ⟨hbefore.append hlossless, _, hafter, fun _ => Watermarks.suits_next hmarks _ _⟩

end Standing

/-! ## Rounds -/

/-- Between two rounds the speed suits what waits, which is at most a packet above the high mark. -/
structure Balanced (stream : Stream) (capacity largest : Nat) (s : Session n) : Prop where
  standing : s.Standing stream capacity s.feed.ring.fill s.feed.pacer.speed
  suits : stream.marks.Suits s.feed.pacer.speed s.feed.ring.fill
  fill_le : s.feed.ring.fill ≤ stream.marks.high + largest

theorem Standing.balanced {fill : Nat} {speed : Speed}
    (h : s.Standing stream capacity fill speed) (hsuits : stream.marks.Suits speed fill)
    (hfill : fill ≤ stream.marks.high + largest) : s.Balanced stream capacity largest := by
  obtain rfl := h.waiting
  obtain rfl := h.pace
  exact ⟨h, hsuits, hfill⟩

namespace Balanced

/-- There is enough for the interrupts of a round, and what they leave is not too much. -/
theorem drain_le (h : s.Balanced stream capacity largest) {round : Round}
    (hround : round.Absorbed s.feed.pacer.speed stream.marks.low largest) :
    round.drain ≤ s.feed.ring.fill + round.packet.length
      ∧ s.feed.ring.fill + round.packet.length - round.drain
        ≤ stream.marks.high + largest := by
  have hpacket := hround.le_largest
  have hfill := h.fill_le
  have hsuits := h.suits
  cases hspeed : s.feed.pacer.speed with
  | nominal =>
    have hrises := hround.nominal hspeed
    have hhigh : s.feed.ring.fill ≤ stream.marks.high := by rwa [hspeed] at hsuits
    omega
  | fast =>
    obtain ⟨hsinks, hdrain⟩ := hround.fast hspeed
    have hlow : stream.marks.low ≤ s.feed.ring.fill := by rwa [hspeed] at hsuits
    omega

theorem round (h : s.Balanced stream capacity largest)
    (hmarks : stream.marks.low ≤ stream.marks.high)
    (hcapacity : stream.marks.high + 2 * largest ≤ capacity) {round : Round}
    (hround : round.Absorbed s.feed.pacer.speed stream.marks.low largest) :
    Lossless (stream.marks.high + 2 * largest) s round.operations (frames round.packet)
      ∧ (s.after round.operations).Balanced stream capacity largest := by
  have hpacket := hround.le_largest
  have hfill := h.fill_le
  obtain ⟨hdrain, hleft⟩ := h.drain_le hround
  have hceiling : s.feed.ring.fill + round.packet.length
      ≤ stream.marks.high + 2 * largest := by omega
  obtain ⟨hstored, harrived⟩ := h.standing.packet hround.aligned hceiling hcapacity
  -- What waits now is what the interrupts take and what they leave.
  have hsplit : s.feed.ring.fill + round.packet.length
      = s.feed.ring.fill + round.packet.length - round.drain
        + Round.bytesPerInterrupt * round.interrupts :=
    (Nat.sub_add_cancel hdrain).symm
  rw [hsplit] at harrived hceiling
  obtain ⟨hplayed, speed, hafter, hsuits⟩ :=
    harrived.interrupts hmarks round.interrupts hceiling
  have hlossless := hstored.append hplayed
  rw [List.append_nil] at hlossless
  exact ⟨hlossless, hafter.balanced (hsuits hround.interrupts_pos) hleft⟩

theorem rounds (h : s.Balanced stream capacity largest)
    (hmarks : stream.marks.low ≤ stream.marks.high)
    (hcapacity : stream.marks.high + 2 * largest ≤ capacity) {rounds : List Round}
    (hrounds : Absorbs stream.marks.low largest s rounds) :
    Lossless (stream.marks.high + 2 * largest) s (rounds.flatMap Round.operations)
      (rounds.flatMap fun round => frames round.packet) := by
  induction rounds generalizing s with
  | nil =>
    have hfill := h.fill_le
    apply lossless_nil
    show s.feed.ring.fill ≤ stream.marks.high + 2 * largest
    omega
  | cons round rest ih =>
    obtain ⟨hround, hrest⟩ := hrounds
    obtain ⟨hlossless, hbalanced⟩ := h.round hmarks hcapacity hround
    rw [List.flatMap_cons, List.flatMap_cons]
    exact hlossless.append (ih hbalanced hrest)

end Balanced

/-! ## After a switch -/

/-- Nothing waits after a granted switch, and playback is nominal. -/
theorem standing_switchTo {rate : UInt32} {divider : Divider}
    (hdivider : s.dividerFor? rate = some divider)
    (hstream : (s.switchTo rate).session.stream = some stream) :
    (s.switchTo rate).session.Standing stream (s.switchTo rate).session.feed.ring.capacity 0
      .nominal where
  playing := hstream
  size := rfl
  waiting := by
    rw [switchTo_session hdivider]
    exact Ring.fill_resize _ _
  pace := by
    rw [switchTo_session hdivider]
    rfl
  le_capacity := Nat.zero_le _
  aligned := Nat.dvd_zero _

/-- After a granted switch, packets and interrupts come in rounds whose drift the speeds absorb,
and the ring has room for two packets above the high mark. Then every packet is stored. After any
part of it nothing has overrun or run dry since the switch, no more waits than two packets above
the high mark, and what has been sent is the beginning of what the packets bring. At the end of
any round, what has been sent and what waits are together all that has come. -/
theorem drift_absorbed {rate : UInt32} (hswitch : (s.switchTo rate).result = .ok ())
    (hstream : (s.switchTo rate).session.stream = some stream)
    (hlargest : stream.marks.high + 2 * largest
      ≤ (s.switchTo rate).session.feed.ring.capacity)
    (rounds : List Round)
    (hrounds : Absorbs stream.marks.low largest (s.switchTo rate).session rounds) :
    let t := (s.switchTo rate).session
    let operations := rounds.flatMap Round.operations
    let arrived := rounds.flatMap fun round => frames round.packet
    (∀ bytes outcome, .packet bytes outcome ∈ t.events operations → outcome = .ok .stored)
      ∧ (∀ before, before <+: operations →
        Steady (stream.marks.high + 2 * largest) t (t.after before)
          ∧ Trace.sent (t.events before) <+: arrived)
      ∧ Trace.sent (t.events operations) ++ frames (t.after operations).feed.ring.contents
        = arrived := by
  intro t operations arrived
  obtain ⟨divider, hdivider⟩ := dividerFor?_of_granted hswitch
  have hmarks : stream.marks.low ≤ stream.marks.high := by
    rw [switchTo_session hdivider] at hstream
    cases hstream
    exact Watermarks.low_le_high _
  have hempty : t.feed.ring.contents = [] := by
    show (s.switchTo rate).session.feed.ring.contents = []
    rw [switchTo_session hdivider]
    exact Ring.contents_resize _ _
  have hbalanced : t.Balanced stream t.feed.ring.capacity largest :=
    (standing_switchTo hdivider hstream).balanced (Nat.zero_le _) (Nat.zero_le _)
  have hlossless : Lossless (stream.marks.high + 2 * largest) t operations arrived :=
    hbalanced.rounds hmarks hlargest hrounds
  have hall := hlossless.frames
  rw [hempty] at hall
  refine ⟨hlossless.stored, ?_, hall⟩
  rintro before ⟨later, hlater⟩
  refine ⟨hlossless.steady before ⟨later, hlater⟩, ?_⟩
  -- What has been sent by then is the beginning of what is sent in all.
  rw [← hlater, events_append, Trace.sent_append, List.append_assoc] at hall
  exact ⟨_, hall⟩

/-- Ten packets bring more than is played, and playback speeds up; two long rounds later it is
nominal again. -/
theorem drift_absorbed_there_and_back :
    let s := idle RateTable.lpc18xx 256 (Nat.succ_pos 255)
    let stream : Stream := ⟨48000, ⟨0x39, ⟨0xC3, 0xC5⟩, ⟨0x62, 0x63⟩⟩, 256, ⟨160, 96⟩⟩
    let packet := (List.range 48).map UInt8.ofNat
    let rounds := List.replicate 10 ⟨packet, 1⟩ ++ List.replicate 2 ⟨packet, 3⟩
    let t := (s.switchTo 48000).session
    let operations := rounds.flatMap Round.operations
    (s.switchTo 48000).result = .ok () ∧ t.stream = some stream
      ∧ stream.marks.high + 2 * 48 ≤ t.feed.ring.capacity
      ∧ Absorbs stream.marks.low 48 t rounds
      ∧ (t.after operations).status.speedUps = 1 ∧ (t.after operations).status.slowDowns = 1
      ∧ Trace.sent (t.events operations) ++ frames (t.after operations).feed.ring.contents
        = rounds.flatMap fun round => frames round.packet := by
  intro s stream packet rounds t operations
  have hswitch : (s.switchTo 48000).result = .ok () := by rfl
  have hstream : t.stream = some stream := by decide
  have hlargest : stream.marks.high + 2 * 48 ≤ t.feed.ring.capacity := by decide
  have hrounds : Absorbs stream.marks.low 48 t rounds := by decide +kernel
  have hups : (t.after operations).status.speedUps = 1 := by decide +kernel
  have hdowns : (t.after operations).status.slowDowns = 1 := by decide +kernel
  obtain ⟨-, -, hframes⟩ := drift_absorbed hswitch hstream hlargest rounds hrounds
  refine ⟨hswitch, hstream, hlargest, hrounds, hups, hdowns, ?_⟩
  simpa only [t, operations] using hframes

end Session

end PacedAudio
