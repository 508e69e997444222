/-
# PacedAudio.Proofs.Feed.Quiet — a refill that nothing interrupts

When nothing is due in the calls of a refill, it takes its frames one right after the other. If
enough of them wait, they are the first ones in the ring, in order, and what is left in the ring
is the rest (`Drains`); the speed is then set by the fill that is left (`refill_quiet`).
-/

import PacedAudio.Proofs.Feed.Course
import PacedAudio.Ring.Contents
import PacedAudio.Session.Playlist

namespace PacedAudio.Feed

variable {n : Nat} {f g h : Feed n} {sent more : List UInt32}

/-! ## Frames that leave a ring -/

/-- Frames that waited have been taken from the ring, and nothing else has happened. -/
structure Drains (f : Feed n) (sent : List UInt32) (g : Feed n) : Prop where
  frames : frames f.ring.contents = sent ++ frames g.ring.contents
  fill : f.ring.fill = playedFrameBytes * sent.length + g.ring.fill
  capacity : g.ring.capacity = f.ring.capacity
  overruns : g.ring.overruns = f.ring.overruns
  underruns : g.ring.underruns = f.ring.underruns
  pacer : g.pacer = f.pacer

theorem Drains.refl (f : Feed n) : f.Drains [] f where
  frames := rfl
  fill := (Nat.zero_add _).symm
  capacity := rfl
  overruns := rfl
  underruns := rfl
  pacer := rfl

theorem Drains.trans (hfirst : f.Drains sent g) (hsecond : g.Drains more h) :
    f.Drains (sent ++ more) h where
  frames := by rw [hfirst.frames, hsecond.frames, List.append_assoc]
  fill := by
    rw [hfirst.fill, hsecond.fill, List.length_append, Nat.mul_add, Nat.add_assoc]
  capacity := hsecond.capacity.trans hfirst.capacity
  overruns := hsecond.overruns.trans hfirst.overruns
  underruns := hsecond.underruns.trans hfirst.underruns
  pacer := hsecond.pacer.trans hfirst.pacer

theorem Drains.sound (hdrains : f.Drains sent g) (hsound : f.ring.Sound) : g.ring.Sound := by
  have hle : f.ring.fill ≤ f.ring.capacity := hsound
  have hfill := hdrains.fill
  show g.ring.fill ≤ g.ring.capacity
  rw [hdrains.capacity]
  omega

/-- A frame that waits is taken whole. -/
theorem drains_takeFrame (hsound : f.ring.Sound) (hfill : playedFrameBytes ≤ f.ring.fill) :
    f.Drains [f.takeFrame.1.value] f.takeFrame.2 where
  frames := by
    have hlength : playedFrameBytes ≤ f.ring.contents.length := by rwa [Ring.length_contents]
    simp only [takeFrame]
    rw [Ring.contents_takeFrame hsound hfill, Ring.takeFrame_of_le hsound hfill,
      frames_of_le hlength]
    simp only [Frame.value, List.cons_append, List.nil_append]
  fill := by
    have hleft := congrArg List.length (Ring.contents_takeFrame hsound hfill)
    rw [List.length_drop, Ring.length_contents, Ring.length_contents] at hleft
    simp only [takeFrame, List.length_singleton]
    omega
  capacity := f.ring.capacity_takeFrame
  overruns := f.ring.overruns_takeFrame
  underruns := f.ring.underruns_takeFrame.trans (if_neg (Nat.not_lt.mpr hfill))
  pacer := rfl

/-! ## A refill -/

/-- Nothing comes in a call in which nothing is due. -/
theorem interrupted_quiet (call : Transmitter.Call) (f : Feed n) (events : List Event) :
    interrupted call (f, ⟨[], events⟩) = (f, ⟨[], events ++ [.call call]⟩) :=
  rfl

theorem sendFrames_quiet (count : Nat) (hsound : f.ring.Sound)
    (hfill : playedFrameBytes * count ≤ f.ring.fill) (events : List Event) :
    ∃ sent g, sent.length = count ∧ f.Drains sent g
      ∧ sendFrames interrupted count (f, ⟨[], events⟩)
        = (g, ⟨[], events ++ sent.map fun frame => .call (.send frame)⟩) := by
  induction count generalizing f events with
  | zero => exact ⟨[], f, rfl, .refl f, by rw [List.map_nil, List.append_nil]; rfl⟩
  | succ count ih =>
    rw [Nat.mul_succ] at hfill
    have hfirst := drains_takeFrame hsound (Nat.le_trans (Nat.le_add_left _ _) hfill)
    have hleft := hfirst.fill
    rw [List.length_singleton, Nat.mul_one] at hleft
    obtain ⟨sent, g, hlength, hrest, hsent⟩ := ih (hfirst.sound hsound) (by omega)
      (events ++ [.call (.send f.takeFrame.1.value)])
    refine ⟨f.takeFrame.1.value :: sent, g, congrArg (· + 1) hlength, hfirst.trans hrest, ?_⟩
    rw [sendFrames]
    simp only [interrupted_quiet]
    rw [hsent, List.append_assoc]
    rfl

/-- The call by which the speed is changed, if it is. -/
def changeEvents (f : Feed n) (divider : Divider) (marks : Watermarks) : List Event :=
  if (f.look marks).2 = .hold then []
  else [.call (.program divider.prescaler (divider.ratio (f.look marks).1))]

theorem adjust_quiet (divider : Divider) (marks : Watermarks) (f : Feed n) (events : List Event) :
    adjust interrupted divider marks (f, ⟨[], events⟩)
      = (f.paced marks, ⟨[], events ++ f.changeEvents divider marks⟩) := by
  by_cases hhold : (f.look marks).2 = .hold
  · rw [adjust_of_hold _ _ hhold, paced_of_hold hhold, changeEvents, if_pos hhold,
      List.append_nil]
  · rw [adjust_interrupted hhold, interrupted_quiet, changeEvents, if_neg hhold]

/-- The events of a refill that sends `sent` and leaves `f` to decide on the speed. -/
def quietEvents (f : Feed n) (divider : Divider) (marks : Watermarks) (sent : List UInt32) :
    List Event :=
  .call .queued :: (sent.map fun frame => .call (.send frame)) ++ f.changeEvents divider marks

/-- A refill sends the frames that are first in the ring and then looks at what is left. -/
theorem refill_quiet {level : Nat} (hlevel : level ≤ Transmitter.refillLevel)
    (divider : Divider) (marks : Watermarks) (hsound : f.ring.Sound)
    (hfill : playedFrameBytes * (Transmitter.queueDepth - level) ≤ f.ring.fill) :
    ∃ sent g, sent.length = Transmitter.queueDepth - level ∧ f.Drains sent g
      ∧ refill interrupted level divider marks (f, ⟨[], []⟩)
        = (Transmitter.queueDepth - level, g.paced marks,
            ⟨[], g.quietEvents divider marks sent⟩) := by
  obtain ⟨sent, g, hlength, hdrains, hsent⟩ := sendFrames_quiet _ hsound hfill [.call .queued]
  refine ⟨sent, g, hlength, hdrains, ?_⟩
  rw [refill_of_le _ hlevel, interrupted_quiet, List.nil_append, hsent, adjust_quiet]
  rfl

/-! ## What its events show -/

/-- A change of speed sends no frame. -/
theorem sent_quietEvents (f : Feed n) (divider : Divider) (marks : Watermarks)
    (sent : List UInt32) : Trace.sent (f.quietEvents divider marks sent) = sent := by
  have hchange : Trace.sent (f.changeEvents divider marks) = [] := by
    rw [changeEvents]
    split <;> rfl
  have hsent := Trace.sent_append (.call .queued :: sent.map fun frame => .call (.send frame))
    (f.changeEvents divider marks)
  rw [hchange, List.append_nil] at hsent
  exact hsent.trans (Trace.sent_map_send sent)

/-- Nothing arrives. -/
theorem packet_not_mem_quietEvents (f : Feed n) (divider : Divider) (marks : Watermarks)
    (sent : List UInt32) (bytes : List UInt8) (outcome : Checked Outcome) :
    .packet bytes outcome ∉ f.quietEvents divider marks sent := by
  rw [quietEvents, changeEvents]
  split <;> simp

end PacedAudio.Feed
