/-
# PacedAudio.Proofs.Feed.Silence — when the host falls silent

When nothing arrives any more, transmit interrupts drain the ring until less than a frame is left
in it, and from then on play the last frame again and again. Each of them takes four frames or
more, so it is known after how many of them the ring is dry. Less than a frame is below the low
mark of a ring of eleven bytes or more, so playback is nominal then, and stays so
(`silence_ends_nominal`).

As the fill never rises, the speed changes at most twice: up, if the fill is above the high mark at
the start, and down again (`Watermarks.changesLeft`). The frame that is played again is known from
the start (`Ring.finalFrame`): taking a frame does not change which one it will be.
-/

import PacedAudio.Proofs.Feed.Quiet
import PacedAudio.Proofs.Feed.Sequence
import PacedAudio.Proofs.Ring.Refinement

namespace PacedAudio

variable {n : Nat}

/-! ## Changes of speed that are left -/

namespace Watermarks

variable {marks : Watermarks} {fill lower : Nat}

/-- Below the low mark playback becomes nominal. -/
theorem next_of_lt_low (hmarks : marks.low ≤ marks.high) (hlow : fill < marks.low)
    (speed : Speed) : (marks.next speed fill).1 = .nominal := by
  cases speed with
  | nominal => rw [next, if_neg (Nat.not_le.mpr (Nat.lt_of_lt_of_le hlow hmarks))]
  | fast => rw [next, if_pos hlow]

/-- How many changes of speed can come at most while the fill does not rise. -/
def changesLeft (marks : Watermarks) : Speed → Nat → Nat
  | .nominal, fill => if marks.high ≤ fill then 2 else 0
  | .fast, _ => 1

theorem changesLeft_le (marks : Watermarks) (speed : Speed) (fill : Nat) :
    marks.changesLeft speed fill ≤ 2 := by
  cases speed with
  | nominal =>
    rw [changesLeft]
    split
    · exact Nat.le_refl 2
    · exact Nat.zero_le 2
  | fast => exact Nat.le_succ 1

/-- A change of speed is one less that is left. -/
theorem changesLeft_next (hmarks : marks.low ≤ marks.high) (hlower : lower ≤ fill)
    (speed : Speed) :
    (if (marks.next speed lower).2 = .hold then 0 else 1)
        + marks.changesLeft (marks.next speed lower).1 lower
      ≤ marks.changesLeft speed fill := by
  cases speed with
  | nominal =>
    rw [next]
    split
    · next hhigh => simp [changesLeft, Nat.le_trans hhigh hlower]
    · next hhigh => simp [changesLeft, hhigh]
  | fast =>
    rw [next]
    split
    · next hlow =>
      have hhigh : ¬ marks.high ≤ lower := by omega
      simp [changesLeft, hhigh]
    · simp [changesLeft]

end Watermarks

/-! ## Frames taken one after the other -/

namespace Ring

variable {r : Ring n}

/-- The frame that is played again once less than a frame is left: the last one that waits, or else
the last one that was played. -/
def finalFrame (r : Ring n) : UInt32 := (frames r.contents).getLastD r.lastFrame

/-- The ring after so many frames have been taken. -/
def afterFrames (r : Ring n) (count : Nat) : Ring n := r.after (List.replicate count .takeFrame)

theorem afterFrames_succ (r : Ring n) (count : Nat) :
    r.afterFrames (count + 1) = r.takeFrame.2.afterFrames count :=
  rfl

theorem afterFrames_add (r : Ring n) (count more : Nat) :
    r.afterFrames (count + more) = (r.afterFrames count).afterFrames more := by
  rw [afterFrames, ← List.replicate_append_replicate, after_append]
  rfl

theorem sound_takeFrame (h : r.Sound) : r.takeFrame.2.Sound := by
  have hle : r.fill ≤ r.capacity := h
  show r.takeFrame.2.fill ≤ r.takeFrame.2.capacity
  rw [fill_takeFrame, capacity_takeFrame]
  split
  · exact hle
  · exact Nat.le_trans (Nat.sub_le _ _) hle

/-- Whatever is played is the last frame from then on. -/
theorem value_takeFrame (r : Ring n) : r.takeFrame.1.value = r.takeFrame.2.lastFrame := by
  rw [takeFrame]
  rcases r.take playedFrameBytes with ⟨_ | bytes, rest⟩ <;> rfl

theorem finalFrame_of_lt (h : r.fill < playedFrameBytes) : r.finalFrame = r.lastFrame := by
  have hnone : frames r.contents = [] := by
    apply List.eq_nil_of_length_eq_zero
    rw [length_frames, length_contents]
    exact Nat.div_eq_of_lt h
  rw [finalFrame, hnone]
  rfl

/-- A frame that is taken does not change which one will be played again. -/
theorem finalFrame_takeFrame (h : r.Sound) : r.takeFrame.2.finalFrame = r.finalFrame := by
  rcases Nat.lt_or_ge r.fill playedFrameBytes with hdry | hwaits
  · have hfill : r.takeFrame.2.fill < playedFrameBytes := by rwa [fill_takeFrame, if_pos hdry]
    rw [finalFrame_of_lt hfill, finalFrame_of_lt hdry, ← value_takeFrame, takeFrame_of_lt hdry]
    rfl
  · have hlength : playedFrameBytes ≤ r.contents.length := by rwa [length_contents]
    rw [finalFrame, finalFrame, contents_takeFrame h hwaits, frames_of_le hlength,
      ← value_takeFrame, takeFrame_of_le h hwaits, List.getLastD_cons]
    rfl

theorem afterFrames_kept (h : r.Sound) (count : Nat) :
    (r.afterFrames count).Sound ∧ (r.afterFrames count).finalFrame = r.finalFrame := by
  induction count generalizing r with
  | zero => exact ⟨h, rfl⟩
  | succ count ih =>
    obtain ⟨hsound, hfinal⟩ := ih (sound_takeFrame h)
    exact ⟨hsound, hfinal.trans (finalFrame_takeFrame h)⟩

theorem fill_afterFrames (r : Ring n) (count : Nat) :
    (r.afterFrames count).fill
      = r.fill - playedFrameBytes * min count (r.fill / playedFrameBytes) := by
  induction count generalizing r with
  | zero => simp [afterFrames]
  | succ count ih =>
    rw [afterFrames_succ, ih, fill_takeFrame, playedFrameBytes]
    split <;> omega

/-- As many frames as wait leave less than one. -/
theorem fill_afterFrames_lt {count : Nat} (h : r.fill ≤ playedFrameBytes * count) :
    (r.afterFrames count).fill < playedFrameBytes := by
  rw [fill_afterFrames]
  simp only [playedFrameBytes] at h ⊢
  omega

theorem afterFrames_takeFrame (r : Ring n) (count : Nat) :
    (r.afterFrames count).takeFrame.2 = r.afterFrames (count + 1) := by
  rw [afterFrames_add]
  rfl

/-- What is played is the frame that comes after those played before it. -/
theorem played_getElem? (r : Ring n) {count place : Nat} {frame : UInt32}
    (h : (r.played (List.replicate count .takeFrame))[place]? = some frame) :
    frame = (r.afterFrames place).takeFrame.1.value := by
  induction count generalizing r place with
  | zero => simp [played] at h
  | succ count ih =>
    rw [List.replicate_succ, played_takeFrame] at h
    cases place with
    | zero =>
      rw [List.getElem?_cons_zero] at h
      exact (Option.some.inj h).symm
    | succ place =>
      rw [List.getElem?_cons_succ] at h
      exact ih r.takeFrame.2 h

theorem length_played_frames (r : Ring n) (count : Nat) :
    (r.played (List.replicate count .takeFrame)).length = count := by
  induction count generalizing r with
  | zero => rfl
  | succ count ih => rw [List.replicate_succ, played_takeFrame, List.length_cons, ih]

/-- When less than a frame is left, it is the final one. -/
theorem takeFrame_final (h : r.Sound) (hfill : r.takeFrame.2.fill < playedFrameBytes) :
    r.takeFrame.1.value = r.finalFrame := by
  rw [value_takeFrame, ← finalFrame_of_lt hfill, finalFrame_takeFrame h]

theorem takeFrame_again (hfill : r.fill < playedFrameBytes) :
    r.takeFrame.1 = .again r.finalFrame := by
  rw [takeFrame_of_lt hfill, finalFrame_of_lt hfill]

end Ring

/-- A transmit interrupt: how many frames it finds queued, and the divider for its changes of
speed. -/
structure Interrupt where
  level : Nat
  divider : Divider
deriving DecidableEq, Repr

/-- The frames that fill up the queue. -/
def Interrupt.frames (interrupt : Interrupt) : Nat := Transmitter.queueDepth - interrupt.level

namespace Feed

variable {f : Feed n} {marks : Watermarks} {interrupts : List Interrupt}

/-! ## Interrupts in which nothing arrives -/

/-- Serves an interrupt in which nothing arrives. -/
def serve (marks : Watermarks) (f : Feed n) (interrupt : Interrupt) : List Event × Feed n :=
  let (_, after, record) := refill interrupted interrupt.level interrupt.divider marks (f, ⟨[], []⟩)
  (record.events, after)

/-- The events of interrupts one after the other. -/
def servedEvents (marks : Watermarks) (f : Feed n) (interrupts : List Interrupt) : List Event :=
  (run (serve marks) f interrupts).1.flatten

/-- The feed after them. -/
def served (marks : Watermarks) (f : Feed n) (interrupts : List Interrupt) : Feed n :=
  (run (serve marks) f interrupts).2

theorem sendFrames_silent (count : Nat) (f : Feed n) (events : List Event) :
    sendFrames interrupted count (f, ⟨[], events⟩)
      = ({ f with ring := f.ring.afterFrames count },
          ⟨[], events ++ (f.ring.played (List.replicate count .takeFrame)).map
            fun frame => .call (.send frame)⟩) := by
  induction count generalizing f events with
  | zero => exact congrArg (fun noted => (f, (⟨[], noted⟩ : Record))) (List.append_nil _).symm
  | succ count ih =>
    rw [sendFrames]
    simp only [interrupted_quiet]
    rw [ih, List.append_assoc]
    rfl

/-- The feed when an interrupt has sent its frames. -/
def drained (f : Feed n) (interrupt : Interrupt) : Feed n :=
  { f with ring := f.ring.afterFrames interrupt.frames }

/-- An interrupt takes its frames and then looks at what is left. -/
theorem serve_eq {interrupt : Interrupt} (hlevel : interrupt.level ≤ Transmitter.refillLevel)
    (marks : Watermarks) (f : Feed n) :
    f.serve marks interrupt
      = ((f.drained interrupt).quietEvents interrupt.divider marks
            (f.ring.played (List.replicate interrupt.frames .takeFrame)),
          (f.drained interrupt).paced marks) := by
  simp only [serve, refill_of_le interrupted hlevel, interrupted_quiet, sendFrames_silent,
    adjust_quiet]
  rfl

theorem length_settings_quietEvents (f : Feed n) (divider : Divider) (marks : Watermarks)
    (sent : List UInt32) :
    (Trace.settings (f.quietEvents divider marks sent)).length
      = if (f.look marks).2 = .hold then 0 else 1 := by
  have hsent : Trace.settings (.call .queued :: sent.map fun frame => .call (.send frame)) = [] := by
    rw [Trace.settings, List.filterMap_eq_nil_iff]
    simp [Event.setting?]
  rw [quietEvents, Trace.settings_append, hsent, changeEvents]
  split <;> rfl

/-! ## One interrupt after the other -/

@[simp] theorem served_cons (marks : Watermarks) (f : Feed n) (interrupt : Interrupt)
    (rest : List Interrupt) :
    f.served marks (interrupt :: rest) = (f.serve marks interrupt).2.served marks rest :=
  rfl

@[simp] theorem servedEvents_cons (marks : Watermarks) (f : Feed n) (interrupt : Interrupt)
    (rest : List Interrupt) :
    f.servedEvents marks (interrupt :: rest)
      = (f.serve marks interrupt).1 ++ (f.serve marks interrupt).2.servedEvents marks rest :=
  rfl

/-- The frames that fill up the queue each time. -/
def totalFrames : List Interrupt → Nat
  | [] => 0
  | interrupt :: rest => interrupt.frames + totalFrames rest

/-- What is sent and what is left in the ring, however often the speed is changed. -/
theorem served_frames (hlevels : ∀ interrupt ∈ interrupts,
      interrupt.level ≤ Transmitter.refillLevel) (marks : Watermarks) (f : Feed n) :
    (f.served marks interrupts).ring = f.ring.afterFrames (totalFrames interrupts)
      ∧ Trace.sent (f.servedEvents marks interrupts)
        = f.ring.played (List.replicate (totalFrames interrupts) .takeFrame) := by
  induction interrupts generalizing f with
  | nil => exact ⟨rfl, rfl⟩
  | cons interrupt rest ih =>
    obtain ⟨hlevel, hrest⟩ := List.forall_mem_cons.mp hlevels
    obtain ⟨hring, hsent⟩ := ih hrest ((f.drained interrupt).paced marks)
    have htotal : totalFrames (interrupt :: rest) = interrupt.frames + totalFrames rest := rfl
    rw [served_cons, servedEvents_cons, serve_eq hlevel, htotal]
    constructor
    · rw [hring, Ring.afterFrames_add]
      rfl
    · rw [Trace.sent_append, hsent, sent_quietEvents, ← List.replicate_append_replicate,
        Ring.played_append]
      rfl

/-- Each interrupt takes four frames at least. -/
theorem le_totalFrames (hlevels : ∀ interrupt ∈ interrupts,
      interrupt.level ≤ Transmitter.refillLevel) :
    4 * interrupts.length ≤ totalFrames interrupts := by
  induction interrupts with
  | nil => exact Nat.le_refl _
  | cons interrupt rest ih =>
    obtain ⟨hlevel, hrest⟩ := List.forall_mem_cons.mp hlevels
    have hframes : 4 ≤ interrupt.frames := by
      simp only [Interrupt.frames, Transmitter.queueDepth, Transmitter.refillLevel] at hlevel ⊢
      omega
    have hmore := ih hrest
    have htotal : totalFrames (interrupt :: rest) = interrupt.frames + totalFrames rest := rfl
    rw [htotal, List.length_cons]
    omega

/-- The divider is programmed no more often than changes of speed are left. -/
theorem length_settings_served (hmarks : marks.low ≤ marks.high)
    (hlevels : ∀ interrupt ∈ interrupts, interrupt.level ≤ Transmitter.refillLevel) (f : Feed n) :
    (Trace.settings (f.servedEvents marks interrupts)).length
      ≤ marks.changesLeft f.pacer.speed f.ring.fill := by
  induction interrupts generalizing f with
  | nil => exact Nat.zero_le _
  | cons interrupt rest ih =>
    obtain ⟨hlevel, hrest⟩ := List.forall_mem_cons.mp hlevels
    have hlater := ih hrest ((f.drained interrupt).paced marks)
    have hlower : (f.drained interrupt).ring.fill ≤ f.ring.fill := by
      show (f.ring.afterFrames interrupt.frames).fill ≤ f.ring.fill
      rw [Ring.fill_afterFrames]
      exact Nat.sub_le _ _
    have hnext := marks.changesLeft_next hmarks hlower f.pacer.speed
    rw [servedEvents_cons, serve_eq hlevel, Trace.settings_append, List.length_append,
      length_settings_quietEvents]
    exact Nat.le_trans (Nat.add_le_add_left hlater _) hnext

/-- When an interrupt leaves less than the low mark, playback is nominal. -/
theorem speed_served (hmarks : marks.low ≤ marks.high)
    (hlevels : ∀ interrupt ∈ interrupts, interrupt.level ≤ Transmitter.refillLevel) (f : Feed n)
    (hsome : interrupts ≠ []) (hlow : (f.served marks interrupts).ring.fill < marks.low) :
    (f.served marks interrupts).pacer.speed = .nominal := by
  induction interrupts generalizing f with
  | nil => exact absurd rfl hsome
  | cons interrupt rest ih =>
    obtain ⟨hlevel, hrest⟩ := List.forall_mem_cons.mp hlevels
    rw [served_cons] at hlow ⊢
    cases rest with
    | nil =>
      rw [serve_eq hlevel] at hlow ⊢
      exact Watermarks.next_of_lt_low hmarks hlow _
    | cons interrupt' rest' => exact ih hrest _ (List.cons_ne_nil _ _) hlow

/-- An interrupt for every four frames that the ring holds leaves less than a frame. -/
theorem fill_served_lt (hsound : f.ring.Sound)
    (hlevels : ∀ interrupt ∈ interrupts, interrupt.level ≤ Transmitter.refillLevel)
    (hlength : (f.ring.capacity + 15) / 16 ≤ interrupts.length) (marks : Watermarks) :
    (f.served marks interrupts).ring.fill < playedFrameBytes := by
  have hle : f.ring.fill ≤ f.ring.capacity := hsound
  have hframes := le_totalFrames hlevels
  rw [(served_frames hlevels marks f).1]
  refine Ring.fill_afterFrames_lt ?_
  simp only [playedFrameBytes]
  omega

/-- In a ring of eleven bytes less than a frame is below the low mark. In one of ten, three bytes
are not. -/
theorem frame_le_low {capacity : Nat} (h : 11 ≤ capacity) :
    playedFrameBytes ≤ (Watermarks.ofCapacity capacity).low := by
  simp only [Watermarks.ofCapacity, playedFrameBytes]
  omega

/-- A new ring has gone through a sequence of operations in which fewer than 65536 flushes are ever
missed in a row, and its capacity is eleven bytes at least. Then nothing arrives any more, and the
transmit interrupts all find the queue at or below its refill level. After a sixteenth of the
capacity of them, rounded up, playback is nominal and at most three bytes wait, and so it is after
any more of them. The divider is programmed twice at most. What is sent is what the ring gives,
frame by frame, and once less than a frame is left in it, that is one and the same frame. -/
theorem silence_ends_nominal (h : 0 < n) (past : List Ring.Operation)
    (hmissed : ∀ before, before <+: past →
      ((Ring.Watched.empty n h).after before).lag.missed < 65536)
    (hcapacity : 11 ≤ ((Ring.empty n h).after past).capacity) (pacer : Pacer)
    (hlevels : ∀ interrupt ∈ interrupts, interrupt.level ≤ Transmitter.refillLevel) :
    let ring := (Ring.empty n h).after past
    let marks := Watermarks.ofCapacity ring.capacity
    let f : Feed n := ⟨ring, pacer⟩
    (∀ before, before <+: interrupts → (ring.capacity + 15) / 16 ≤ before.length →
        (f.served marks before).pacer.speed = .nominal
          ∧ (f.served marks before).ring.fill ≤ 3)
      ∧ (Trace.settings (f.servedEvents marks interrupts)).length ≤ 2
      ∧ (∀ before, before <+: interrupts →
        (f.served marks before).ring
          = ring.afterFrames (Trace.sent (f.servedEvents marks before)).length)
      ∧ ∀ (place : Nat) (frame : UInt32),
        (Trace.sent (f.servedEvents marks interrupts))[place]? = some frame →
          frame = (ring.afterFrames place).takeFrame.1.value
            ∧ ((ring.afterFrames (place + 1)).fill < playedFrameBytes → frame = ring.finalFrame)
            ∧ ((ring.afterFrames place).fill < playedFrameBytes →
              (ring.afterFrames place).takeFrame.1 = .again ring.finalFrame) := by
  intro ring marks f
  have hsound : ring.Sound := Ring.sound_of_missed h hmissed
  have hpos : 11 ≤ ring.capacity := hcapacity
  have hmarks : marks.low ≤ marks.high :=
    Nat.le_of_lt (Watermarks.low_lt_high (Nat.lt_of_lt_of_le (by decide) hpos))
  refine ⟨fun before hbefore hlength => ?_, ?_, fun before hbefore => ?_,
    fun place frame hframe => ?_⟩
  · have hlevels' : ∀ interrupt ∈ before, interrupt.level ≤ Transmitter.refillLevel :=
      fun interrupt hinterrupt => hlevels interrupt (hbefore.mem hinterrupt)
    have hdry : (f.served marks before).ring.fill < playedFrameBytes :=
      fill_served_lt (f := f) hsound hlevels' hlength marks
    have hlow : playedFrameBytes ≤ marks.low := frame_le_low hcapacity
    have hsome : before ≠ [] := by
      rintro rfl
      rw [List.length_nil] at hlength
      omega
    exact ⟨speed_served hmarks hlevels' f hsome (Nat.lt_of_lt_of_le hdry hlow),
      Nat.le_of_lt_succ hdry⟩
  · exact Nat.le_trans (length_settings_served hmarks hlevels f)
      (marks.changesLeft_le _ _)
  · have hlevels' : ∀ interrupt ∈ before, interrupt.level ≤ Transmitter.refillLevel :=
      fun interrupt hinterrupt => hlevels interrupt (hbefore.mem hinterrupt)
    obtain ⟨hring, hsent⟩ := served_frames hlevels' marks f
    rw [hring, hsent, Ring.length_played_frames]
  · rw [(served_frames hlevels marks f).2] at hframe
    have hvalue := Ring.played_getElem? ring hframe
    obtain ⟨hsound', hfinal⟩ := Ring.afterFrames_kept hsound place
    refine ⟨hvalue, fun hdry => ?_, fun hdry => ?_⟩
    · rw [← Ring.afterFrames_takeFrame] at hdry
      rw [hvalue, Ring.takeFrame_final hsound' hdry, hfinal]
    · rw [Ring.takeFrame_again hdry, hfinal]

/-- Two bytes short of 48, and three interrupts that find four frames queued. The first one leaves
the high mark and speeds up, the second one slows down again, the third one plays the last frame
again, and two bytes are left. -/
theorem silence_ends_nominal_after_fast :
    let past : List Ring.Operation := [.push (List.replicate 40 0 ++ [1, 2, 3, 4, 5, 6])]
    let interrupts : List Interrupt := List.replicate 3 ⟨4, ⟨1, ⟨1, 2⟩, ⟨1, 3⟩⟩⟩
    let ring := (Ring.empty 48 (by decide)).after past
    let marks := Watermarks.ofCapacity ring.capacity
    let f : Feed 48 := ⟨ring, .initial⟩
    0 < 48
      ∧ (∀ before, before <+: past →
        ((Ring.Watched.empty 48 (by decide)).after before).lag.missed < 65536)
      ∧ 11 ≤ ring.capacity
      ∧ (∀ interrupt ∈ interrupts, interrupt.level ≤ Transmitter.refillLevel)
      ∧ (f.served marks interrupts).pacer.speed = .nominal
      ∧ (f.served marks interrupts).ring.fill ≤ 3
      ∧ (Trace.settings (f.servedEvents marks interrupts)).length = 2
      ∧ ring.finalFrame = 0x04030201
      ∧ (Trace.sent (f.servedEvents marks interrupts))[11]? = some 0x04030201
      ∧ (ring.afterFrames 11).takeFrame.1 = .again ring.finalFrame := by
  intro past interrupts
  have hmissed : ∀ before, before <+: past →
      ((Ring.Watched.empty 48 (by decide)).after before).lag.missed < 65536 :=
    Ring.Watched.missed_lt_of_length (by decide) (by decide)
  have hcapacity : 11 ≤ ((Ring.empty 48 (by decide)).after past).capacity := by decide +kernel
  have hlevels : ∀ interrupt ∈ interrupts, interrupt.level ≤ Transmitter.refillLevel := by decide
  obtain ⟨hnominal, -, -, hsent⟩ :=
    silence_ends_nominal (by decide) past hmissed hcapacity .initial hlevels
  obtain ⟨hspeed, hfill⟩ := hnominal interrupts (List.prefix_refl _) (by decide +kernel)
  obtain ⟨-, -, hagain⟩ := hsent 11 0x04030201 (by decide +kernel)
  exact ⟨by decide, hmissed, hcapacity, hlevels, hspeed, hfill, by decide +kernel,
    by decide +kernel, by decide +kernel, hagain (by decide +kernel)⟩

end Feed

end PacedAudio
