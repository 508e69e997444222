/-
# PacedAudio.Proofs.Session.Pacing — a change of speed costs bytes

Playback becomes fast at the high mark and nominal again below the low one, so from one change to
the fast speed to the next the fill swings from below the low mark up to the high one. Frames that
are sent and bytes that are discarded only lower the fill. Whatever comes in whatever order, the
bytes of the swing must have been stored in the meantime (`speed_ups_paced`).

The invariant is an account (`Rationed`). While playback is nominal, the bytes that were stored
cover one swing for each change to the fast speed so far, and what waits on top of that. While it is
fast, they cover what was there at the last of these changes, and when it becomes nominal again less
than the low mark waits, which leaves room for a swing. From a switch on the account is kept with
nothing in advance, from a change to the fast speed on with the low mark in advance.
-/

import PacedAudio.Proofs.Session.Since

namespace PacedAudio

/-! ## What a swing of the fill costs -/

/-- From just below the low mark up to the high one. -/
def Watermarks.swing (marks : Watermarks) : Nat := marks.high - marks.low + 1

/-- The marks of a capacity leave a quarter of it between them. -/
theorem Watermarks.capacity_le (capacity : Nat) :
    capacity ≤ 4 * ((ofCapacity capacity).high - (ofCapacity capacity).low) := by
  simp only [ofCapacity]
  omega

variable {n : Nat}

namespace Session

variable {s t start : Session n} {stream : Stream} {marks : Watermarks} {credit : Nat}
  {tally : Tally} {events more past : List Event}

/-! ## Changes of speed -/

/-- A change of speed is one to the speed that is not in force, by the fill that asks for it. -/
theorem entry_change (hstream : s.stream = some stream) (h : (s.feed.look stream.marks).2 ≠ .hold) :
    let e : Event := .call (.program stream.divider.prescaler
      (stream.divider.ratio (s.feed.look stream.marks).1))
    s.feed.pacer.speed = .nominal ∧ stream.marks.high ≤ s.feed.ring.fill
        ∧ (s.entry e).speedUps = 1 ∧ (s.feed.paced stream.marks).pacer.speed = .fast
      ∨ s.feed.pacer.speed = .fast ∧ s.feed.ring.fill < stream.marks.low
        ∧ (s.entry e).speedUps = 0 ∧ (s.feed.paced stream.marks).pacer.speed = .nominal := by
  intro e
  have hbooked := booked_tick (.play hstream (.change s.feed h))
  have hturns : (s.entry e).speedUps + s.feed.pacer.speed.ahead
      = (s.entry e).slowDowns + (s.feed.paced stream.marks).pacer.speed.ahead + 0 := hbooked.turns
  have hsettings : (s.entry e).speedUps + (s.entry e).slowDowns = 1 := hbooked.settings
  have hother : (s.feed.paced stream.marks).pacer.speed = s.feed.pacer.speed.other :=
    Watermarks.next_of_ne_hold h
  rw [hother] at hturns ⊢
  cases hspeed : s.feed.pacer.speed with
  | nominal =>
    refine Or.inl ⟨rfl, Nat.le_of_not_lt fun hlow => h ?_, ?_, rfl⟩
    · simp only [Feed.look, Watermarks.next, hspeed, if_neg (Nat.not_le.mpr hlow)]
    · simp only [hspeed, Speed.ahead, Speed.other] at hturns
      omega
  | fast =>
    refine Or.inr ⟨rfl, Nat.lt_of_not_le fun hhigh => h ?_, ?_, rfl⟩
    · simp only [Feed.look, Watermarks.next, hspeed, if_neg (Nat.not_lt.mpr hhigh)]
    · simp only [hspeed, Speed.ahead, Speed.other] at hturns
      omega

/-- A change to the fast speed is in force from then on. -/
theorem fast_of_speedUp {e : Event} (h : Course Tick s [e] t) (hup : (s.entry e).speedUps = 1) :
    t.feed.pacer.speed = .fast := by
  have hbooked := booked_ticks h
  have hturns := hbooked.turns
  have hsettings := hbooked.settings
  rw [tally_single] at hturns hsettings
  have hone : (s.entry e).settings ≤ 1 := by
    cases e with
    | call call => cases call <;> simp [entry]
    | packet bytes outcome => rcases outcome with fault | _ | _ | _ <;> exact Nat.zero_le 1
    | boundary => exact Nat.zero_le 1
  cases hspeed : t.feed.pacer.speed with
  | nominal =>
    rw [hspeed, Speed.ahead] at hturns
    omega
  | fast => rfl

theorem stored_of_speedUp {e : Event} (hup : (s.entry e).speedUps = 1) :
    (s.entry e).stored = 0 := by
  cases e with
  | call call => cases call <;> rfl
  | packet bytes outcome =>
    rw [(turns_entry s rfl).1] at hup
    cases hup
  | boundary => rfl

/-! ## The account -/

/-- So much was stored that it covers the changes to the fast speed, with a credit from before. -/
structure Rationed (marks : Watermarks) (credit : Nat) (tally : Tally) (t : Session n) : Prop where
  /-- While playback is nominal, also what waits is covered. -/
  saved : t.feed.pacer.speed = .nominal →
    t.feed.ring.fill + 1 + tally.speedUps * marks.swing ≤ tally.stored + credit
  /-- The last change has found the high mark covered. -/
  paid : 1 ≤ tally.speedUps →
    marks.high + 1 + (tally.speedUps - 1) * marks.swing ≤ tally.stored + credit
  /-- Without a change, the fast speed is from before. -/
  lent : tally.speedUps = 0 → t.feed.pacer.speed = .fast → marks.low ≤ credit

/-- An event that changes no speed. What waits grows by no more than what is stored. -/
theorem Rationed.quiet {entry : Tally} (h : Rationed marks credit tally s)
    (hups : entry.speedUps = 0) (hspeed : t.feed.pacer.speed = s.feed.pacer.speed)
    (hfill : t.feed.ring.fill ≤ s.feed.ring.fill + entry.stored) :
    Rationed marks credit (tally.plus entry) t := by
  have htotal : (tally.plus entry).speedUps = tally.speedUps := by
    rw [Tally.plus, hups, Nat.add_zero]
  refine ⟨fun hnominal => ?_, fun hsome => ?_, fun hnone hfast => ?_⟩
  · have hsaved := h.saved (hspeed ▸ hnominal)
    rw [htotal]
    simp only [Tally.plus]
    omega
  · rw [htotal] at hsome ⊢
    have hpaid := h.paid hsome
    simp only [Tally.plus]
    omega
  · exact h.lent (htotal ▸ hnone) (hspeed ▸ hfast)

/-- A change to the fast speed finds the high mark, and all before it, covered. -/
theorem Rationed.speedUp {entry : Tally} (h : Rationed marks credit tally s)
    (hups : entry.speedUps = 1) (hspeed : s.feed.pacer.speed = .nominal)
    (hfill : marks.high ≤ s.feed.ring.fill) (hfast : t.feed.pacer.speed = .fast) :
    Rationed marks credit (tally.plus entry) t := by
  have htotal : (tally.plus entry).speedUps = tally.speedUps + 1 := by rw [Tally.plus, hups]
  refine ⟨fun hnominal => ?_, fun _ => ?_, fun hnone => ?_⟩
  · rw [hfast] at hnominal
    cases hnominal
  · have hsaved := h.saved hspeed
    rw [htotal, Nat.add_sub_cancel]
    simp only [Tally.plus]
    omega
  · rw [htotal] at hnone
    cases hnone

/-- A change to the nominal speed leaves less than the low mark, and a swing more than that was
covered by the last change to the fast one. -/
theorem Rationed.slowDown {entry : Tally} (h : Rationed marks credit tally s)
    (hmarks : marks.low ≤ marks.high) (hups : entry.speedUps = 0)
    (hspeed : s.feed.pacer.speed = .fast) (hfill : s.feed.ring.fill < marks.low)
    (hnominal : t.feed.pacer.speed = .nominal) (hkept : t.feed.ring.fill = s.feed.ring.fill) :
    Rationed marks credit (tally.plus entry) t := by
  have htotal : (tally.plus entry).speedUps = tally.speedUps := by
    rw [Tally.plus, hups, Nat.add_zero]
  refine ⟨fun _ => ?_, fun hsome => ?_, fun _ hfast => ?_⟩
  · rw [htotal, hkept]
    simp only [Tally.plus]
    cases hcount : tally.speedUps with
    | zero =>
      have hlent := h.lent hcount hspeed
      omega
    | succ count =>
      have hpaid := h.paid (by omega)
      rw [hcount, Nat.add_sub_cancel] at hpaid
      rw [Nat.succ_mul]
      simp only [Watermarks.swing] at hpaid ⊢
      omega
  · rw [htotal] at hsome ⊢
    have hpaid := h.paid hsome
    simp only [Tally.plus]
    omega
  · rw [hnominal] at hfast
    cases hfast

/-- Whatever happens to a stream that plays. -/
theorem Rationed.tick (h : Rationed stream.marks credit tally s)
    (hmarks : stream.marks.low ≤ stream.marks.high) (hstream : s.stream = some stream)
    (tick : Tick s more t) (hconserves : Conserves s (s.tally more) t) :
    Rationed stream.marks credit (tally.plus (s.tally more)) t := by
  have hfill : t.feed.ring.fill ≤ s.feed.ring.fill + (s.tally more).stored := by
    rw [Conserves] at hconserves
    omega
  cases tick with
  | idle hnone arrival =>
    rw [hnone] at hstream
    cases hstream
  | @play stream' events feed hsome step =>
    obtain rfl : stream' = stream := Option.some.inj (hsome.symm.trans hstream)
    cases step with
    | arrive arrival =>
      refine h.quiet (turns_entry s ?_).1 ?_ hfill
      · cases arrival <;> rfl
      · cases arrival <;> rfl
    | look => exact h.quiet rfl rfl hfill
    | send => exact h.quiet rfl rfl hfill
    | change hchange =>
      rcases entry_change hstream hchange with
        ⟨hspeed, hhigh, hups, hfast⟩ | ⟨hspeed, hlow, hups, hnominal⟩
      · exact h.speedUp hups hspeed hhigh hfast
      · exact h.slowDown hmarks hups hspeed hlow hnominal rfl

/-- A course of ticks, from whatever credit it starts with. -/
theorem rationed_ticks (hmarks : stream.marks.low ≤ stream.marks.high)
    (hstream : s.stream = some stream) (hstart : Rationed stream.marks credit .blank s)
    (h : Course Tick s events t) (hreads : Reads past s)
    (hmissed : ∀ before, before <+: past ++ events → Trace.missed before < 65536) :
    Rationed stream.marks credit (s.tally events) t := by
  induction h with
  | refl => exact hstart
  | @tail t u events more hcourse tick ih =>
    rw [← List.append_assoc] at hmissed
    have hmissed' : ∀ before, before <+: past ++ events → Trace.missed before < 65536 :=
      fun before hbefore => hmissed before (hbefore.trans (List.prefix_append _ more))
    have hplays := (stream_ticks hcourse).trans hstream
    obtain ⟨hreads', -⟩ := conserved_ticks hcourse hreads hmissed'
    obtain ⟨-, hconserves⟩ := conserved_tick tick hreads' (hmissed _ (List.prefix_refl _))
    rw [tally_append, through_ticks hcourse]
    exact (ih hmissed').tick hmarks hplays tick hconserves

/-! ## The bytes between changes -/

/-- At any moment of a course from a start at which nothing waits and playback is nominal. -/
theorem paced_ticks (hmarks : stream.marks.low ≤ stream.marks.high)
    (hstream : s.stream = some stream) (hfill : s.feed.ring.fill = 0)
    (hspeed : s.feed.pacer.speed = .nominal) (h : Course Tick s events t) (hreads : Reads past s)
    (hmissed : ∀ before, before <+: past ++ events → Trace.missed before < 65536) :
    (s.tally events).slowDowns ≤ (s.tally events).speedUps
      ∧ (s.tally events).speedUps ≤ (s.tally events).slowDowns + 1
      ∧ (1 ≤ (s.tally events).speedUps →
        stream.marks.high + ((s.tally events).speedUps - 1) * stream.marks.swing
          ≤ (s.tally events).stored) := by
  have hstart : Rationed stream.marks 1 .blank s := by
    refine ⟨fun _ => ?_, nofun, fun _ hfast => ?_⟩
    · rw [hfill]
      simp [Tally.blank]
    · rw [hspeed] at hfast
      cases hfast
  have hrationed := rationed_ticks hmarks hstream hstart h hreads hmissed
  have hturns := (booked_ticks h).turns
  rw [hspeed, show Speed.nominal.ahead = 0 from rfl] at hturns
  have hahead : t.feed.pacer.speed.ahead ≤ 1 := by
    cases t.feed.pacer.speed <;> decide
  refine ⟨by omega, by omega, fun hsome => ?_⟩
  have hpaid := hrationed.paid hsome
  omega

/-- From one change to the fast speed to another, a swing is stored. -/
theorem swing_le_stored {u : Session n} {first second : Event} {between : List Event}
    (hmarks : stream.marks.low ≤ stream.marks.high) (hstream : t.stream = some stream)
    (hfirst : Course Tick s [first] t) (hup : (s.entry first).speedUps = 1)
    (hbetween : Course Tick t (between ++ [second]) u)
    (hup' : ((t.through between).entry second).speedUps = 1) (hreads : Reads past t)
    (hmissed : ∀ before, before <+: past ++ (between ++ [second]) →
      Trace.missed before < 65536) :
    stream.marks.swing ≤ (t.tally between).stored := by
  have hfast := fast_of_speedUp hfirst hup
  have hstart : Rationed stream.marks stream.marks.low .blank t := by
    refine ⟨fun hnominal => ?_, nofun, fun _ _ => Nat.le_refl _⟩
    rw [hfast] at hnominal
    cases hnominal
  have hrationed := rationed_ticks hmarks hstream hstart hbetween hreads hmissed
  have htally := t.tally_append between [second]
  rw [tally_single] at htally
  have hpaid := hrationed.paid (by rw [htally, Tally.plus, hup']; exact Nat.le_add_left _ _)
  have hstored : (t.tally (between ++ [second])).stored = (t.tally between).stored := by
    rw [htally, Tally.plus, stored_of_speedUp hup', Nat.add_zero]
  rw [hstored] at hpaid
  rw [Watermarks.swing]
  omega

/-! ## At any moment since a switch -/

variable {played stopped : List Event} {last : Session n} {operations later : List Operation}

/-- The changes of speed up to any event since a switch, be it before a stop or after. -/
theorem Outset.paced (h : start.Outset stream) (hcourse : Course Tick start played last)
    (hinert : ∀ e ∈ stopped, e.inert = true)
    (hmissed : ∀ before, before <+: played ++ stopped → Trace.missed before < 65536)
    (hpast : past <+: played ++ stopped) :
    (start.tally past).slowDowns ≤ (start.tally past).speedUps
      ∧ (start.tally past).speedUps ≤ (start.tally past).slowDowns + 1
      ∧ (1 ≤ (start.tally past).speedUps →
        stream.marks.high + ((start.tally past).speedUps - 1) * stream.marks.swing
          ≤ (start.tally past).stored) := by
  have hplayed : ∀ front u, Course Tick start front u → front <+: played ++ stopped → _ :=
    fun front u hfront hprefix => paced_ticks h.low_le_high h.plays h.fill h.speed hfront h.reads
      fun before hbefore => hmissed before (hbefore.trans hprefix)
  obtain ⟨rest, hrest⟩ := hpast
  rcases List.append_eq_append_iff.mp hrest with ⟨more, hmore, -⟩ | ⟨more, rfl, hmore⟩
  · obtain ⟨middle, hbefore, -⟩ := hcourse.split (fun _ _ _ => event_of_tick) hmore
    exact hplayed past middle hbefore ⟨rest, hrest⟩
  · have hquiet : ∀ e ∈ more, e.inert = true := fun e he =>
      hinert e (hmore ▸ List.mem_append_left rest he)
    obtain ⟨hstored, hups, hdowns⟩ := tally_append_inert start played hquiet
    rw [hstored, hups, hdowns]
    exact hplayed played last hcourse (List.prefix_append _ _)

/-- From one change to the fast speed since a switch to another. -/
theorem Outset.swing_le (h : start.Outset stream) (hcourse : Course Tick start played last)
    (hinert : ∀ e ∈ stopped, e.inert = true)
    (hmissed : ∀ before, before <+: played ++ stopped → Trace.missed before < 65536)
    {first second : Event} {between rest : List Event}
    (hevents : played ++ stopped = past ++ first :: between ++ second :: rest)
    (hup : ((start.through past).entry first).speedUps = 1)
    (hup' : ((start.through (past ++ first :: between)).entry second).speedUps = 1) :
    stream.marks.swing ≤ ((start.through (past ++ [first])).tally between).stored := by
  rcases Trace.eq_append_cons hevents with ⟨more, hplayed, -⟩ | ⟨more, -, hidle⟩
  · have hparts : played = past ++ ([first] ++ ((between ++ [second]) ++ more)) := by
      rw [hplayed]
      simp
    obtain ⟨before, hpast, hlater⟩ := hcourse.split (fun _ _ _ => event_of_tick) hparts
    obtain ⟨fast, hfirst, hlater⟩ := hlater.split (fun _ _ _ => event_of_tick) rfl
    obtain ⟨after, hbetween, -⟩ := hlater.split (fun _ _ _ => event_of_tick) rfl
    have hthrough : start.through (past ++ [first]) = fast := through_ticks (hpast.trans hfirst)
    have hthrough' : start.through (past ++ first :: between) = fast.through between := by
      rw [← hthrough, ← through_append, List.append_assoc]
      rfl
    rw [through_ticks hpast] at hup
    rw [hthrough'] at hup'
    rw [hthrough]
    have hmissed' : ∀ before, before <+: (past ++ [first]) ++ (between ++ [second]) →
        Trace.missed before < 65536 := by
      intro before hbefore
      refine hmissed before (hbefore.trans ⟨more ++ stopped, ?_⟩)
      rw [hparts]
      simp
    have hreads := (conserved_ticks (hpast.trans hfirst) h.reads fun before hbefore =>
      hmissed' before (hbefore.trans (List.prefix_append _ _))).1
    exact swing_le_stored h.low_le_high ((stream_ticks (hpast.trans hfirst)).trans h.plays) hfirst
      hup hbetween hup' hreads hmissed'
  · have hquiet := hinert second (hidle ▸ List.mem_append_right more List.mem_cons_self)
    rw [(entry_inert _ hquiet).2.1] at hup'
    cases hup'

/-- Of a run, `later` is what comes after the last granted switch, and fewer than 65536 flushes in
a row come in it without a frame being taken. Then at any moment of it, also in the middle of an
operation: the changes to the fast speed outnumber the changes back by one at most, and `k` of them
take `k - 1` swings and the high mark in bytes that were stored since the switch. A swing is more
than a quarter of the capacity, and that much is stored between any two changes to the fast
speed. After a stop neither bytes nor changes are entered. -/
theorem speed_ups_paced (hsince : s.SinceSwitch operations start later)
    (hmissed : ∀ past, past <+: start.events later → Trace.missed past < 65536) :
    ∃ stream, start.stream = some stream
      ∧ stream.marks = Watermarks.ofCapacity stream.capacity
      ∧ start.feed.ring.capacity = max 1 stream.capacity
      ∧ stream.capacity ≤ 4 * (stream.marks.high - stream.marks.low)
      ∧ (start.after later).status.speedUps
        = start.status.speedUps + UInt32.ofNat (start.tally (start.events later)).speedUps
      ∧ (start.after later).status.slowDowns
        = start.status.slowDowns + UInt32.ofNat (start.tally (start.events later)).slowDowns
      ∧ (∀ past, past <+: start.events later →
        (start.tally past).slowDowns ≤ (start.tally past).speedUps
          ∧ (start.tally past).speedUps ≤ (start.tally past).slowDowns + 1
          ∧ (1 ≤ (start.tally past).speedUps →
            stream.marks.high
                + ((start.tally past).speedUps - 1) * (stream.marks.high - stream.marks.low + 1)
              ≤ (start.tally past).stored))
      ∧ ∀ past first between second rest,
        start.events later = past ++ first :: between ++ second :: rest →
        ((start.through past).entry first).speedUps = 1 →
        ((start.through (past ++ first :: between)).entry second).speedUps = 1 →
        let since := (start.through (past ++ [first])).tally between
        stream.marks.high - stream.marks.low + 1 ≤ since.stored
          ∧ stream.capacity < 4 * since.stored := by
  obtain ⟨stream, houtset, played, stopped, last, hevents, hticks, hinert, hpacer⟩ :=
    ticks_since hsince
  have hquarter := Watermarks.capacity_le stream.capacity
  rw [← houtset.marks] at hquarter
  have hbooked := booked_ticks hticks
  obtain ⟨-, hups, hdowns⟩ := tally_append_inert start played hinert
  rw [hevents] at hmissed ⊢
  rw [hups, hdowns]
  refine ⟨stream, houtset.plays, houtset.marks, houtset.capacity, hquarter, ?_, ?_,
    fun past hpast => houtset.paced hticks hinert hmissed hpast,
    fun past first between second rest hparts hup hup' => ?_⟩
  · exact (congrArg Pacer.speedUps hpacer).trans hbooked.speedUps
  · exact (congrArg Pacer.slowDowns hpacer).trans hbooked.slowDowns
  · have hswing := houtset.swing_le hticks hinert hmissed hparts hup hup'
    refine ⟨hswing, ?_⟩
    show stream.capacity < 4 * ((start.through (past ++ [first])).tally between).stored
    rw [Watermarks.swing] at hswing
    omega

/-- A ring of 16 bytes, with the marks at ten and six. A packet of ten bytes in the last call of a
refill makes playback fast, the next refill leaves two bytes and makes it nominal again, and a
packet of eight bytes makes it fast a second time, three bytes above what it takes. -/
theorem speed_ups_paced_twice :
    let table : RateTable := ⟨[(48000, some ⟨5, ⟨3, 7⟩, ⟨4, 9⟩⟩)], 204000000, .stereo16⟩
    let later : List Operation :=
      [.transmit 4 [[], [], [], [], [.packet (List.replicate 10 1)]], .transmit 4 [],
        .transmit 4 [[], [], [], [], [.packet (List.replicate 8 2)]]]
    let start := (idle table 16 (Nat.succ_pos 15)).after [.switchTo 48000]
    (idle table 16 (Nat.succ_pos 15)).SinceSwitch (.switchTo 48000 :: later) start later
      ∧ (∀ past, past <+: start.events later → Trace.missed past < 65536)
      ∧ (start.tally (start.events later)).speedUps = 2
      ∧ (start.tally (start.events later)).slowDowns = 1
      ∧ (start.tally (start.events later)).stored = 18
      ∧ (start.after later).status.speedUps = 2
      ∧ ∃ stream, start.stream = some stream ∧ stream.marks = ⟨10, 6⟩
        ∧ stream.marks.high + (2 - 1) * (stream.marks.high - stream.marks.low + 1) ≤ 18 := by
  intro table later start
  have hsince : (idle table 16 (Nat.succ_pos 15)).SinceSwitch (.switchTo 48000 :: later) start
      later := by
    refine ⟨[], .switchTo 48000, 48000, rfl, ⟨rfl, rfl⟩, rfl, ?_⟩
    intro between next rest heq rate
    have hmem : next ∈ later := by simp [heq]
    simp only [later, List.mem_cons, List.not_mem_nil, or_false] at hmem
    rcases hmem with rfl | rfl | rfl <;> exact not_switches_of_rate? rfl rate
  have hlength : (start.events later).length = 20 := by decide +kernel
  have hmissed : ∀ past, past <+: start.events later → Trace.missed past < 65536 := by
    intro past hpast
    have hle := hpast.length_le
    have hcount := Trace.missed_le_length past
    omega
  have hups : (start.tally (start.events later)).speedUps = 2 := by decide +kernel
  have hstored : (start.tally (start.events later)).stored = 18 := by decide +kernel
  obtain ⟨stream, hstream, hmarks, -, -, hcounter, -, hpaced, -⟩ :=
    speed_ups_paced hsince hmissed
  obtain ⟨-, -, hpaid⟩ := hpaced _ (List.prefix_refl _)
  have hcapacity : start.stream.map Stream.capacity = some 16 := by decide +kernel
  rw [hstream] at hcapacity
  have hten : stream.marks = ⟨10, 6⟩ := by
    rw [hmarks, Option.some.inj hcapacity]
    rfl
  rw [hups] at hpaid hcounter
  rw [hstored] at hpaid
  exact ⟨hsince, hmissed, hups, by decide +kernel, hstored, hcounter, stream, hstream, hten,
    hpaid (by decide)⟩

end Session

end PacedAudio
