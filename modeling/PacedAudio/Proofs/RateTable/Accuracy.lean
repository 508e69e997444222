/-
# PacedAudio.Proofs.RateTable.Accuracy — how close the speeds of a table come to its rates

Every rate that a table can play is high enough for its share of the peripheral clock not to be
tiny (`Chosen.share_ge`). So what is proved of the ratios of a found divider holds of every entry,
for every peripheral clock: the two speeds lie on either side of the rate that was searched
(`speeds_bracket_rate`), the nominal one within a hundredth. The fast one is within a hundredth
exactly if its ratio does not overstep (`fast_within_hundredth_iff`), and on the LPC43xx it does, at
8000 Hz.
-/

import PacedAudio.Proofs.Divider.Supply
import PacedAudio.Proofs.RateTable.Entries

namespace PacedAudio

/-! ## From what is supplied to a sample rate -/

namespace Divider

variable {divider : Divider} {clock : UInt32} {format : PcmFormat} {speed : Speed} {rate : Nat}

/-- The products that a rate in thousandths of a hertz is the quotient of. -/
theorem divisor_pos (divider : Divider) (speed : Speed) (hclocks : 0 < format.clocksPerFrame)
    (hpos : 0 < (divider.ratio speed).denominator.toNat) :
    0 < (divider.ratio speed).denominator.toNat * divider.stages * format.clocksPerFrame :=
  Nat.mul_pos (Nat.mul_pos hpos divider.stages_pos) hclocks

/-- A ratio that supplies so many thousandths of the master clock of a rate produces so many
thousandths of the rate. -/
theorem millihertz_of_supplies (speed : Speed) {low high : Nat}
    (hclocks : 0 < format.clocksPerFrame)
    (h : (divider.ratio speed).Supplies low high (rate * format.clocksPerFrame) clock.toNat
      divider.stages) :
    low * rate ≤ divider.millihertz clock format speed
      ∧ divider.millihertz clock format speed ≤ high * rate := by
  have hdivisor := divisor_pos divider speed hclocks h.pos
  constructor
  · rw [millihertz, Nat.le_div_iff_mul_le hdivisor]
    calc low * rate
          * ((divider.ratio speed).denominator.toNat * divider.stages * format.clocksPerFrame)
        = low * ((divider.ratio speed).denominator.toNat * (rate * format.clocksPerFrame)
          * divider.stages) := by ring
      _ ≤ 1000 * (clock.toNat * (divider.ratio speed).numerator.toNat) := h.atLeast
      _ = clock.toNat * (divider.ratio speed).numerator.toNat * 1000 := Nat.mul_comm _ _
  · refine Nat.div_le_of_le_mul ?_
    calc clock.toNat * (divider.ratio speed).numerator.toNat * 1000
        = 1000 * (clock.toNat * (divider.ratio speed).numerator.toNat) := Nat.mul_comm _ _
      _ ≤ high * ((divider.ratio speed).denominator.toNat * (rate * format.clocksPerFrame)
          * divider.stages) := h.atMost
      _ = (divider.ratio speed).denominator.toNat * divider.stages * format.clocksPerFrame
          * (high * rate) := by ring

/-- What a ratio supplies too much by several times the peripheral clock is too much also in whole
thousandths of a hertz. -/
theorem lt_millihertz (hclocks : 0 < format.clocksPerFrame)
    (hpos : 0 < (divider.ratio speed).denominator.toNat) (hrate : 255 ≤ rate)
    (hbelow : divider.stages * (rate * format.clocksPerFrame) < clock.toNat)
    (hbeyond : 1010 * ((divider.ratio speed).denominator.toNat * (rate * format.clocksPerFrame)
        * divider.stages) + 6 * clock.toNat
      ≤ 1000 * (clock.toNat * (divider.ratio speed).numerator.toNat)) :
    1010 * rate < divider.millihertz clock format speed := by
  have hbyte : (divider.ratio speed).denominator.toNat ≤ rate :=
    Nat.le_trans (Nat.le_of_lt_succ (divider.ratio speed).denominator.toNat_lt) hrate
  have hdivisor : (divider.ratio speed).denominator.toNat * divider.stages * format.clocksPerFrame
      ≤ clock.toNat :=
    calc (divider.ratio speed).denominator.toNat * divider.stages * format.clocksPerFrame
        ≤ rate * divider.stages * format.clocksPerFrame :=
          Nat.mul_le_mul_right _ (Nat.mul_le_mul_right _ hbyte)
      _ = divider.stages * (rate * format.clocksPerFrame) := by ring
      _ ≤ clock.toNat := Nat.le_of_lt hbelow
  rw [millihertz, ← Nat.succ_le_iff, Nat.le_div_iff_mul_le (divisor_pos divider speed hclocks hpos)]
  calc (1010 * rate + 1)
        * ((divider.ratio speed).denominator.toNat * divider.stages * format.clocksPerFrame)
      = 1010 * ((divider.ratio speed).denominator.toNat * (rate * format.clocksPerFrame)
          * divider.stages)
        + (divider.ratio speed).denominator.toNat * divider.stages * format.clocksPerFrame := by
          ring
    _ ≤ 1000 * (clock.toNat * (divider.ratio speed).numerator.toNat) := by omega
    _ = clock.toNat * (divider.ratio speed).numerator.toNat * 1000 := Nat.mul_comm _ _

/-! ## The share of a rate that can be played -/

variable {base clock stages share : Nat}

/-- A master clock of half a megahertz has a share of at least 500. With fewer stages than there can
be, one more would take the whole clock, so the share is even half of one. -/
theorem Chosen.share_ge (h : Chosen base clock stages share) (hword : clock < Word.bound 32)
    (hbase : 512000 ≤ base) : 500 ≤ share := by
  have hclock : 0 < clock := Nat.zero_lt_of_lt h.below
  rw [h.share_eq, Nat.le_div_iff_mul_le hclock]
  rcases Nat.lt_or_ge stages maxStages with hfewer | hall
  · have hmore : clock ≤ (stages + 1) * base := by
      refine Nat.le_of_not_lt fun hbelow => ?_
      have hmost := h.most (stages + 1) hfewer hbelow
      omega
    have hdouble : base ≤ stages * base := Nat.le_mul_of_pos_left base h.pos
    rw [Nat.succ_mul] at hmore
    calc 500 * clock
        ≤ 500 * (2 * (stages * base)) := Nat.mul_le_mul_left 500 (by omega)
      _ = 1000 * (stages * base) := by ring
      _ ≤ unity * (stages * base) := Nat.mul_le_mul_right _ (by decide)
      _ = base * unity * stages := by ring
  · calc 500 * clock
        ≤ 500 * Word.bound 32 := Nat.mul_le_mul_left 500 (Nat.le_of_lt hword)
      _ ≤ 512000 * unity * maxStages := by decide
      _ ≤ base * unity * stages :=
        Nat.mul_le_mul (Nat.mul_le_mul_right unity hbase) hall

end Divider

/-! ## The entries of a table -/

/-- The rate that a table searches a divider for: the two highest rates have the trim added. -/
def ReferenceClock.searched (clock : ReferenceClock) (rate : UInt32) : Nat :=
  if rate = 44100 ∨ rate = 48000 then rate.toNat + clock.trim.toNat else rate.toNat

namespace RateTable

variable {clock : ReferenceClock} {format : PcmFormat} {table : RateTable} {rate target : UInt32}
  {divider : Divider}

theorem mem_trimmedRates : rate ∈ ReferenceClock.trimmedRates ↔ rate = 44100 ∨ rate = 48000 := by
  simp only [ReferenceClock.trimmedRates, List.mem_cons, List.not_mem_nil, or_false]

theorem toNat_target (h : clock.target rate = .ok target) :
    target.toNat = clock.searched rate := by
  rw [ReferenceClock.target] at h
  rw [ReferenceClock.searched]
  split at h
  · next htrimmed =>
    rw [if_pos (mem_trimmedRates.mp htrimmed)]
    rw [Word.add] at h
    split at h
    · next hfits =>
      cases h
      rw [UInt32.toNat_ofNat']
      exact Nat.mod_eq_of_lt hfits
    · cases h
  · next huntrimmed =>
    cases h
    rw [if_neg (mt mem_trimmedRates.mpr huntrimmed)]

theorem le_searched (clock : ReferenceClock) (h : rate ∈ listedRates) :
    8000 ≤ clock.searched rate := by
  have hlisted : 8000 ≤ rate.toNat := by
    simp only [listedRates, List.mem_cons, List.not_mem_nil, or_false] at h
    rcases h with rfl | rfl | rfl | rfl | rfl | rfl | rfl <;> decide
  rw [ReferenceClock.searched]
  split
  · exact Nat.le_add_right_of_le hlisted
  · exact hlisted

/-- The divider of an entry is what the search has found for the searched rate, and its share is not
tiny. -/
theorem found_of_find? (h : build clock format = .ok table)
    (hfind : table.find? rate = some divider) :
    8000 ≤ clock.searched rate ∧ 0 < format.clocksPerFrame
      ∧ ∃ stages share, Divider.Chosen (clock.searched rate * format.clocksPerFrame)
          clock.hertz.toNat stages share
        ∧ 500 ≤ share
        ∧ Divider.found? (clock.searched rate * format.clocksPerFrame) clock.hertz.toNat stages
          share = some divider := by
  obtain ⟨hbytes, -, hlisted, hentry⟩ := entryFor_of_find? h hfind
  have hclocks : 64 ≤ format.clocksPerFrame := by
    rw [PcmFormat.bytesPerFrame, playedFrameBytes] at hbytes
    rw [PcmFormat.clocksPerFrame]
    omega
  have hrate := le_searched clock hlisted
  refine ⟨hrate, Nat.lt_of_lt_of_le (by decide) hclocks, ?_⟩
  rw [entryFor] at hentry
  split at hentry
  · cases hentry
  · obtain ⟨target, htarget, hsearch⟩ := Checked.bind_eq_ok.mp hentry
    obtain ⟨found, hfound, hmade⟩ := Checked.bind_eq_ok.mp hsearch
    cases hmade
    have hbase : Divider.masterClock target format
        = clock.searched rate * format.clocksPerFrame := by
      rw [Divider.masterClock, toNat_target htarget]
    obtain ⟨share, -, hchosen, hsame⟩ := Divider.found?_of_find? hfound
    rw [hbase] at hchosen hsame
    refine ⟨divider.stages, share, hchosen, hchosen.share_ge clock.hertz.toNat_lt ?_, hsame⟩
    exact Nat.mul_le_mul hrate hclocks

/-- For every peripheral clock, trim and format, and every rate that the table can play: the fast
speed is not slower than the nominal one. If they differ, the rate that was searched lies between
them. And the nominal speed is from a hundredth below that rate to a fifth of a hundredth above
it. -/
theorem speeds_bracket_rate (h : build clock format = .ok table)
    (hfind : table.find? rate = some divider) :
    let searched := clock.searched rate
    let nominal := divider.millihertz clock.hertz format .nominal
    let fast := divider.millihertz clock.hertz format .fast
    nominal ≤ fast
      ∧ (divider.nominal ≠ divider.fast → nominal ≤ 1000 * searched ∧ 1000 * searched ≤ fast)
      ∧ 990 * searched ≤ nominal ∧ nominal ≤ 1002 * searched := by
  obtain ⟨-, hclocks, stages, share, hchosen, hlow, hfound⟩ := found_of_find? h hfind
  intro searched nominal fast
  rcases Divider.supplies_of_found? hchosen hlow hfound with ⟨hsame, honly⟩ | ⟨hdown, hup⟩
  · obtain ⟨hatLeast, hatMost⟩ := Divider.millihertz_of_supplies .nominal hclocks honly
    have hspeeds : nominal = fast := by
      simp only [nominal, fast, Divider.millihertz, Divider.ratio, hsame]
    exact ⟨Nat.le_of_eq hspeeds, fun hdiffer => absurd hsame hdiffer, hatLeast, hatMost⟩
  · obtain ⟨hatLeast, hbelow⟩ := Divider.millihertz_of_supplies .nominal hclocks hdown
    obtain ⟨habove, -⟩ := Divider.millihertz_of_supplies .fast hclocks hup
    exact ⟨Nat.le_trans hbelow habove, fun _ => ⟨hbelow, habove⟩, hatLeast,
      Nat.le_trans hbelow (Nat.mul_le_mul_right searched (by decide))⟩

/-- What the LPC43xx can play, in sixteen-bit stereo. -/
def lpc43xx : RateTable where
  entries :=
    [(8000, some ⟨0x3F, ⟨0x16, 0x89⟩, ⟨0x20, 0xC1⟩⟩),
      (11025, some ⟨0x3F, ⟨0x38, 0xFD⟩, ⟨0x1D, 0x83⟩⟩),
      (16000, none),
      (22050, some ⟨0x3F, ⟨0x55, 0xC0⟩, ⟨0x3A, 0x83⟩⟩),
      (32000, none),
      (44100, some ⟨0x3F, ⟨0xC9, 0xE3⟩, ⟨0x74, 0x83⟩⟩),
      (48000, some ⟨0x3F, ⟨0x85, 0x8A⟩, ⟨0xD5, 0xDD⟩⟩)]
  clock := 204000000
  format := .stereo16

theorem build_lpc43xx : build .lpc43xx .stereo16 = .ok lpc43xx := by
  have hsome : (build .lpc43xx .stereo16).toOption = some lpc43xx := by decide +kernel
  cases hbuild : build .lpc43xx .stereo16 with
  | error fault =>
    rw [hbuild] at hsome
    cases hsome
  | ok table =>
    rw [hbuild] at hsome
    cases hsome
    rfl

/-- The LPC43xx searches 44101 Hz for the rate of 44100 Hz. -/
theorem speeds_bracket_rate_lpc43xx :
    build .lpc43xx .stereo16 = .ok lpc43xx
      ∧ ∃ divider, lpc43xx.find? 44100 = some divider
        ∧ divider.nominal ≠ divider.fast
        ∧ ReferenceClock.lpc43xx.searched 44100 = 44101
        ∧ divider.millihertz 204000000 .stereo16 .nominal ≤ 1000 * 44101
        ∧ 1000 * 44101 ≤ divider.millihertz 204000000 .stereo16 .fast
        ∧ 990 * 44101 ≤ divider.millihertz 204000000 .stereo16 .nominal := by
  refine ⟨build_lpc43xx, _, rfl, by decide, by decide, ?_⟩
  obtain ⟨-, hbetween, hclose, -⟩ :=
    speeds_bracket_rate build_lpc43xx (show lpc43xx.find? 44100 = some _ from rfl)
  exact ⟨(hbetween (by decide)).1, (hbetween (by decide)).2, hclose⟩

/-- The fast speed is at most a hundredth above the rate that was searched, unless the numerator of
its ratio oversteps: the search has ranked the denominators by approximate multiples, and the exact
multiple of the chosen one is just past the next whole number. Then the fast speed is above that,
and at most twice the rate. -/
theorem fast_within_hundredth_iff (h : build clock format = .ok table)
    (hfind : table.find? rate = some divider) :
    let searched := clock.searched rate
    let fast := divider.millihertz clock.hertz format .fast
    (fast ≤ 1010 * searched
        ↔ ¬ Divider.Oversteps (searched * format.clocksPerFrame) clock.hertz.toNat divider)
      ∧ fast ≤ 2000 * searched := by
  obtain ⟨hrate, hclocks, stages, share, hchosen, hlow, hfound⟩ := found_of_find? h hfind
  intro searched fast
  have hdouble : divider.fast.Supplies 990 2000 (searched * format.clocksPerFrame)
      clock.hertz.toNat divider.stages := by
    rcases Divider.supplies_of_found? hchosen hlow hfound with ⟨hsame, honly⟩ | ⟨-, hup⟩
    · exact (hsame ▸ honly).mono (Nat.le_refl _) (by decide)
    · exact hup.mono (by decide) (Nat.le_refl _)
  refine ⟨⟨fun hwithin hover => ?_, fun hnear => ?_⟩, ?_⟩
  · have hstages : divider.stages = stages := (Divider.found?_cases hchosen hfound).1
    refine Nat.not_lt.mpr hwithin (Divider.lt_millihertz hclocks hdouble.pos
      (Nat.le_trans (by decide) hrate) ?_ (Divider.beyond_of_oversteps hchosen hlow hfound hover))
    rw [hstages]
    exact hchosen.below
  · exact (Divider.millihertz_of_supplies .fast hclocks
      (Divider.supplies_fast_of_found? hchosen hlow hfound hnear)).2
  · exact (Divider.millihertz_of_supplies .fast hclocks hdouble).2

/-- At 22050 Hz the LPC43xx does not overstep. -/
theorem fast_within_hundredth_iff_lpc43xx :
    build .lpc43xx .stereo16 = .ok lpc43xx
      ∧ ∃ divider, lpc43xx.find? 22050 = some divider
        ∧ ¬ Divider.Oversteps (22050 * 64) 204000000 divider
        ∧ divider.millihertz 204000000 .stereo16 .fast ≤ 1010 * 22050 := by
  refine ⟨build_lpc43xx, _, rfl, by decide, ?_⟩
  obtain ⟨hwithin, -⟩ :=
    fast_within_hundredth_iff build_lpc43xx (show lpc43xx.find? 22050 = some _ from rfl)
  exact hwithin.mpr (by decide)

/-- At 8000 Hz it does: the denominator 193 was chosen to go with the numerator 31, and gets 32. The
fast speed is three hundredths above the rate. -/
theorem not_fast_within_hundredth_lpc43xx :
    ¬ ∀ (clock : ReferenceClock) (format : PcmFormat) (table : RateTable) (rate : UInt32)
        (divider : Divider), build clock format = .ok table → table.find? rate = some divider →
      divider.millihertz clock.hertz format .fast ≤ 1010 * clock.searched rate := by
  intro hall
  have hwithin := hall .lpc43xx .stereo16 lpc43xx 8000 _ build_lpc43xx rfl
  exact absurd hwithin (by decide)

end RateTable

end PacedAudio
