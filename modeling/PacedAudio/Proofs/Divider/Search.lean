/-
# PacedAudio.Proofs.Divider.Search — which rates have a divider

The share of a master clock is computed in words of 64 bits, and a stage count for which they do not
suffice is passed over. Nothing is lost by that: such a multiple of the master clock is far above
any peripheral clock. So the stage count that is chosen is the greatest whose multiple stays below
the peripheral clock (`Chosen`), and with it every later product fits. The search meets no fault,
and a rate has a divider exactly if its master clock is positive and below the peripheral clock
(`accepts_realisable_rates`).
-/

import Mathlib.Data.List.Basic
import Mathlib.Order.Bounds.Basic
import Mathlib.Tactic.Ring
import PacedAudio.Proofs.Divider.Closest

namespace PacedAudio.Divider

variable {base clock stages share : Nat} {c : Candidate}

/-! ## The number of stages -/

/-- What is known of a stage count that is chosen, and of its share. -/
structure Chosen (base clock stages share : Nat) : Prop where
  pos : 1 ≤ stages
  le : stages ≤ maxStages
  below : stages * base < clock
  most : ∀ more, more ≤ maxStages → more * base < clock → more ≤ stages
  share_eq : share = base * unity * stages / clock

theorem share?_of_lt (hpos : 1 ≤ stages) (h : base * unity * stages < Word.bound 64) :
    share? base clock stages = some (base * unity * stages / clock) := by
  have hscaled : base * unity < Word.bound 64 :=
    Nat.lt_of_le_of_lt (Nat.le_mul_of_pos_right _ hpos) h
  rw [share?, Word.mul_of_lt hscaled, Except.toOption, Option.bind_eq_bind, Option.bind_some,
    Word.mul_of_lt h]
  rfl

theorem eq_of_share? (h : share? base clock stages = some share) :
    share = base * unity * stages / clock := by
  rw [share?] at h
  obtain ⟨scaled, hscaled, h⟩ := Option.bind_eq_some_iff.mp h
  obtain ⟨total, htotal, h⟩ := Option.bind_eq_some_iff.mp h
  cases h
  rw [Word.mul] at hscaled
  split at hscaled
  · cases hscaled
    rw [Word.mul] at htotal
    split at htotal
    · cases htotal
      rfl
    · cases htotal
  · cases hscaled

/-- A share is below one exactly if the multiple of the master clock is below the peripheral
clock. -/
theorem share_lt_unity_iff (hclock : 0 < clock) :
    base * unity * stages / clock < unity ↔ stages * base < clock := by
  rw [Nat.div_lt_iff_lt_mul hclock, show base * unity * stages = unity * (stages * base) by ring]
  exact Nat.mul_lt_mul_left (by decide)

/-- A stage count is passed over, for whichever reason, exactly if the multiple of the master clock
is not below the peripheral clock. -/
theorem share?_filtered (hclock : 0 < clock) (hword : clock < Word.bound 32) (hpos : 1 ≤ stages) :
    (match share? base clock stages with
      | some share => if share < unity then some (stages, share) else none
      | none => none)
      = if stages * base < clock then some (stages, base * unity * stages / clock) else none := by
  by_cases hbelow : stages * base < clock
  · have hfits : base * unity * stages < Word.bound 64 :=
      calc base * unity * stages
          = unity * (stages * base) := by ring
        _ < unity * Word.bound 32 :=
          Nat.mul_lt_mul_of_pos_left (Nat.lt_trans hbelow hword) (by decide)
        _ ≤ Word.bound 64 := by decide
    simp only [share?_of_lt hpos hfits, if_pos ((share_lt_unity_iff hclock).mpr hbelow),
      if_pos hbelow]
  · rw [if_neg hbelow]
    split
    · next share hshare =>
      rw [eq_of_share? hshare, if_neg (mt (share_lt_unity_iff hclock).mp hbelow)]
    · rfl

theorem chooseStages?_eq (hclock : 0 < clock) (hword : clock < Word.bound 32) :
    chooseStages? base clock = stageCounts.findSome? fun stages =>
      if stages * base < clock then some (stages, base * unity * stages / clock) else none := by
  rw [chooseStages?, ← List.head?_filterMap, ← List.head?_filterMap]
  congr 1
  refine List.filterMap_congr fun stages hmem => ?_
  exact share?_filtered hclock hword (mem_stageCounts.mp hmem).1

/-- The stage counts stand in the order of preference. -/
theorem stageCounts_descend : stageCounts.Pairwise fun earlier later => later < earlier := by
  rw [stageCounts, List.pairwise_reverse]
  exact List.pairwise_lt_range'

/-- Of a master clock below the peripheral clock some multiple is below it too, and the greatest is
chosen. -/
theorem chooseStages?_of_lt (hword : clock < Word.bound 32) (h : base < clock) :
    ∃ stages share, chooseStages? base clock = some (stages, share)
      ∧ Chosen base clock stages share := by
  have hclock : 0 < clock := Nat.zero_lt_of_lt h
  have hsome : (chooseStages? base clock).isSome := by
    rw [chooseStages?_eq hclock hword, List.findSome?_isSome_iff]
    refine ⟨1, mem_stageCounts.mpr (by decide), ?_⟩
    rw [Nat.one_mul, if_pos h]
    rfl
  obtain ⟨⟨stages, share⟩, hchosen⟩ := Option.isSome_iff_exists.mp hsome
  refine ⟨stages, share, hchosen, ?_⟩
  rw [chooseStages?_eq hclock hword] at hchosen
  obtain ⟨before, count, later, hlist, hcount, hbefore⟩ := List.findSome?_eq_some_iff.mp hchosen
  have hmem : count ∈ stageCounts := by simp [hlist]
  obtain ⟨hpos, hle⟩ := mem_stageCounts.mp hmem
  split at hcount
  · next hbelow =>
    cases hcount
    refine ⟨hpos, hle, hbelow, fun more hmore hmorebelow => ?_, rfl⟩
    rcases Nat.eq_zero_or_pos more with rfl | hmorepos
    · exact Nat.zero_le _
    · -- A count before the chosen one has been passed over, and those after it are smaller.
      have hdescend := stageCounts_descend
      have hmoremem : more ∈ stageCounts := mem_stageCounts.mpr ⟨hmorepos, hmore⟩
      rw [hlist] at hdescend hmoremem
      rcases List.mem_append.mp hmoremem with hearlier | hrest
      · have hnone := hbefore more hearlier
        rw [if_pos hmorebelow] at hnone
        cases hnone
      · rcases List.mem_cons.mp hrest with rfl | hlater
        · exact Nat.le_refl _
        · exact Nat.le_of_lt
            (List.rel_of_pairwise_cons (List.pairwise_append.mp hdescend).2.1 hlater)
  · cases hcount

/-- No multiple of any other master clock is. -/
theorem chooseStages?_of_le (hclock : 0 < clock) (hword : clock < Word.bound 32)
    (h : clock ≤ base) : chooseStages? base clock = none := by
  rw [chooseStages?_eq hclock hword, List.findSome?_eq_none_iff]
  intro stages hmem
  have hpos := (mem_stageCounts.mp hmem).1
  exact if_neg (Nat.not_lt.mpr (Nat.le_trans h (Nat.le_mul_of_pos_left base hpos)))

theorem Chosen.share_lt (h : Chosen base clock stages share) : share < unity := by
  rw [h.share_eq]
  exact (share_lt_unity_iff (Nat.zero_lt_of_lt h.below)).mpr h.below

/-! ## The ratios -/

/-- The ratio that rounds the exact share down, with a numerator of at least one. -/
def roundedDown (base clock stages : Nat) (c : Candidate) : Ratio :=
  ⟨numeratorByte (c.denominator * base * stages / clock), UInt8.ofNat c.denominator⟩

/-- The ratio one step above. -/
def roundedUp (base clock stages : Nat) (c : Candidate) : Ratio :=
  ⟨numeratorByte (c.denominator * base * stages / clock + 1), UInt8.ofNat c.denominator⟩

/-- The exact multiple of the share by a denominator of a byte fits 64 bits. -/
theorem exactNumerator_eq (h : Chosen base clock stages share) (hword : clock < Word.bound 32)
    {denominator : Nat} (hle : denominator ≤ 255) :
    exactNumerator base clock stages denominator
      = .ok (denominator * base * stages / clock) := by
  have htotal : denominator * base * stages < Word.bound 64 :=
    calc denominator * base * stages
        = denominator * (stages * base) := by ring
      _ ≤ 255 * Word.bound 32 :=
        Nat.mul_le_mul hle (Nat.le_of_lt (Nat.lt_trans h.below hword))
      _ < Word.bound 64 := by decide
  have hmultiple : denominator * base < Word.bound 64 :=
    Nat.lt_of_le_of_lt (Nat.le_mul_of_pos_right _ h.pos) htotal
  rw [exactNumerator, Word.mul_of_lt hmultiple, Checked.ok_bind, Word.mul_of_lt htotal]
  rfl

/-- The exact numerator of a byte's denominator is less than the denominator. -/
theorem numerator_lt (h : Chosen base clock stages share) {denominator : Nat}
    (hpos : 1 ≤ denominator) : denominator * base * stages / clock < denominator := by
  rw [Nat.div_lt_iff_lt_mul (Nat.zero_lt_of_lt h.below),
    show denominator * base * stages = denominator * (stages * base) by ring]
  exact Nat.mul_lt_mul_of_pos_left h.below hpos

theorem ratioDown_eq (h : Chosen base clock stages share) (hword : clock < Word.bound 32)
    (hle : c.denominator ≤ 255) :
    ratioDown base clock stages c = .ok (roundedDown base clock stages c) := by
  rw [ratioDown, exactNumerator_eq h hword hle]
  rfl

theorem ratioUp_eq (h : Chosen base clock stages share) (hword : clock < Word.bound 32)
    (hpos : 1 ≤ c.denominator) (hle : c.denominator ≤ 255) :
    ratioUp base clock stages c = .ok (roundedUp base clock stages c) := by
  have hexact := numerator_lt h hpos
  have hfits : c.denominator * base * stages / clock + 1 < Word.bound 64 := by
    rw [Word.bound_eq]
    omega
  rw [ratioUp, exactNumerator_eq h hword hle, Checked.ok_bind, Word.add_of_lt hfits]
  rfl

/-- The divider that is found with a stage count, from the closest candidates of both roundings. -/
def found? (base clock stages share : Nat) : Option Divider :=
  ofRatios? stages ((closest? (offers share .down)).map (roundedDown base clock stages))
    ((closest? (offers share .up)).map (roundedUp base clock stages))

theorem ratioOf?_map {ratio : Candidate → Checked Ratio} {rounded : Candidate → Ratio}
    (closest : Option Candidate) (h : ∀ c, closest = some c → ratio c = .ok (rounded c)) :
    ratioOf? ratio closest = .ok (closest.map rounded) := by
  cases closest with
  | none => rfl
  | some c =>
    rw [ratioOf?, h c rfl]
    rfl

theorem approximate?_eq (h : Chosen base clock stages share) (hword : clock < Word.bound 32) :
    approximate? base clock stages share = .ok (found? base clock stages share) := by
  have hdown := ratioOf?_map (closest? (offers share .down)) fun c hc =>
    ratioDown_eq h hword (leastExcess_of_closest? h.share_lt hc).le
  have hup := ratioOf?_map (closest? (offers share .up)) fun c hc =>
    ratioUp_eq h hword (greatestExcess_of_closest? h.share_lt hc).pos
      (greatestExcess_of_closest? h.share_lt hc).le
  rw [approximate?, hdown, hup]
  rfl

/-- There is a candidate of one rounding at least, since a denominator of one is never passed
over. -/
theorem found?_eq_some (h : Chosen base clock stages share) :
    ∃ divider, found? base clock stages share = some divider ∧ divider.stages = stages := by
  have hstages : (UInt8.ofNat (stages - 1)).toNat + 1 = stages := by
    have hpos := h.pos
    have hle := h.le
    unfold maxStages at hle
    rw [UInt8.toNat_ofNat']
    omega
  rw [found?]
  cases hdown : closest? (offers share .down) with
  | some down =>
    cases hup : closest? (offers share .up) with
    | some up => exact ⟨_, rfl, hstages⟩
    | none => exact ⟨_, rfl, hstages⟩
  | none =>
    cases hup : closest? (offers share .up) with
    | some up => exact ⟨_, rfl, hstages⟩
    | none =>
      have habove := half_lt_of_closest?_down h.share_lt hdown (Nat.le_refl 1) (by decide)
      have hbelow := le_half_of_closest?_up h.share_lt hup (Nat.le_refl 1) (by decide)
      exact absurd habove (Nat.not_lt.mpr hbelow)

/-! ## The search -/

variable {rate clock : UInt32} {format : PcmFormat}

/-- The master clock of a rate, in hertz. -/
def masterClock (rate : UInt32) (format : PcmFormat) : Nat :=
  rate.toNat * format.clocksPerFrame

theorem masterClock_lt (rate : UInt32) (format : PcmFormat) :
    masterClock rate format < Word.bound 64 :=
  calc masterClock rate format
      ≤ Word.bound 32 * (255 * 255 * 2) :=
        Nat.mul_le_mul (Nat.le_of_lt rate.toNat_lt) format.clocksPerFrame_le
    _ < Word.bound 64 := by decide

/-- The master clock of any rate fits 64 bits. -/
theorem mul_clocksPerFrame (rate : UInt32) (format : PcmFormat) :
    Word.mul 64 rate.toNat format.clocksPerFrame = .ok (masterClock rate format) :=
  Word.mul_of_lt (masterClock_lt rate format)

/-- A rate whose master clock is positive and below the peripheral clock has a divider. -/
theorem find?_of_lt (hpos : 0 < masterClock rate format)
    (hlt : masterClock rate format < clock.toNat) :
    ∃ stages share, chooseStages? (masterClock rate format) clock.toNat = some (stages, share)
      ∧ Chosen (masterClock rate format) clock.toNat stages share
      ∧ find? rate format clock
        = .ok (found? (masterClock rate format) clock.toNat stages share) := by
  obtain ⟨stages, share, hstages, hchosen⟩ := chooseStages?_of_lt clock.toNat_lt hlt
  refine ⟨stages, share, hstages, hchosen, ?_⟩
  have hnonzero : ¬ (rate = 0 ∨ clock = 0 ∨ format.clocksPerFrame = 0) := by
    rintro (rfl | rfl | hclocks)
    · simp [masterClock] at hpos
    · exact absurd hlt (Nat.not_lt_zero _)
    · simp [masterClock, hclocks] at hpos
  rw [find?, if_neg hnonzero, mul_clocksPerFrame, Checked.ok_bind, hstages]
  exact approximate?_eq hchosen clock.toNat_lt

/-- Any other rate has none. -/
theorem find?_of_not (h : ¬ (0 < masterClock rate format ∧ masterClock rate format < clock.toNat)) :
    find? rate format clock = .ok none := by
  rw [find?]
  split
  · rfl
  · next hnonzero =>
    obtain ⟨hrate, hclock, hclocks⟩ : rate ≠ 0 ∧ clock ≠ 0 ∧ format.clocksPerFrame ≠ 0 := by
      simpa only [not_or] using hnonzero
    have hratepos : 0 < rate.toNat :=
      Nat.pos_of_ne_zero fun hzero => hrate (UInt32.toNat_inj.mp hzero)
    have hclockpos : 0 < clock.toNat :=
      Nat.pos_of_ne_zero fun hzero => hclock (UInt32.toNat_inj.mp hzero)
    have hpos : 0 < masterClock rate format := Nat.mul_pos hratepos (Nat.pos_of_ne_zero hclocks)
    have hle : clock.toNat ≤ masterClock rate format := Nat.not_lt.mp fun hlt => h ⟨hpos, hlt⟩
    rw [mul_clocksPerFrame, Checked.ok_bind, chooseStages?_of_le hclockpos clock.toNat_lt hle]
    rfl

/-- What a search that succeeds has found, and with how many stages. -/
theorem found?_of_find? {divider : Divider} (h : find? rate format clock = .ok (some divider)) :
    ∃ share, chooseStages? (masterClock rate format) clock.toNat = some (divider.stages, share)
      ∧ Chosen (masterClock rate format) clock.toNat divider.stages share
      ∧ found? (masterClock rate format) clock.toNat divider.stages share = some divider := by
  by_cases hrealisable : 0 < masterClock rate format ∧ masterClock rate format < clock.toNat
  · obtain ⟨stages, share, hstages, hchosen, hfind⟩ :=
      find?_of_lt hrealisable.1 hrealisable.2
    obtain ⟨found, hfound, rfl⟩ := found?_eq_some hchosen
    rw [hfind, hfound] at h
    cases h
    exact ⟨share, hstages, hchosen, hfound⟩
  · rw [find?_of_not hrealisable] at h
    cases h

/-- For every rate, format and peripheral clock the search comes to an end without a fault: no
product or sum of it leaves its word. It finds a divider exactly if the exact master clock is
positive and below the peripheral clock, and refuses the rate otherwise. The divider has the
greatest number of stages, up to 64, that keeps the multiple of the master clock below the
peripheral clock. -/
theorem accepts_realisable_rates (rate : UInt32) (format : PcmFormat) (clock : UInt32) :
    let base := rate.toNat * (format.channels.toNat * format.width.toNat * 2)
    (0 < base ∧ base < clock.toNat → ∃ divider, forRate rate format clock = .ok (.ok divider)
      ∧ IsGreatest {stages | (1 ≤ stages ∧ stages ≤ 64) ∧ stages * base < clock.toNat}
        (divider.prescaler.toNat + 1))
    ∧ (¬ (0 < base ∧ base < clock.toNat) →
      forRate rate format clock = .ok (.error (.unsupportedRate rate)))
    ∧ format.clocksPerFrame < Word.bound 64 := by
  refine ⟨?_, ?_, ?_⟩
  · rintro ⟨hpos, hlt⟩
    obtain ⟨stages, share, -, hchosen, hfind⟩ := find?_of_lt hpos hlt
    obtain ⟨divider, hfound, hstages⟩ := found?_eq_some hchosen
    refine ⟨divider, ?_, ?_⟩
    · rw [forRate, hfind, hfound]
      rfl
    · rw [show divider.prescaler.toNat + 1 = stages from hstages]
      exact ⟨⟨⟨hchosen.pos, hchosen.le⟩, hchosen.below⟩,
        fun more hmore => hchosen.most more hmore.1.2 hmore.2⟩
  · intro hnot
    rw [forRate, find?_of_not hnot]
    rfl
  · exact Nat.lt_of_le_of_lt format.clocksPerFrame_le (by decide)

/-- Sixteen channels of 32 bits at 192 kHz leave room for a few stages at 2.5 GHz. In the largest
format there is, the highest rate needs more than 64 bits for every share, and is refused. -/
theorem accepts_realisable_rates_oversized :
    (0 < 196608000 ∧ 196608000 < 2500000000)
      ∧ (∃ divider, forRate 192000 ⟨16, 32⟩ 2500000000 = .ok (.ok divider)
        ∧ divider.prescaler.toNat + 1 = 12)
      ∧ ¬ (0 < 558560496714750 ∧ 558560496714750 < 4294967295)
      ∧ Word.bound 64 ≤ 558560496714750 * unity
      ∧ forRate 4294967295 ⟨255, 255⟩ 4294967295
        = .ok (.error (.unsupportedRate 4294967295)) := by
  obtain ⟨hfound, -, -⟩ := accepts_realisable_rates 192000 ⟨16, 32⟩ 2500000000
  obtain ⟨-, hrefused, -⟩ := accepts_realisable_rates 4294967295 ⟨255, 255⟩ 4294967295
  obtain ⟨divider, hdivider, ⟨⟨-, hbelow⟩, hmost⟩⟩ := hfound ⟨by decide, by decide⟩
  refine ⟨by decide, ⟨divider, hdivider, ?_⟩, by decide, by decide, hrefused (by decide)⟩
  have htwelve : 12 ≤ divider.prescaler.toNat + 1 := hmost ⟨by decide, by decide⟩
  have hbelow : (divider.prescaler.toNat + 1) * 196608000 < 2500000000 := hbelow
  omega

end PacedAudio.Divider
