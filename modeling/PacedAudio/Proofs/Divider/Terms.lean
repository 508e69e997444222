/-
# PacedAudio.Proofs.Divider.Terms — the numbers that a divider is programmed with

The search computes with wide words and stores bytes. Whatever it stores it has kept within a byte
before, so a byte is the number that was computed (`terms_of_found?`). A numerator is at least one
and at most its denominator: for as long as the stages take less than the peripheral clock, the
exact multiple of the share by a denominator is below the denominator, so that rounding it up goes
no further than that. Hence no divider raises the clock (`divider_programmable`).
-/

import PacedAudio.Proofs.Divider.Supply

namespace PacedAudio

/-- The two numbers of a ratio. -/
def Ratio.terms (r : Ratio) : Nat × Nat := (r.numerator.toNat, r.denominator.toNat)

theorem Ratio.terms_injective : Function.Injective Ratio.terms := by
  intro r s h
  obtain ⟨hnumerator, hdenominator⟩ := Prod.ext_iff.mp h
  cases r
  cases s
  exact congrArg₂ Ratio.mk (UInt8.toNat_inj.mp hnumerator) (UInt8.toNat_inj.mp hdenominator)

namespace Divider

variable {base clock stages share : Nat} {way : Rounding} {c : Candidate} {divider : Divider}

/-! ## Terms before they are stored -/

/-- The whole number that a rounding takes next to an exact numerator. -/
def Rounding.next : Rounding → Nat → Nat
  | .down, exact => exact
  | .up, exact => exact + 1

theorem Rounding.next_le (way : Rounding) (exact : Nat) : way.next exact ≤ exact + 1 := by
  cases way with
  | down => exact Nat.le_succ exact
  | up => exact Nat.le_refl _

/-- The terms that the search computes for the closest candidate of a rounding. -/
def wideTerms? (base clock stages share : Nat) (way : Rounding) : Option (Nat × Nat) :=
  (closest? (offers share way)).map fun c =>
    (max 1 (min (way.next (c.denominator * base * stages / clock)) 255), c.denominator)

theorem range_of_closest? (h : closest? (offers share way) = some c) :
    1 ≤ c.denominator ∧ c.denominator ≤ 255 := by
  obtain ⟨denominator, hrange, hoffer⟩ :=
    mem_offers.mp (closest?_isClosest (offers_descend share way) h).mem
  rw [offer?_denominator hoffer]
  exact hrange

theorem wideTerms?_down (h : closest? (offers share .down) = some c) :
    wideTerms? base clock stages share .down = some (roundedDown base clock stages c).terms := by
  rw [wideTerms?, h, Option.map_some, roundedDown, Ratio.terms, toNat_numeratorByte,
    toNat_denominator (range_of_closest? h).2]
  rfl

theorem wideTerms?_up (h : closest? (offers share .up) = some c) :
    wideTerms? base clock stages share .up = some (roundedUp base clock stages c).terms := by
  rw [wideTerms?, h, Option.map_some, roundedUp, Ratio.terms, toNat_numeratorByte,
    toNat_denominator (range_of_closest? h).2]
  rfl

theorem wideTerms?_none (h : closest? (offers share way) = none) :
    wideTerms? base clock stages share way = none := by
  rw [wideTerms?, h, Option.map_none]

/-- The terms of a divider are the ones that were computed, each with all of its bits. -/
theorem terms_of_found? (h : Chosen base clock stages share)
    (hfound : found? base clock stages share = some divider) :
    some divider.nominal.terms
        = (wideTerms? base clock stages share .down).or (wideTerms? base clock stages share .up)
      ∧ some divider.fast.terms
        = (wideTerms? base clock stages share .up).or
          (wideTerms? base clock stages share .down) := by
  obtain ⟨-, hcases⟩ := found?_cases h hfound
  obtain ⟨d, u, hd, hu, hnominal, hfast⟩ | ⟨d, hd, hnone, hnominal, hfast⟩
    | ⟨u, hnone, hu, hnominal, hfast⟩ := hcases
  · rw [wideTerms?_down hd, wideTerms?_up hu, hnominal, hfast]
    exact ⟨rfl, rfl⟩
  · rw [wideTerms?_down hd, wideTerms?_none hnone, hnominal, hfast]
    exact ⟨rfl, rfl⟩
  · rw [wideTerms?_none hnone, wideTerms?_up hu, hnominal, hfast]
    exact ⟨rfl, rfl⟩

/-! ## Their limits -/

/-- Neither rounding takes a numerator beyond its denominator, and no numerator is zero. -/
theorem limits_of_wideTerms? (h : Chosen base clock stages share) {terms : Nat × Nat}
    (hterms : wideTerms? base clock stages share way = some terms) :
    1 ≤ terms.1 ∧ terms.1 ≤ terms.2 ∧ terms.2 ≤ 255 := by
  obtain ⟨c, hc, rfl⟩ := Option.map_eq_some_iff.mp hterms
  obtain ⟨hpos, hle⟩ := range_of_closest? hc
  have hnext : way.next (c.denominator * base * stages / clock) ≤ c.denominator :=
    Nat.le_trans (way.next_le _) (numerator_lt h hpos)
  refine ⟨Nat.le_max_left 1 _, Nat.max_le.mpr ⟨hpos, ?_⟩, hle⟩
  exact Nat.le_trans (Nat.min_le_left _ _) hnext

/-- Both ratios of a divider are such terms. -/
theorem limits_of_found? (h : Chosen base clock stages share)
    (hfound : found? base clock stages share = some divider) (speed : Speed) :
    1 ≤ (divider.ratio speed).numerator.toNat
      ∧ (divider.ratio speed).numerator.toNat ≤ (divider.ratio speed).denominator.toNat
      ∧ (divider.ratio speed).denominator.toNat ≤ 255 := by
  obtain ⟨hnominal, hfast⟩ := terms_of_found? h hfound
  have hwide : ∃ way,
      wideTerms? base clock stages share way = some (divider.ratio speed).terms := by
    cases speed with
    | nominal =>
      rcases Option.or_eq_some_iff.mp hnominal.symm with hdown | ⟨-, hup⟩
      · exact ⟨.down, hdown⟩
      · exact ⟨.up, hup⟩
    | fast =>
      rcases Option.or_eq_some_iff.mp hfast.symm with hup | ⟨-, hdown⟩
      · exact ⟨.up, hup⟩
      · exact ⟨.down, hdown⟩
  obtain ⟨way, hterms⟩ := hwide
  exact limits_of_wideTerms? h hterms

/-! ## A search that succeeds -/

variable {rate clock : UInt32} {format : PcmFormat}

/-- A rate that is not refused has been found a divider. -/
theorem find?_of_forRate (h : forRate rate format clock = .ok (.ok divider)) :
    find? rate format clock = .ok (some divider) := by
  rw [forRate] at h
  cases hfind : find? rate format clock with
  | error fault =>
    rw [hfind] at h
    cases h
  | ok found =>
    rw [hfind] at h
    cases found with
    | none => cases h
    | some found =>
      cases h
      rfl

/-- A ratio of at most one does not raise the clock. -/
theorem millihertz_mul_le (divider : Divider) (clock : UInt32) (format : PcmFormat) (speed : Speed)
    (hle : (divider.ratio speed).numerator.toNat ≤ (divider.ratio speed).denominator.toNat)
    (hpos : 1 ≤ (divider.ratio speed).denominator.toNat) :
    divider.millihertz clock format speed * (divider.stages * format.clocksPerFrame)
      ≤ 1000 * clock.toNat := by
  refine Nat.le_of_mul_le_mul_right ?_ hpos
  calc divider.millihertz clock format speed * (divider.stages * format.clocksPerFrame)
        * (divider.ratio speed).denominator.toNat
      = divider.millihertz clock format speed
        * ((divider.ratio speed).denominator.toNat * divider.stages * format.clocksPerFrame) := by
          ring
    _ ≤ clock.toNat * (divider.ratio speed).numerator.toNat * 1000 := Nat.div_mul_le_self _ _
    _ ≤ clock.toNat * (divider.ratio speed).denominator.toNat * 1000 :=
      Nat.mul_le_mul_right _ (Nat.mul_le_mul_left _ hle)
    _ = 1000 * clock.toNat * (divider.ratio speed).denominator.toNat := by ring

/-- Every divider that is found can be programmed, and lowers the clock or leaves it as it is: the
prescaler fits its six bits, both ratios have terms of a byte from one up and are at most one, and
neither speed takes more than the peripheral clock. Nothing is lost as these numbers are stored: the
stage count and the share are the chosen ones, and the terms the computed ones. -/
theorem divider_programmable (h : forRate rate format clock = .ok (.ok divider)) :
    let base := rate.toNat * (format.channels.toNat * format.width.toNat * 2)
    let stages := divider.prescaler.toNat + 1
    let share := base * 65536 * stages / clock.toNat
    divider.prescaler.toNat ≤ 63
      ∧ (∀ speed, 1 ≤ (divider.ratio speed).numerator.toNat
        ∧ (divider.ratio speed).numerator.toNat ≤ (divider.ratio speed).denominator.toNat
        ∧ (divider.ratio speed).denominator.toNat ≤ 255)
      ∧ chooseStages? base clock.toNat = some (stages, share)
      ∧ share < Word.bound 32
      ∧ some divider.nominal.terms
        = (wideTerms? base clock.toNat stages share .down).or
          (wideTerms? base clock.toNat stages share .up)
      ∧ some divider.fast.terms
        = (wideTerms? base clock.toNat stages share .up).or
          (wideTerms? base clock.toNat stages share .down)
      ∧ ∀ speed, divider.millihertz clock format speed
          * ((divider.prescaler.toNat + 1) * (format.channels.toNat * format.width.toNat * 2))
        ≤ 1000 * clock.toNat := by
  obtain ⟨share, hstages, hchosen, hfound⟩ := found?_of_find? (find?_of_forRate h)
  obtain rfl := hchosen.share_eq
  obtain ⟨hnominal, hfast⟩ := terms_of_found? hchosen hfound
  have hlimits := limits_of_found? hchosen hfound
  refine ⟨Nat.le_of_succ_le_succ hchosen.le, hlimits, hstages, ?_, hnominal, hfast,
    fun speed => ?_⟩
  · exact Nat.lt_trans hchosen.share_lt (by decide)
  · obtain ⟨hpos, hle, -⟩ := hlimits speed
    exact millihertz_mul_le divider clock format speed hle (Nat.le_trans hpos hle)

/-- At one hertz the share is a single unit and both numerators have been raised to one. The clock
is left as it is, and the rate is as high as the bound lets it be in whole thousandths. -/
theorem divider_programmable_unit :
    let divider : Divider := ⟨63, ⟨1, 1⟩, ⟨1, 1⟩⟩
    let made := divider.millihertz 180000000 .stereo16 .fast
    forRate 1 .stereo16 180000000 = .ok (.ok divider)
      ∧ chooseStages? 64 180000000 = some (64, 1)
      ∧ wideTerms? 64 180000000 64 1 .down = some (1, 1)
      ∧ made * (64 * 64) ≤ 1000 * 180000000
      ∧ 1000 * 180000000 < (made + 1) * (64 * 64) := by
  have hfound : forRate 1 .stereo16 180000000 = .ok (.ok ⟨63, ⟨1, 1⟩, ⟨1, 1⟩⟩) := by
    decide +kernel
  obtain ⟨-, -, hstages, -, hnominal, -, hrate⟩ := divider_programmable hfound
  have hup : wideTerms? 64 180000000 64 1 .up = none := by decide +kernel
  refine ⟨hfound, hstages, ?_, hrate .fast, by decide⟩
  have hterms : some (1, 1) = (wideTerms? 64 180000000 64 1 .down).or
      (wideTerms? 64 180000000 64 1 .up) := hnominal
  rw [hup, Option.or_none] at hterms
  exact hterms.symm

end Divider

end PacedAudio
