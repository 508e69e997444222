/-
# PacedAudio.Proofs.Divider.Supply — how much of the wanted master clock a ratio supplies

The search judges a denominator by the approximate share, and takes the numerator from the exact
one. The two agree on the whole part of a multiple that is rounded down
(`Chosen.numerator_eq_whole`); of a multiple that is rounded up the exact whole part can be one more
than the approximate one, if the excess is within a denominator of one (`Chosen.numerator_le_succ`).

So a ratio that rounds down supplies 990 to 1000 thousandths of what is wanted, and a ratio that
rounds up supplies 1000 to 1010 thousandths, unless it steps beyond the next numerator and that is
small (`Oversteps`). Even then it supplies no more than twice what is wanted.
-/

import Mathlib.Tactic.Ring
import PacedAudio.Proofs.Divider.Multiples
import PacedAudio.Proofs.Divider.Search

namespace PacedAudio

/-- What a ratio makes of the peripheral clock is `low` to `high` thousandths of what all the stages
take of the master clock `base`. -/
structure Ratio.Supplies (low high base clock stages : Nat) (ratio : Ratio) : Prop where
  pos : 0 < ratio.denominator.toNat
  atLeast : low * (ratio.denominator.toNat * base * stages)
    ≤ 1000 * (clock * ratio.numerator.toNat)
  atMost : 1000 * (clock * ratio.numerator.toNat)
    ≤ high * (ratio.denominator.toNat * base * stages)

theorem Ratio.Supplies.mono {low high low' high' base clock stages : Nat} {ratio : Ratio}
    (h : ratio.Supplies low high base clock stages) (hlow : low' ≤ low) (hhigh : high ≤ high') :
    ratio.Supplies low' high' base clock stages where
  pos := h.pos
  atLeast := Nat.le_trans (Nat.mul_le_mul_right _ hlow) h.atLeast
  atMost := Nat.le_trans h.atMost (Nat.mul_le_mul_right _ hhigh)

namespace Divider

variable {base clock stages share denominator : Nat} {c : Candidate}

/-! ## The exact numerator and the approximate one -/

theorem Chosen.approximate_le (h : Chosen base clock stages share) (denominator : Nat) :
    share * denominator * clock ≤ denominator * base * stages * unity :=
  calc share * denominator * clock
      = denominator * (base * unity * stages / clock * clock) := by rw [h.share_eq]; ring
    _ ≤ denominator * (base * unity * stages) :=
      Nat.mul_le_mul_left denominator (Nat.div_mul_le_self _ _)
    _ = denominator * base * stages * unity := by ring

theorem Chosen.lt_approximate (h : Chosen base clock stages share) (hpos : 1 ≤ denominator) :
    denominator * base * stages * unity < (share * denominator + denominator) * clock :=
  have hclock : 0 < clock := Nat.zero_lt_of_lt h.below
  calc denominator * base * stages * unity
      = denominator * (base * unity * stages) := by ring
    _ < denominator * (clock * (base * unity * stages / clock + 1)) :=
      Nat.mul_lt_mul_of_pos_left (Nat.lt_mul_div_succ _ hclock) hpos
    _ = (share * denominator + denominator) * clock := by rw [h.share_eq]; ring

/-- What some approximate multiples bound from above, as many exact ones do. -/
theorem Chosen.clock_mul_le (h : Chosen base clock stages share) {times numerator : Nat}
    (hle : unity * numerator ≤ times * (share * denominator)) :
    clock * numerator ≤ times * (denominator * base * stages) := by
  refine Nat.le_of_mul_le_mul_right ?_ (show 0 < unity by decide)
  calc clock * numerator * unity
      = unity * numerator * clock := by ring
    _ ≤ times * (share * denominator) * clock := Nat.mul_le_mul_right clock hle
    _ = times * (share * denominator * clock) := Nat.mul_assoc _ _ _
    _ ≤ times * (denominator * base * stages * unity) :=
      Nat.mul_le_mul_left times (h.approximate_le denominator)
    _ = times * (denominator * base * stages) * unity := (Nat.mul_assoc _ _ _).symm

/-- What bounds some approximate multiples of the share's next unit bounds as many exact ones. -/
theorem Chosen.le_clock_mul (h : Chosen base clock stages share) (hpos : 1 ≤ denominator)
    {times numerator : Nat}
    (hle : times * (share * denominator + denominator) ≤ unity * numerator) :
    times * (denominator * base * stages) ≤ clock * numerator := by
  refine Nat.le_of_mul_le_mul_right ?_ (show 0 < unity by decide)
  calc times * (denominator * base * stages) * unity
      = times * (denominator * base * stages * unity) := Nat.mul_assoc _ _ _
    _ ≤ times * ((share * denominator + denominator) * clock) :=
      Nat.mul_le_mul_left times (Nat.le_of_lt (h.lt_approximate hpos))
    _ = times * (share * denominator + denominator) * clock := (Nat.mul_assoc _ _ _).symm
    _ ≤ unity * numerator * clock := Nat.mul_le_mul_right clock hle
    _ = clock * numerator * unity := by ring

theorem Chosen.whole_le_numerator (h : Chosen base clock stages share) (denominator : Nat) :
    share * denominator / unity ≤ denominator * base * stages / clock := by
  rw [Nat.le_div_iff_mul_le (Nat.zero_lt_of_lt h.below), Nat.mul_comm]
  have hwhole : unity * (share * denominator / unity) ≤ 1 * (share * denominator) := by
    rw [Nat.one_mul]
    exact Nat.mul_div_le _ _
  exact Nat.le_trans (h.clock_mul_le hwhole) (Nat.le_of_eq (Nat.one_mul _))

/-- The exact numerator is below any number that the approximate multiple stays a denominator
below. -/
theorem Chosen.numerator_lt_of_le (h : Chosen base clock stages share) (hpos : 1 ≤ denominator)
    {limit : Nat} (hlimit : share * denominator + denominator ≤ unity * limit) :
    denominator * base * stages / clock < limit := by
  rw [Nat.div_lt_iff_lt_mul (Nat.zero_lt_of_lt h.below)]
  refine Nat.lt_of_mul_lt_mul_right (a := unity) ?_
  calc denominator * base * stages * unity
      < (share * denominator + denominator) * clock := h.lt_approximate hpos
    _ ≤ unity * limit * clock := Nat.mul_le_mul_right clock hlimit
    _ = limit * clock * unity := by ring

/-- Of a multiple that is rounded down both shares have the same whole part. -/
theorem Chosen.numerator_eq_whole (h : Chosen base clock stages share)
    (hleast : LeastExcess share denominator) :
    denominator * base * stages / clock = share * denominator / unity := by
  refine Nat.le_antisymm (Nat.le_of_lt_succ ?_) (h.whole_le_numerator denominator)
  have hsplit := whole_add_excess share denominator
  have hhalf := hleast.half
  have hle := hleast.le
  refine h.numerator_lt_of_le hleast.pos ?_
  unfold unity oneHalf at *
  omega

/-- Of a multiple that is rounded up the exact whole part is at most one more. -/
theorem Chosen.numerator_le_succ (h : Chosen base clock stages share)
    (hgreatest : GreatestExcess share denominator) :
    denominator * base * stages / clock ≤ share * denominator / unity + 1 := by
  have hsplit := whole_add_excess share denominator
  have hlt := excess_lt share denominator
  have hle := hgreatest.le
  refine Nat.le_of_lt_succ (h.numerator_lt_of_le hgreatest.pos ?_)
  unfold unity at *
  omega

/-- Within its limits a numerator fits a byte. -/
theorem toNat_numeratorByte (numerator : Nat) :
    (numeratorByte numerator).toNat = max 1 (min numerator 255) := by
  rw [numeratorByte, UInt8.toNat_ofNat']
  omega

theorem toNat_denominator (hle : denominator ≤ 255) :
    (UInt8.ofNat denominator).toNat = denominator := by
  rw [UInt8.toNat_ofNat']
  omega

/-! ## Rounding down -/

/-- The numerator of a ratio that rounds down is the exact one; it is never raised to one. -/
theorem Chosen.toNat_roundedDown (h : Chosen base clock stages share)
    (hleast : LeastExcess share c.denominator) (hlow : 258 ≤ share) :
    (roundedDown base clock stages c).numerator.toNat = share * c.denominator / unity
      ∧ (roundedDown base clock stages c).denominator.toNat = c.denominator := by
  have hone : 1 ≤ share * c.denominator / unity := by
    rw [Nat.le_div_iff_mul_le (by decide), Nat.one_mul]
    exact hleast.unity_le_multiple hlow h.share_lt
  have hlt := numerator_lt h hleast.pos
  have hle := hleast.le
  have hexact := h.numerator_eq_whole hleast
  refine ⟨?_, toNat_denominator hleast.le⟩
  rw [roundedDown, toNat_numeratorByte, hexact]
  omega

theorem Chosen.supplies_roundedDown (h : Chosen base clock stages share)
    (hleast : LeastExcess share c.denominator) (hlow : 500 ≤ share) :
    (roundedDown base clock stages c).Supplies 990 1000 base clock stages := by
  obtain ⟨hnumerator, hdenominator⟩ := h.toNat_roundedDown hleast (Nat.le_trans (by decide) hlow)
  refine ⟨?_, ?_, ?_⟩
  · rw [hdenominator]
    exact hleast.pos
  · rw [hdenominator, hnumerator]
    have herror := hleast.relative_error hlow h.share_lt
    have hsplit := whole_add_excess share c.denominator
    rw [Nat.mul_left_comm 1000 clock]
    refine h.le_clock_mul hleast.pos ?_
    rw [Nat.mul_left_comm unity 1000]
    omega
  · rw [hdenominator, hnumerator, ← h.numerator_eq_whole hleast]
    exact Nat.mul_le_mul_left 1000 (Nat.mul_div_le _ _)

/-! ## Rounding up -/

/-- The numerator of a ratio that rounds up is one more than the exact one. -/
theorem Chosen.toNat_roundedUp (h : Chosen base clock stages share)
    (hgreatest : GreatestExcess share c.denominator) :
    (roundedUp base clock stages c).numerator.toNat
        = c.denominator * base * stages / clock + 1
      ∧ (roundedUp base clock stages c).denominator.toNat = c.denominator := by
  have hlt := numerator_lt h hgreatest.pos
  have hle := hgreatest.le
  refine ⟨?_, toNat_denominator hgreatest.le⟩
  rw [roundedUp, toNat_numeratorByte]
  exact (congrArg (max 1) (Nat.min_eq_left (by omega))).trans
    (Nat.max_eq_right (Nat.le_add_left 1 _))

/-- A ratio that rounds up supplies no less than what is wanted. -/
theorem Chosen.le_roundedUp (h : Chosen base clock stages share) (denominator : Nat) :
    denominator * base * stages ≤ clock * (denominator * base * stages / clock + 1) :=
  Nat.le_of_lt (Nat.lt_mul_div_succ _ (Nat.zero_lt_of_lt h.below))

/-- If both shares have the same whole part, the error of the next numerator is the one that the
search has judged by. -/
theorem Chosen.next_le (h : Chosen base clock stages share)
    (hgreatest : GreatestExcess share denominator) (hlow : 258 ≤ share) :
    1000 * (clock * (share * denominator / unity + 1))
      ≤ 1010 * (denominator * base * stages) := by
  have herror := hgreatest.relative_error hlow h.share_lt
  have hsplit := whole_add_excess share denominator
  have hlt := excess_lt share denominator
  rw [Nat.mul_left_comm 1000 clock]
  refine h.clock_mul_le ?_
  rw [Nat.mul_left_comm unity 1000, Nat.mul_succ]
  omega

/-- If the exact whole part is one more, the ratio that rounds up steps beyond the next numerator,
and the step is more than a hundredth of a numerator below 100. -/
theorem Chosen.beyond_next (h : Chosen base clock stages share)
    (hgreatest : GreatestExcess share denominator) {numerator : Nat}
    (hbeyond : share * denominator / unity + 1 = numerator) (hsmall : numerator < 100) :
    1010 * (denominator * base * stages) + 6 * clock ≤ 1000 * (clock * (numerator + 1)) := by
  have hsplit := whole_add_excess share denominator
  have hlt := excess_lt share denominator
  have hle := hgreatest.le
  have hexact : 1010 * (denominator * base * stages) ≤ clock * (1000 * numerator + 994) := by
    refine h.le_clock_mul hgreatest.pos ?_
    unfold unity at *
    omega
  calc 1010 * (denominator * base * stages) + 6 * clock
      ≤ clock * (1000 * numerator + 994) + 6 * clock := Nat.add_le_add_right hexact _
    _ = 1000 * (clock * (numerator + 1)) := by ring

/-- A ratio that rounds up supplies at most a hundredth more than what is wanted, unless it steps
beyond the next numerator and that is small. -/
theorem Chosen.supplies_roundedUp (h : Chosen base clock stages share)
    (hgreatest : GreatestExcess share c.denominator) (hlow : 258 ≤ share)
    (hnear : (roundedUp base clock stages c).numerator.toNat
        ≤ share * c.denominator / unity + 1
      ∨ 100 < (roundedUp base clock stages c).numerator.toNat) :
    (roundedUp base clock stages c).Supplies 1000 1010 base clock stages := by
  obtain ⟨hnumerator, hdenominator⟩ := h.toNat_roundedUp hgreatest
  refine ⟨?_, ?_, ?_⟩
  · rw [hdenominator]
    exact hgreatest.pos
  · rw [hdenominator, hnumerator]
    exact Nat.mul_le_mul_left 1000 (h.le_roundedUp c.denominator)
  · rw [hdenominator]
    rcases hnear with hnext | hgreat
    · exact Nat.le_trans (Nat.mul_le_mul_left 1000 (Nat.mul_le_mul_left clock hnext))
        (h.next_le hgreatest hlow)
    · -- From 100 on, a whole step of the numerator is no more than a hundredth of it.
      rw [hnumerator] at hgreat ⊢
      have hexact : clock * (c.denominator * base * stages / clock)
          ≤ c.denominator * base * stages := Nat.mul_div_le _ _
      have hhundred : clock * 100 ≤ clock * (c.denominator * base * stages / clock) :=
        Nat.mul_le_mul_left clock (Nat.le_of_lt_succ hgreat)
      rw [Nat.mul_succ]
      omega

/-- In any case it supplies no more than twice as much. -/
theorem Chosen.roundedUp_le_double (h : Chosen base clock stages share)
    (hgreatest : GreatestExcess share c.denominator) (hlow : 258 ≤ share) :
    1000 * (clock * (roundedUp base clock stages c).numerator.toNat)
      ≤ 2000 * ((roundedUp base clock stages c).denominator.toNat * base * stages) := by
  obtain ⟨hnumerator, hdenominator⟩ := h.toNat_roundedUp hgreatest
  rw [hnumerator, hdenominator]
  have hexact : clock * (c.denominator * base * stages / clock)
      ≤ c.denominator * base * stages := Nat.mul_div_le _ _
  rcases Nat.eq_zero_or_pos (c.denominator * base * stages / clock) with hzero | hone
  · have hwhole := h.whole_le_numerator c.denominator
    have hnext := h.next_le hgreatest hlow
    rw [hzero] at hwhole ⊢
    rw [Nat.le_zero.mp hwhole] at hnext
    omega
  · have hclock : clock * 1 ≤ clock * (c.denominator * base * stages / clock) :=
      Nat.mul_le_mul_left clock hone
    rw [Nat.mul_succ]
    omega

/-! ## The only ratio -/

/-- If nothing rounds down, the only ratio is one, and the share is close to one. -/
theorem Chosen.supplies_only_up (h : Chosen base clock stages share)
    (hnone : closest? (offers share .down) = none)
    (hup : closest? (offers share .up) = some c) :
    (roundedUp base clock stages c).Supplies 1000 1002 base clock stages
      ∧ (roundedUp base clock stages c).numerator.toNat = 1 := by
  have hgreatest := greatestExcess_of_closest? h.share_lt hup
  have hnear := unity_le_of_half_lt h.share_lt fun other hpos hle =>
    half_lt_of_closest?_down h.share_lt hnone hpos hle
  have hdenominator : c.denominator = 1 := hgreatest.eq_one h.share_lt hnear
  obtain ⟨hnumerator, hsame⟩ := h.toNat_roundedUp hgreatest
  have hlt := numerator_lt h hgreatest.pos
  rw [hdenominator] at hnumerator hsame hlt
  rw [Nat.lt_one_iff.mp hlt] at hnumerator
  refine ⟨⟨?_, ?_, ?_⟩, hnumerator⟩
  · rw [hsame]
    decide
  · rw [hnumerator, hsame]
    have hbelow : stages * base ≤ clock := Nat.le_of_lt h.below
    rw [Nat.one_mul, Nat.mul_comm base stages]
    omega
  · rw [hnumerator, hsame]
    rw [Nat.mul_left_comm 1000 clock]
    refine h.clock_mul_le ?_
    unfold unity at *
    omega

/-! ## The ratios of a divider -/

variable {divider : Divider}

/-- The numerator of the fast ratio is beyond the one next to the approximate multiple of its
denominator, and no more than 100. -/
def Oversteps (base clock : Nat) (divider : Divider) : Prop :=
  base * unity * divider.stages / clock * divider.fast.denominator.toNat / unity + 1
      < divider.fast.numerator.toNat
    ∧ divider.fast.numerator.toNat ≤ 100

instance : Decidable (Oversteps base clock divider) := inferInstanceAs (Decidable (_ ∧ _))

/-- Where the ratios of a divider come from: one of each rounding, or only one. -/
theorem found?_cases (h : Chosen base clock stages share)
    (hfound : found? base clock stages share = some divider) :
    divider.stages = stages
      ∧ ((∃ down up, closest? (offers share .down) = some down
          ∧ closest? (offers share .up) = some up
          ∧ divider.nominal = roundedDown base clock stages down
          ∧ divider.fast = roundedUp base clock stages up)
        ∨ (∃ down, closest? (offers share .down) = some down ∧ closest? (offers share .up) = none
          ∧ divider.nominal = roundedDown base clock stages down
          ∧ divider.fast = roundedDown base clock stages down)
        ∨ ∃ up, closest? (offers share .down) = none ∧ closest? (offers share .up) = some up
          ∧ divider.nominal = roundedUp base clock stages up
          ∧ divider.fast = roundedUp base clock stages up) := by
  obtain ⟨same, hsame, hstages⟩ := found?_eq_some h
  rw [hfound] at hsame
  cases hsame
  refine ⟨hstages, ?_⟩
  rw [found?] at hfound
  cases hdown : closest? (offers share .down) with
  | some down =>
    cases hup : closest? (offers share .up) with
    | some up =>
      rw [hdown, hup] at hfound
      cases hfound
      exact .inl ⟨down, up, rfl, rfl, rfl, rfl⟩
    | none =>
      rw [hdown, hup] at hfound
      cases hfound
      exact .inr (.inl ⟨down, rfl, rfl, rfl, rfl⟩)
  | none =>
    cases hup : closest? (offers share .up) with
    | some up =>
      rw [hdown, hup] at hfound
      cases hfound
      exact .inr (.inr ⟨up, rfl, rfl, rfl, rfl⟩)
    | none =>
      rw [hdown, hup] at hfound
      cases hfound

/-- Two ratios are below and above what is wanted, and a single one is close to it. -/
theorem supplies_of_found? (h : Chosen base clock stages share) (hlow : 500 ≤ share)
    (hfound : found? base clock stages share = some divider) :
    divider.nominal = divider.fast
        ∧ divider.nominal.Supplies 990 1002 base clock divider.stages
      ∨ divider.nominal.Supplies 990 1000 base clock divider.stages
        ∧ divider.fast.Supplies 1000 2000 base clock divider.stages := by
  obtain ⟨hstages, hcases⟩ := found?_cases h hfound
  rw [hstages]
  obtain ⟨down, up, hdown, hup, hnominal, hfast⟩ | ⟨down, hdown, -, hnominal, hfast⟩
    | ⟨up, hnone, hup, hnominal, hfast⟩ := hcases
  · have hgreatest := greatestExcess_of_closest? h.share_lt hup
    have hup258 : 258 ≤ share := Nat.le_trans (by decide) hlow
    have hdenominator := (h.toNat_roundedUp hgreatest).2
    refine .inr ⟨?_, ?_, ?_, ?_⟩
    · rw [hnominal]
      exact h.supplies_roundedDown (leastExcess_of_closest? h.share_lt hdown) hlow
    · rw [hfast, hdenominator]
      exact hgreatest.pos
    · rw [hfast, hdenominator, (h.toNat_roundedUp hgreatest).1]
      exact Nat.mul_le_mul_left 1000 (h.le_roundedUp up.denominator)
    · rw [hfast]
      exact h.roundedUp_le_double hgreatest hup258
  · refine .inl ⟨hnominal.trans hfast.symm, ?_⟩
    rw [hnominal]
    exact (h.supplies_roundedDown (leastExcess_of_closest? h.share_lt hdown) hlow).mono
      (Nat.le_refl _) (by decide)
  · refine .inl ⟨hnominal.trans hfast.symm, ?_⟩
    rw [hnominal]
    exact (h.supplies_only_up hnone hup).1.mono (by decide) (Nat.le_refl _)

/-- The fast ratio supplies at most a hundredth more than what is wanted, or it oversteps. -/
theorem supplies_fast_of_found? (h : Chosen base clock stages share) (hlow : 500 ≤ share)
    (hfound : found? base clock stages share = some divider)
    (hnear : ¬ Oversteps base clock divider) :
    divider.fast.Supplies 990 1010 base clock divider.stages := by
  obtain ⟨hstages, hcases⟩ := found?_cases h hfound
  rw [Oversteps, hstages, ← h.share_eq] at hnear
  rw [hstages]
  obtain ⟨down, up, hdown, hup, hnominal, hfast⟩ | ⟨down, hdown, -, hnominal, hfast⟩
    | ⟨up, hnone, hup, hnominal, hfast⟩ := hcases
  · have hgreatest := greatestExcess_of_closest? h.share_lt hup
    rw [hfast] at hnear ⊢
    rw [(h.toNat_roundedUp hgreatest).2] at hnear
    refine (h.supplies_roundedUp hgreatest (Nat.le_trans (by decide) hlow) ?_).mono (by decide)
      (Nat.le_refl _)
    omega
  · rw [hfast]
    exact (h.supplies_roundedDown (leastExcess_of_closest? h.share_lt hdown) hlow).mono
      (Nat.le_refl _) (by decide)
  · rw [hfast]
    exact (h.supplies_only_up hnone hup).1.mono (by decide) (by decide)

/-- A fast ratio that oversteps supplies more than that. -/
theorem beyond_of_oversteps (h : Chosen base clock stages share) (hlow : 500 ≤ share)
    (hfound : found? base clock stages share = some divider)
    (hover : Oversteps base clock divider) :
    1010 * (divider.fast.denominator.toNat * base * divider.stages) + 6 * clock
      ≤ 1000 * (clock * divider.fast.numerator.toNat) := by
  obtain ⟨hstages, hcases⟩ := found?_cases h hfound
  obtain ⟨hbeyond, hsmall⟩ := hover
  rw [hstages, ← h.share_eq] at hbeyond
  rw [hstages]
  obtain ⟨down, up, hdown, hup, hnominal, hfast⟩ | ⟨down, hdown, -, hnominal, hfast⟩
    | ⟨up, hnone, hup, hnominal, hfast⟩ := hcases
  · have hgreatest := greatestExcess_of_closest? h.share_lt hup
    obtain ⟨hnumerator, hdenominator⟩ := h.toNat_roundedUp hgreatest
    rw [hfast, hnumerator] at hbeyond hsmall
    rw [hfast, hnumerator]
    rw [hdenominator] at hbeyond ⊢
    have hle := h.numerator_le_succ hgreatest
    exact h.beyond_next hgreatest (by omega) hsmall
  · obtain ⟨hnumerator, hdenominator⟩ :=
      h.toNat_roundedDown (leastExcess_of_closest? h.share_lt hdown) (Nat.le_trans (by decide) hlow)
    rw [hfast, hnumerator, hdenominator] at hbeyond
    omega
  · rw [hfast, (h.supplies_only_up hnone hup).2] at hbeyond
    exact absurd hbeyond (Nat.not_lt.mpr (Nat.le_add_left 1 _))

end Divider

end PacedAudio
