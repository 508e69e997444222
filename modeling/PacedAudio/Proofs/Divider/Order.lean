/-
# PacedAudio.Proofs.Divider.Order — which speed is the faster one

The two ratios of a divider have denominators of their own. Rounded from exact multiples, the one is
not above the share and the other is above it, so the fast speed is not slower
(`Chosen.numerators_ordered`). But the numerator zero of a ratio that rounds down is raised to one.
That happens to tiny shares only, whose multiples all stay below one: the best denominator to round
down is one, and the ratio becomes one. If the greatest multiple is past a half, there is another
ratio that rounds up, of about 1/255, and this is the fast one (`fast_not_slower_iff`).
-/

import PacedAudio.Proofs.Divider.Terms

namespace PacedAudio.Divider

variable {base clock stages share denominator : Nat} {divider : Divider}

/-! ## Tiny shares -/

/-- The multiples of a share up to 257 stay below one. -/
theorem excess_of_tiny (htiny : share ≤ 257) (hle : denominator ≤ 255) :
    excess share denominator = share * denominator := by
  apply Nat.mod_eq_of_lt
  calc share * denominator
      ≤ 257 * 255 := Nat.mul_le_mul htiny hle
    _ < unity := by decide

/-- The least multiple is the one by one. -/
theorem LeastExcess.eq_one_of_tiny (h : LeastExcess share denominator) (htiny : share ≤ 257)
    (hpos : 0 < share) : denominator = 1 := by
  have hone := h.least 1 (Nat.le_refl 1) (by decide)
  rw [excess_of_tiny htiny h.le, excess_of_tiny htiny (by decide)] at hone
  exact Nat.le_antisymm (Nat.le_of_mul_le_mul_left hone hpos) h.pos

/-- The greatest is the one by 255, and it is past a half from a share of 129 on. -/
theorem GreatestExcess.eq_last_of_tiny (h : GreatestExcess share denominator)
    (htiny : share ≤ 257) : denominator = 255 ∧ 129 ≤ share := by
  have hhalf := h.half
  have hlast := h.greatest 255 (by decide) (Nat.le_refl 255)
  rw [excess_of_tiny htiny h.le] at hhalf hlast
  rw [excess_of_tiny htiny (Nat.le_refl 255)] at hlast
  have hpos : 0 < share := Nat.pos_of_ne_zero (by rintro rfl; simp [oneHalf] at hhalf)
  have hdenominator : denominator = 255 :=
    Nat.le_antisymm h.le (Nat.le_of_mul_le_mul_left hlast hpos)
  rw [hdenominator, oneHalf] at hhalf
  exact ⟨hdenominator, by omega⟩

/-! ## The order of the two ratios -/

/-- A numerator rounded down and one rounded up, each with the other's denominator. -/
theorem Chosen.numerators_ordered (h : Chosen base clock stages share) (down up : Nat) :
    down * base * stages / clock * up ≤ (up * base * stages / clock + 1) * down := by
  refine Nat.le_of_mul_le_mul_left ?_ (Nat.zero_lt_of_lt h.below)
  calc clock * (down * base * stages / clock * up)
      = clock * (down * base * stages / clock) * up := (Nat.mul_assoc _ _ _).symm
    _ ≤ down * base * stages * up := Nat.mul_le_mul_right up (Nat.mul_div_le _ _)
    _ = up * base * stages * down := by ring
    _ ≤ clock * (up * base * stages / clock + 1) * down :=
      Nat.mul_le_mul_right down (h.le_roundedUp up)
    _ = clock * ((up * base * stages / clock + 1) * down) := Nat.mul_assoc _ _ _

/-- Two ratios of a share that is not tiny are in order. -/
theorem Chosen.rounded_ordered (h : Chosen base clock stages share) {down up : Candidate}
    (hleast : LeastExcess share down.denominator) (hgreatest : GreatestExcess share up.denominator)
    (hlow : 258 ≤ share) :
    (roundedDown base clock stages down).numerator.toNat
        * (roundedUp base clock stages up).denominator.toNat
      ≤ (roundedUp base clock stages up).numerator.toNat
        * (roundedDown base clock stages down).denominator.toNat := by
  obtain ⟨hnominal, hdown⟩ := h.toNat_roundedDown hleast hlow
  obtain ⟨hfast, hup⟩ := h.toNat_roundedUp hgreatest
  rw [hnominal, hdown, hfast, hup, ← h.numerator_eq_whole hleast]
  exact h.numerators_ordered down.denominator up.denominator

/-- Those of a tiny share are one and at most two of 255. -/
theorem Chosen.rounded_of_tiny (h : Chosen base clock stages share) {down up : Candidate}
    (hleast : LeastExcess share down.denominator) (hgreatest : GreatestExcess share up.denominator)
    (htiny : share ≤ 257) :
    129 ≤ share ∧ roundedDown base clock stages down = ⟨1, 1⟩
      ∧ (roundedUp base clock stages up).denominator = 255
      ∧ (roundedUp base clock stages up).numerator.toNat ≤ 2 := by
  obtain ⟨hlast, hge⟩ := hgreatest.eq_last_of_tiny htiny
  have hone := hleast.eq_one_of_tiny htiny (Nat.lt_of_lt_of_le (by decide) hge)
  refine ⟨hge, ?_, ?_, ?_⟩
  · have hlt := numerator_lt h hleast.pos
    rw [hone] at hlt
    rw [roundedDown, hone, Nat.lt_one_iff.mp hlt]
    rfl
  · rw [roundedUp, hlast]
    rfl
  · have hwhole : share * up.denominator / unity = 0 :=
      Nat.div_eq_of_lt (Nat.lt_of_le_of_lt (Nat.mul_le_mul htiny hgreatest.le) (by decide))
    have hle := h.numerator_le_succ hgreatest
    rw [(h.toNat_roundedUp hgreatest).1]
    omega

/-- Either the ratios are in order, or they are those of a tiny share. -/
theorem order_of_found? (h : Chosen base clock stages share)
    (hfound : found? base clock stages share = some divider) :
    ¬ (129 ≤ share ∧ share ≤ 257)
        ∧ divider.nominal.numerator.toNat * divider.fast.denominator.toNat
          ≤ divider.fast.numerator.toNat * divider.nominal.denominator.toNat
      ∨ (129 ≤ share ∧ share ≤ 257) ∧ divider.nominal = ⟨1, 1⟩
        ∧ divider.fast.denominator = 255 ∧ divider.fast.numerator.toNat ≤ 2 := by
  obtain ⟨-, hcases⟩ := found?_cases h hfound
  obtain ⟨down, up, hdown, hup, hnominal, hfast⟩ | ⟨down, hdown, hnone, hnominal, hfast⟩
    | ⟨up, hnone, hup, hnominal, hfast⟩ := hcases
  · have hleast := leastExcess_of_closest? h.share_lt hdown
    have hgreatest := greatestExcess_of_closest? h.share_lt hup
    rw [hnominal, hfast]
    rcases Nat.lt_or_ge 257 share with hlow | htiny
    · exact .inl ⟨by omega, h.rounded_ordered hleast hgreatest hlow⟩
    · obtain ⟨hge, hterms⟩ := h.rounded_of_tiny hleast hgreatest htiny
      exact .inr ⟨⟨hge, htiny⟩, hterms⟩
  · -- From 129 on the multiple by 255 would round up.
    refine .inl ⟨?_, ?_⟩
    · rintro ⟨hge, htiny⟩
      have hhalf := le_half_of_closest?_up h.share_lt hnone (by decide) (Nat.le_refl 255)
      rw [excess_of_tiny htiny (Nat.le_refl 255), oneHalf] at hhalf
      omega
    · rw [hnominal, hfast]
  · -- Up to 257 the share itself would round down.
    refine .inl ⟨?_, ?_⟩
    · rintro ⟨-, htiny⟩
      have hhalf := half_lt_of_closest?_down h.share_lt hnone (Nat.le_refl 1) (by decide)
      rw [excess_of_tiny htiny (by decide), oneHalf] at hhalf
      omega
    · rw [hnominal, hfast]

/-! ## The order of the two speeds -/

/-- If one ratio is at least so many times the other, so is its rate. -/
theorem times_millihertz_le (divider : Divider) (clock : UInt32) (format : PcmFormat)
    {lower higher : Speed} {times : Nat}
    (hlower : 0 < (divider.ratio lower).denominator.toNat)
    (hhigher : 0 < (divider.ratio higher).denominator.toNat)
    (hle : times
        * ((divider.ratio lower).numerator.toNat * (divider.ratio higher).denominator.toNat)
      ≤ (divider.ratio higher).numerator.toNat * (divider.ratio lower).denominator.toNat) :
    times * divider.millihertz clock format lower ≤ divider.millihertz clock format higher := by
  rcases Nat.eq_zero_or_pos format.clocksPerFrame with hzero | hclocks
  · rw [millihertz, hzero, Nat.mul_zero, Nat.div_zero]
    exact Nat.zero_le _
  · have hdivisor := Nat.mul_pos (Nat.mul_pos hhigher divider.stages_pos) hclocks
    have hfloor : divider.millihertz clock format lower
          * ((divider.ratio lower).denominator.toNat * divider.stages * format.clocksPerFrame)
        ≤ clock.toNat * (divider.ratio lower).numerator.toNat * 1000 := Nat.div_mul_le_self _ _
    generalize divider.millihertz clock format lower = made at hfloor
    rw [millihertz, Nat.le_div_iff_mul_le hdivisor]
    refine Nat.le_of_mul_le_mul_right ?_ hlower
    generalize divider.ratio lower = low at *
    generalize divider.ratio higher = high at *
    calc times * made * (high.denominator.toNat * divider.stages * format.clocksPerFrame)
          * low.denominator.toNat
        = times * high.denominator.toNat
          * (made * (low.denominator.toNat * divider.stages * format.clocksPerFrame)) := by ring
      _ ≤ times * high.denominator.toNat * (clock.toNat * low.numerator.toNat * 1000) :=
        Nat.mul_le_mul_left _ hfloor
      _ = clock.toNat * 1000 * (times * (low.numerator.toNat * high.denominator.toNat)) := by ring
      _ ≤ clock.toNat * 1000 * (high.numerator.toNat * low.denominator.toNat) :=
        Nat.mul_le_mul_left _ hle
      _ = clock.toNat * high.numerator.toNat * 1000 * low.denominator.toNat := by ring

variable {rate clock : UInt32} {format : PcmFormat}

/-- The fast ratio is at least the nominal one, and the fast speed not slower, unless the share is
from 129 to 257 units of 1/65536. In that range it is the other way round: the nominal ratio is one,
and the fast speed is less than a hundredth of the nominal one. -/
theorem fast_not_slower_iff (h : forRate rate format clock = .ok (.ok divider)) :
    let base := rate.toNat * (format.channels.toNat * format.width.toNat * 2)
    let share := base * 65536 * (divider.prescaler.toNat + 1) / clock.toNat
    let nominal := divider.millihertz clock format .nominal
    let fast := divider.millihertz clock format .fast
    (divider.nominal.numerator.toNat * divider.fast.denominator.toNat
        ≤ divider.fast.numerator.toNat * divider.nominal.denominator.toNat
      ↔ ¬ (129 ≤ share ∧ share ≤ 257))
      ∧ (¬ (129 ≤ share ∧ share ≤ 257) → nominal ≤ fast)
      ∧ (129 ≤ share ∧ share ≤ 257 →
        divider.nominal = ⟨1, 1⟩ ∧ divider.fast.denominator = 255 ∧ 127 * fast ≤ nominal) := by
  obtain ⟨share, -, hchosen, hfound⟩ := found?_of_find? (find?_of_forRate h)
  obtain rfl := hchosen.share_eq
  intro base share nominal fast
  have hpos : ∀ speed, 0 < (divider.ratio speed).denominator.toNat := fun speed =>
    have hlimits := limits_of_found? hchosen hfound speed
    Nat.le_trans hlimits.1 hlimits.2.1
  rcases order_of_found? hchosen hfound with ⟨hnot, hle⟩ | ⟨htiny, hnominal, hlast, htwo⟩
  · refine ⟨iff_of_true hle hnot, fun _ => ?_, fun htiny => absurd htiny hnot⟩
    have hone := times_millihertz_le divider clock format (hpos .nominal) (hpos .fast)
      (Nat.le_trans (Nat.le_of_eq (Nat.one_mul _)) hle)
    rwa [Nat.one_mul] at hone
  · refine ⟨iff_of_false ?_ (not_not_intro htiny), fun hnot => absurd htiny hnot,
      fun _ => ⟨hnominal, hlast, ?_⟩⟩
    · rw [hnominal, hlast]
      show ¬ 1 * 255 ≤ divider.fast.numerator.toNat * 1
      omega
    · refine times_millihertz_le divider clock format (hpos .fast) (hpos .nominal) ?_
      show 127 * (divider.fast.numerator.toNat * divider.nominal.denominator.toNat)
        ≤ divider.nominal.numerator.toNat * divider.fast.denominator.toNat
      rw [hnominal, hlast]
      show 127 * (divider.fast.numerator.toNat * 1) ≤ 1 * 255
      omega

/-- The upper end of the range at 180 MHz: 173 Hz have a share of 257 units, 174 Hz of 259. -/
theorem fast_not_slower_iff_upper_end :
    forRate 173 .stereo16 180000000 = .ok (.ok ⟨63, ⟨1, 1⟩, ⟨2, 255⟩⟩)
      ∧ 127 * (⟨63, ⟨1, 1⟩, ⟨2, 255⟩⟩ : Divider).millihertz 180000000 .stereo16 .fast
        ≤ (⟨63, ⟨1, 1⟩, ⟨2, 255⟩⟩ : Divider).millihertz 180000000 .stereo16 .nominal
      ∧ forRate 174 .stereo16 180000000 = .ok (.ok ⟨63, ⟨1, 254⟩, ⟨2, 253⟩⟩)
      ∧ (⟨63, ⟨1, 254⟩, ⟨2, 253⟩⟩ : Divider).millihertz 180000000 .stereo16 .nominal
        ≤ (⟨63, ⟨1, 254⟩, ⟨2, 253⟩⟩ : Divider).millihertz 180000000 .stereo16 .fast := by
  have hwithin : forRate 173 .stereo16 180000000 = .ok (.ok ⟨63, ⟨1, 1⟩, ⟨2, 255⟩⟩) := by
    decide +kernel
  have hbeyond : forRate 174 .stereo16 180000000 = .ok (.ok ⟨63, ⟨1, 254⟩, ⟨2, 253⟩⟩) := by
    decide +kernel
  obtain ⟨-, -, hslower⟩ := fast_not_slower_iff hwithin
  obtain ⟨-, hordered, -⟩ := fast_not_slower_iff hbeyond
  exact ⟨hwithin, (hslower (by decide)).2.2, hbeyond, hordered (by decide)⟩

/-- It is not so that the fast ratio is never below the nominal one: at 128 Hz the nominal ratio is
one and the fast one is 1/255. -/
theorem not_fast_not_slower_slow :
    ¬ ∀ (rate clock : UInt32) (format : PcmFormat) (divider : Divider),
        forRate rate format clock = .ok (.ok divider) →
      divider.nominal.numerator.toNat * divider.fast.denominator.toNat
        ≤ divider.fast.numerator.toNat * divider.nominal.denominator.toNat := by
  intro hall
  have hfound : forRate 128 .stereo16 180000000 = .ok (.ok ⟨63, ⟨1, 1⟩, ⟨1, 255⟩⟩) := by
    decide +kernel
  exact absurd (hall 128 180000000 .stereo16 _ hfound) (by decide)

end PacedAudio.Divider
