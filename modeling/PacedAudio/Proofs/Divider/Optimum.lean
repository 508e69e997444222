/-
# PacedAudio.Proofs.Divider.Optimum — the search finds the best denominators

Each denominator of a byte rounds its multiple of the share one way, and none is passed over. So the
two candidates that the search keeps are the best of all denominators that round like them: the ones
of least error, and of those the greatest (`isFinest_of_closest?`). With the exact numerators they
are the two ratios of the divider (`divider_optimal`).
-/

import PacedAudio.Proofs.Divider.Terms

namespace PacedAudio.Divider

/-! ## What a rounding chooses from -/

/-- The denominators whose multiple of a share is rounded one way: down if it has at most a half too
much, and up otherwise. -/
def Rounding.domain : Rounding → Nat → Set Nat
  | .down, share => {y | (1 ≤ y ∧ y ≤ 255) ∧ excess share y ≤ oneHalf}
  | .up, share => {y | (1 ≤ y ∧ y ≤ 255) ∧ oneHalf < excess share y}

/-- How far the multiple of a share is from the whole number that it is rounded to. -/
def Rounding.error : Rounding → Nat → Nat → Nat
  | .down, share, y => excess share y
  | .up, share, y => unity - excess share y

/-- Of all denominators in a domain that have the least error, the greatest. -/
def IsFinest (domain : Set Nat) (error : Nat → Nat) (y : Nat) : Prop :=
  IsGreatest {y ∈ domain | ∀ z ∈ domain, error y ≤ error z} y

variable {base clock stages share : Nat} {way : Rounding} {c : Candidate}

/-- Every denominator of a byte rounds one way or the other. -/
theorem mem_domain_or {y : Nat} (share : Nat) (hpos : 1 ≤ y) (hle : y ≤ 255) :
    y ∈ Rounding.down.domain share ∨ y ∈ Rounding.up.domain share := by
  rcases Nat.lt_or_ge oneHalf (excess share y) with hup | hdown
  · exact .inr ⟨⟨hpos, hle⟩, hup⟩
  · exact .inl ⟨⟨hpos, hle⟩, hdown⟩

/-- What the search has to choose from are the denominators of the rounding. -/
theorem mem_offers_iff (hshare : share < unity) :
    c ∈ offers share way
      ↔ c.denominator ∈ way.domain share ∧ c.error = way.error share c.denominator := by
  cases way with
  | down => exact (mem_offers_down hshare).trans and_assoc.symm
  | up => exact (mem_offers_up hshare).trans and_assoc.symm

theorem offered_of_mem (hshare : share < unity) {y : Nat} (hy : y ∈ way.domain share) :
    ⟨y, way.error share y⟩ ∈ offers share way :=
  (mem_offers_iff hshare).mpr ⟨hy, rfl⟩

/-! ## What it chooses -/

theorem isFinest_of_closest? (hshare : share < unity)
    (h : closest? (offers share way) = some c) :
    IsFinest (way.domain share) (way.error share) c.denominator := by
  have hclosest := closest?_isClosest (offers_descend share way) h
  obtain ⟨hmem, herror⟩ := (mem_offers_iff hshare).mp hclosest.mem
  have hleast : ∀ z ∈ way.domain share, c.error ≤ way.error share z := fun z hz =>
    hclosest.least _ (offered_of_mem hshare hz)
  refine ⟨⟨hmem, herror ▸ hleast⟩, ?_⟩
  rintro z ⟨hz, hzleast⟩
  apply hclosest.finest _ (offered_of_mem hshare hz)
  have hzle : way.error share z ≤ c.error := herror ▸ hzleast c.denominator hmem
  exact Nat.le_antisymm hzle (hleast z hz)

/-- A rounding that any denominator takes brings the terms of the finest. The exact numerator is
below its denominator, so that the limit of a byte changes nothing. -/
theorem wideTerms?_of_nonempty (way : Rounding) (h : Chosen base clock stages share)
    (hsome : (way.domain share).Nonempty) :
    ∃ y, IsFinest (way.domain share) (way.error share) y
      ∧ wideTerms? base clock stages share way
        = some (max 1 (way.next (y * base * stages / clock)), y) := by
  cases hclosest : closest? (offers share way) with
  | none =>
    obtain ⟨y, hy⟩ := hsome
    have hmem := offered_of_mem h.share_lt hy
    rw [closest?_eq_none_iff.mp hclosest] at hmem
    exact absurd hmem List.not_mem_nil
  | some c =>
    obtain ⟨hpos, hle⟩ := range_of_closest? hclosest
    have hbyte : way.next (c.denominator * base * stages / clock) ≤ 255 :=
      Nat.le_trans (way.next_le _) (Nat.le_trans (numerator_lt h hpos) hle)
    refine ⟨c.denominator, isFinest_of_closest? h.share_lt hclosest, ?_⟩
    rw [wideTerms?, hclosest, Option.map_some, Nat.min_eq_left hbyte]

/-- A rounding that no denominator takes brings nothing. -/
theorem wideTerms?_of_empty (hshare : share < unity) (hnone : way.domain share = ∅)
    (base clock stages : Nat) : wideTerms? base clock stages share way = none := by
  cases hclosest : closest? (offers share way) with
  | none => exact wideTerms?_none hclosest
  | some c =>
    have hmem := (isFinest_of_closest? hshare hclosest).1.1
    rw [hnone] at hmem
    exact absurd hmem (Set.notMem_empty _)

/-! ## The divider that is found -/

variable {divider : Divider}

/-- If all denominators round the same way, there is one ratio only. -/
theorem nominal_eq_fast_of_empty (way : Rounding) (h : Chosen base clock stages share)
    (hfound : found? base clock stages share = some divider) (hnone : way.domain share = ∅) :
    divider.nominal = divider.fast := by
  obtain ⟨hnominal, hfast⟩ := terms_of_found? h hfound
  have hwide := wideTerms?_of_empty h.share_lt hnone base clock stages
  apply Ratio.terms_injective
  apply Option.some.inj
  cases way with
  | down => rw [hnominal, hfast, hwide, Option.none_or, Option.or_none]
  | up => rw [hnominal, hfast, hwide, Option.none_or, Option.or_none]

variable {rate clock : UInt32} {format : PcmFormat}

/-- The search finds the best of all denominators. Among those that round the share down it takes
for the nominal ratio the greatest of least excess, with the exact numerator, or one if that is
zero; and among those that round up, for the fast ratio, the greatest of least shortfall, with the
numerator above the exact one. If all round the same way, both ratios are the one there is. No check
on the way takes effect: all multiples fit their words, and all numerators bytes. -/
theorem divider_optimal (h : forRate rate format clock = .ok (.ok divider)) :
    let base := rate.toNat * (format.channels.toNat * format.width.toNat * 2)
    let stages := divider.prescaler.toNat + 1
    let share := base * 65536 * stages / clock.toNat
    let exact : Nat → Nat := fun y => y * base * stages / clock.toNat
    let down : Set Nat := {y | (1 ≤ y ∧ y ≤ 255) ∧ share * y % 65536 ≤ 32768}
    let up : Set Nat := {y | (1 ≤ y ∧ y ≤ 255) ∧ 32768 < share * y % 65536}
    chooseStages? base clock.toNat = some (stages, share)
      ∧ (down.Nonempty → ∃ y, IsFinest down (fun y => share * y % 65536) y
        ∧ divider.nominal.terms = (max 1 (exact y), y))
      ∧ (up.Nonempty → ∃ y, IsFinest up (fun y => 65536 - share * y % 65536) y
        ∧ divider.fast.terms = (exact y + 1, y))
      ∧ (down = ∅ → up.Nonempty ∧ divider.nominal = divider.fast)
      ∧ (up = ∅ → down.Nonempty ∧ divider.fast = divider.nominal)
      ∧ ∀ y, 1 ≤ y → y ≤ 255 → (offer? share y).isSome
        ∧ share * y < Word.bound 32 ∧ share * y / 65536 < 255 ∧ exact y + 1 ≤ 255 := by
  obtain ⟨share, hstages, hchosen, hfound⟩ := found?_of_find? (find?_of_forRate h)
  obtain rfl := hchosen.share_eq
  obtain ⟨hnominal, hfast⟩ := terms_of_found? hchosen hfound
  intro base stages share exact down up
  -- Since a denominator of one rounds some way, only one of the domains can be empty.
  have hone : 1 ∈ down ∨ 1 ∈ up := mem_domain_or share (Nat.le_refl 1) (by decide)
  refine ⟨hstages, fun hdown => ?_, fun hup => ?_, fun hnone => ?_, fun hnone => ?_,
    fun y hpos hle => ⟨?_, ?_, ?_, ?_⟩⟩
  · obtain ⟨y, hfinest, hterms⟩ := wideTerms?_of_nonempty .down hchosen hdown
    rw [hterms, Option.some_or] at hnominal
    exact ⟨y, hfinest, Option.some.inj hnominal⟩
  · obtain ⟨y, hfinest, hterms⟩ := wideTerms?_of_nonempty .up hchosen hup
    rw [hterms, Option.some_or, Rounding.next, Nat.max_eq_right (Nat.le_add_left 1 _)] at hfast
    exact ⟨y, hfinest, Option.some.inj hfast⟩
  · exact ⟨⟨1, hone.resolve_left (hnone ▸ Set.notMem_empty 1)⟩,
      nominal_eq_fast_of_empty .down hchosen hfound hnone⟩
  · exact ⟨⟨1, hone.resolve_right (hnone ▸ Set.notMem_empty 1)⟩,
      (nominal_eq_fast_of_empty .up hchosen hfound hnone).symm⟩
  · have hoffer : offer? share y = _ := offer?_eq hchosen.share_lt hle
    rw [hoffer]
    split <;> rfl
  · exact Nat.lt_trans (mul_share_lt hchosen.share_lt hle) (by decide)
  · exact Nat.div_lt_of_lt_mul (mul_share_lt hchosen.share_lt hle)
  · exact Nat.le_trans (numerator_lt hchosen hpos) hle

/-- Three quarters: each fourth denominator has no excess at all, and the last of these is taken.
The next one is the last of those that have a quarter to go. -/
theorem divider_optimal_three_quarters :
    forRate 48000 .stereo16 262144000 = .ok (.ok ⟨63, ⟨189, 252⟩, ⟨190, 253⟩⟩)
      ∧ IsFinest {y | (1 ≤ y ∧ y ≤ 255) ∧ 49152 * y % 65536 ≤ 32768}
        (fun y => 49152 * y % 65536) 252
      ∧ IsFinest {y | (1 ≤ y ∧ y ≤ 255) ∧ 32768 < 49152 * y % 65536}
        (fun y => 65536 - 49152 * y % 65536) 253 := by
  have hfound : forRate 48000 .stereo16 262144000
      = .ok (.ok ⟨63, ⟨189, 252⟩, ⟨190, 253⟩⟩) := by
    decide +kernel
  obtain ⟨-, hdown, hup, -⟩ := divider_optimal hfound
  obtain ⟨y, hfinest, hterms⟩ := hdown ⟨252, by decide, by decide⟩
  obtain ⟨z, hlast, hnext⟩ := hup ⟨253, by decide, by decide⟩
  obtain rfl : 252 = y := congrArg Prod.snd hterms
  obtain rfl : 253 = z := congrArg Prod.snd hnext
  exact ⟨hfound, hfinest, hlast⟩

end PacedAudio.Divider
