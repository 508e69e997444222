/-
# PacedAudio.Proofs.Divider.Closest — the candidates and the closest of them

While a share is below one, no denominator is passed over: each one offers to round down or to round
up, by the excess of its multiple of the share over a whole number (`mem_offers_down`,
`mem_offers_up`). Among the candidates of one rounding, whose denominators descend, the search keeps
the first of smallest error. So it has the greatest denominator of all that come as close
(`closest?_isClosest`).
-/

import Mathlib.Data.List.Induction
import PacedAudio.Divider.Approximation

namespace PacedAudio.Divider

variable {share denominator : Nat} {way : Rounding} {candidates : List Candidate} {c : Candidate}

/-! ## What a denominator has to offer -/

/-- How far the multiple of a share is above a whole number, in units of 1/65536. -/
def excess (share denominator : Nat) : Nat := share * denominator % unity

theorem excess_lt (share denominator : Nat) : excess share denominator < unity :=
  Nat.mod_lt _ (by decide)

/-- The whole part of a multiple and its excess make up the multiple. -/
theorem whole_add_excess (share denominator : Nat) :
    unity * (share * denominator / unity) + excess share denominator = share * denominator :=
  Nat.div_add_mod _ _

theorem mul_share_lt (hshare : share < unity) (hdenominator : denominator ≤ 255) :
    share * denominator < unity * 255 :=
  calc share * denominator
      ≤ share * 255 := Nat.mul_le_mul_left share hdenominator
    _ < unity * 255 := Nat.mul_lt_mul_of_pos_right hshare (by decide)

/-- A share below one is never passed over: its multiples fit 32 bits, and their numerators a
byte, even when they are rounded up. -/
theorem offer?_eq (hshare : share < unity) (hdenominator : denominator ≤ 255) :
    offer? share denominator
      = if oneHalf < excess share denominator then
          some (.up, ⟨denominator, unity - excess share denominator⟩)
        else some (.down, ⟨denominator, excess share denominator⟩) := by
  have hlt := mul_share_lt hshare hdenominator
  have hfits : ¬ Word.bound 32 ≤ share * denominator :=
    Nat.not_le.mpr (Nat.lt_trans hlt (by decide))
  have hwhole : share * denominator / unity < 255 := Nat.div_lt_of_lt_mul hlt
  simp only [offer?, if_neg hfits, if_neg (Nat.not_lt.mpr (Nat.le_of_lt hwhole)),
    if_neg (Nat.ne_of_lt hwhole)]
  rfl

theorem offer?_denominator (h : offer? share denominator = some (way, c)) :
    c.denominator = denominator := by
  simp only [offer?] at h
  repeat' split at h
  all_goals cases h
  all_goals rfl

/-- The candidate of a denominator, if it rounds that way. -/
theorem offers_eq (share : Nat) (way : Rounding) :
    offers share way = denominators.filterMap fun denominator =>
      (offer? share denominator).bind fun offered =>
        if offered.1 = way then some offered.2 else none := by
  rw [offers]
  congr 1
  funext denominator
  cases offer? share denominator with
  | none => rfl
  | some offered => rfl

theorem mem_offers : c ∈ offers share way
    ↔ ∃ denominator, (1 ≤ denominator ∧ denominator ≤ 255)
      ∧ offer? share denominator = some (way, c) := by
  simp only [offers_eq, List.mem_filterMap, mem_denominators]
  refine exists_congr fun denominator => and_congr_right fun _ => ?_
  cases offer? share denominator with
  | none => simp
  | some offered => simp [Prod.ext_iff]

theorem mem_offers_down (hshare : share < unity) : c ∈ offers share .down
    ↔ (1 ≤ c.denominator ∧ c.denominator ≤ 255)
      ∧ excess share c.denominator ≤ oneHalf ∧ c.error = excess share c.denominator := by
  rw [mem_offers]
  constructor
  · rintro ⟨denominator, hrange, hoffer⟩
    rw [offer?_eq hshare hrange.2] at hoffer
    split at hoffer
    · cases hoffer
    · next hhalf =>
      cases hoffer
      exact ⟨hrange, Nat.not_lt.mp hhalf, rfl⟩
  · rintro ⟨hrange, hhalf, herror⟩
    refine ⟨c.denominator, hrange, ?_⟩
    rw [offer?_eq hshare hrange.2, if_neg (Nat.not_lt.mpr hhalf), ← herror]

theorem mem_offers_up (hshare : share < unity) : c ∈ offers share .up
    ↔ (1 ≤ c.denominator ∧ c.denominator ≤ 255)
      ∧ oneHalf < excess share c.denominator
      ∧ c.error = unity - excess share c.denominator := by
  rw [mem_offers]
  constructor
  · rintro ⟨denominator, hrange, hoffer⟩
    rw [offer?_eq hshare hrange.2] at hoffer
    split at hoffer
    · next hhalf =>
      cases hoffer
      exact ⟨hrange, hhalf, rfl⟩
    · cases hoffer
  · rintro ⟨hrange, hhalf, herror⟩
    refine ⟨c.denominator, hrange, ?_⟩
    rw [offer?_eq hshare hrange.2, if_pos hhalf, ← herror]

/-! ## The closest candidate -/

/-- The candidates of a rounding stand in the order of preference. -/
theorem offers_descend (share : Nat) (way : Rounding) :
    (offers share way).Pairwise fun earlier later => later.denominator < earlier.denominator := by
  have hdescend : denominators.Pairwise fun earlier later => later < earlier := by
    rw [denominators, List.pairwise_reverse]
    exact List.pairwise_lt_range'
  -- A candidate has the denominator that it was offered by.
  have hsame : ∀ denominator (c : Candidate), ((offer? share denominator).bind fun offered =>
      if offered.1 = way then some offered.2 else none) = some c → c.denominator = denominator := by
    intro denominator c hc
    obtain ⟨⟨offered, candidate⟩, hoffer, hc⟩ := Option.bind_eq_some_iff.mp hc
    split at hc
    · cases hc
      exact offer?_denominator hoffer
    · cases hc
  rw [offers_eq]
  apply List.Pairwise.filterMap _ _ hdescend
  intro earlier later hlt c hc d hd
  rw [hsame earlier c hc, hsame later d hd]
  exact hlt

/-- A candidate of smallest error in a list, and of all that come as close the one with the greatest
denominator. -/
structure IsClosest (candidates : List Candidate) (c : Candidate) : Prop where
  mem : c ∈ candidates
  least : ∀ other ∈ candidates, c.error ≤ other.error
  finest : ∀ other ∈ candidates, other.error = c.error → other.denominator ≤ c.denominator

theorem isClosest_single (c : Candidate) : IsClosest [c] c where
  mem := List.mem_singleton_self c
  least := by simp
  finest := by simp

/-- A candidate that comes closer than all before it. -/
theorem IsClosest.append_closer (h : IsClosest candidates c) {last : Candidate}
    (hlast : last.error < c.error) : IsClosest (candidates ++ [last]) last where
  mem := by simp
  least := by
    simp only [List.mem_append, List.mem_singleton]
    rintro other (hother | rfl)
    · exact Nat.le_trans (Nat.le_of_lt hlast) (h.least other hother)
    · exact Nat.le_refl _
  finest := by
    simp only [List.mem_append, List.mem_singleton]
    rintro other (hother | rfl) herror
    · have hleast := h.least other hother
      omega
    · exact Nat.le_refl _

/-- A candidate that does not come closer, and is less preferred. -/
theorem IsClosest.append_farther (h : IsClosest candidates c) {last : Candidate}
    (hlast : c.error ≤ last.error) (hless : last.denominator < c.denominator) :
    IsClosest (candidates ++ [last]) c where
  mem := List.mem_append_left _ h.mem
  least := by
    simp only [List.mem_append, List.mem_singleton]
    rintro other (hother | rfl)
    · exact h.least other hother
    · exact hlast
  finest := by
    simp only [List.mem_append, List.mem_singleton]
    rintro other (hother | rfl) herror
    · exact h.finest other hother herror
    · exact Nat.le_of_lt hless

theorem closest?_concat (candidates : List Candidate) (c : Candidate) :
    closest? (candidates ++ [c]) = better (closest? candidates) c := by
  rw [closest?, List.foldl_append]
  rfl

theorem closest?_eq_none_iff : closest? candidates = none ↔ candidates = [] := by
  rcases List.eq_nil_or_concat candidates with rfl | ⟨earlier, last, rfl⟩
  · simp [closest?]
  · rw [List.concat_eq_append, closest?_concat]
    cases closest? earlier with
    | none => simp [better]
    | some best =>
      simp only [better]
      split <;> simp

/-- The search keeps the closest of candidates in the order of preference. -/
theorem closest?_isClosest
    (hdescend : candidates.Pairwise fun earlier later => later.denominator < earlier.denominator)
    (h : closest? candidates = some c) : IsClosest candidates c := by
  -- A fold goes on at the end of a list, so the induction adds the least preferred candidate.
  induction candidates using List.reverseRecOn generalizing c with
  | nil => cases h
  | append_singleton earlier last ih =>
    obtain ⟨hearlier, -, hlast⟩ := List.pairwise_append.mp hdescend
    rw [closest?_concat] at h
    cases hbest : closest? earlier with
    | none =>
      rw [hbest] at h
      cases h
      rw [closest?_eq_none_iff.mp hbest]
      exact isClosest_single _
    | some best =>
      have hclosest := ih hearlier hbest
      rw [hbest] at h
      simp only [better] at h
      split at h
      · next hcloser =>
        cases h
        exact hclosest.append_closer hcloser
      · next hfar =>
        cases h
        exact hclosest.append_farther (Nat.not_lt.mp hfar)
          (hlast _ hclosest.mem _ (List.mem_singleton_self last))

/-! ## The closest candidate by its excess -/

/-- The multiple of a share is as little above a whole number as any other, and at most by half. -/
structure LeastExcess (share denominator : Nat) : Prop where
  pos : 1 ≤ denominator
  le : denominator ≤ 255
  half : excess share denominator ≤ oneHalf
  least : ∀ other, 1 ≤ other → other ≤ 255 → excess share denominator ≤ excess share other

/-- The multiple of a share is as little below a whole number as any other, and by less than half;
multiples by greater denominators are further below it. -/
structure GreatestExcess (share denominator : Nat) : Prop where
  pos : 1 ≤ denominator
  le : denominator ≤ 255
  half : oneHalf < excess share denominator
  greatest : ∀ other, 1 ≤ other → other ≤ 255 → excess share other ≤ excess share denominator
  finest : ∀ other, 1 ≤ other → other ≤ 255 →
    excess share other = excess share denominator → other ≤ denominator

theorem leastExcess_of_closest? (hshare : share < unity)
    (h : closest? (offers share .down) = some c) : LeastExcess share c.denominator := by
  have hclosest := closest?_isClosest (offers_descend share .down) h
  obtain ⟨hrange, hhalf, herror⟩ := (mem_offers_down hshare).mp hclosest.mem
  refine ⟨hrange.1, hrange.2, hhalf, fun other hpos hle => ?_⟩
  rcases Nat.lt_or_ge oneHalf (excess share other) with hup | hdown
  · exact Nat.le_of_lt (Nat.lt_of_le_of_lt hhalf hup)
  · have hleast := hclosest.least ⟨other, excess share other⟩
      ((mem_offers_down hshare).mpr ⟨⟨hpos, hle⟩, hdown, rfl⟩)
    rwa [herror] at hleast

theorem greatestExcess_of_closest? (hshare : share < unity)
    (h : closest? (offers share .up) = some c) : GreatestExcess share c.denominator := by
  have hclosest := closest?_isClosest (offers_descend share .up) h
  obtain ⟨hrange, hhalf, herror⟩ := (mem_offers_up hshare).mp hclosest.mem
  have hmem : ∀ other, 1 ≤ other → other ≤ 255 → oneHalf < excess share other →
      ⟨other, unity - excess share other⟩ ∈ offers share .up := fun other hpos hle hup =>
    (mem_offers_up hshare).mpr ⟨⟨hpos, hle⟩, hup, rfl⟩
  refine ⟨hrange.1, hrange.2, hhalf, fun other hpos hle => ?_, fun other hpos hle hsame => ?_⟩
  · rcases Nat.lt_or_ge oneHalf (excess share other) with hup | hdown
    · have hleast := hclosest.least _ (hmem other hpos hle hup)
      have hlt := excess_lt share other
      simp only [herror] at hleast
      omega
    · exact Nat.le_of_lt (Nat.lt_of_le_of_lt hdown hhalf)
  · refine hclosest.finest _ (hmem other hpos hle (hsame ▸ hhalf)) ?_
    simp only [herror, hsame]

/-- If nothing rounds down, every multiple is above a whole number by more than half. -/
theorem half_lt_of_closest?_down (hshare : share < unity)
    (h : closest? (offers share .down) = none) (hpos : 1 ≤ denominator)
    (hle : denominator ≤ 255) : oneHalf < excess share denominator := by
  refine Nat.lt_of_not_le fun hdown => ?_
  have hmem : ⟨denominator, excess share denominator⟩ ∈ offers share .down :=
    (mem_offers_down hshare).mpr ⟨⟨hpos, hle⟩, hdown, rfl⟩
  rw [closest?_eq_none_iff.mp h] at hmem
  exact List.not_mem_nil hmem

/-- If nothing rounds up, every multiple is above a whole number by at most half. -/
theorem le_half_of_closest?_up (hshare : share < unity)
    (h : closest? (offers share .up) = none) (hpos : 1 ≤ denominator)
    (hle : denominator ≤ 255) : excess share denominator ≤ oneHalf := by
  refine Nat.le_of_not_lt fun hup => ?_
  have hmem : ⟨denominator, unity - excess share denominator⟩ ∈ offers share .up :=
    (mem_offers_up hshare).mpr ⟨⟨hpos, hle⟩, hup, rfl⟩
  rw [closest?_eq_none_iff.mp h] at hmem
  exact List.not_mem_nil hmem

end PacedAudio.Divider
