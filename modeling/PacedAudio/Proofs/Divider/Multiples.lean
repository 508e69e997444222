/-
# PacedAudio.Proofs.Divider.Multiples — how close the multiples of a share come

How far above or below a whole number is the best multiple of a share by a denominator up to 255?
Put on a circle of one, the multiples by the first few denominators keep as far apart from each
other as the best of all keeps from zero, because the difference of two multiples is a multiple
again. There is no room on the circle for many that are far apart (`room_for_multiples`).

Two bounds follow for a share that is not tiny. A small denominator leaves room for many multiples,
so its error is small; a great denominator may have an error up to the share itself, and still its
numerator is off by little (`LeastExcess.relative_error`, `GreatestExcess.relative_error`).
-/

import Mathlib.Data.Finset.Card
import Mathlib.Data.Finset.Prod
import Mathlib.Data.Nat.ModEq
import Mathlib.Tactic.Ring
import PacedAudio.Proofs.Divider.Closest

namespace PacedAudio.Divider

/-! ## Room on a circle -/

section Circle

variable {step circle limit first least : Nat}

/-- One turn at most brings a number below twice the circle back onto it. -/
theorem mod_of_lt_two_mul {a : Nat} (h : a < 2 * circle) :
    a % circle = if a < circle then a else a - circle := by
  split
  · next hlt => exact Nat.mod_eq_of_lt hlt
  · next hge =>
    rw [Nat.mod_eq_sub_mod (Nat.not_lt.mp hge)]
    exact Nat.mod_eq_of_lt (by omega)

/-- If no multiple up to `limit` is nearer above zero than the one by `first`, then no multiple by
less than the rest, moved on by less than that, is where an earlier one is, moved on likewise. -/
theorem multiples_apart (hfirst : step * first % circle = least)
    (hleast : ∀ other, 1 ≤ other → other ≤ limit → step * other % circle ≠ 0 →
      least ≤ step * other % circle)
    (hnonzero : ∀ other, 1 ≤ other → other + first ≤ limit → step * other % circle ≠ 0)
    (hcircle : 0 < circle) {i j s t : Nat} (hij : i < j) (hj : j + first ≤ limit)
    (hs : s < least) (ht : t < least) :
    (step * i + s) % circle ≠ (step * j + t) % circle := by
  intro hsame
  obtain ⟨k, rfl⟩ := Nat.exists_eq_add_of_lt hij
  have hlt : least < circle := hfirst ▸ Nat.mod_lt _ hcircle
  have hk : k + 1 + first ≤ limit := by omega
  -- The difference of the two is the multiple by `k + 1`, which so is close to zero.
  have hdifference : s = (step * (k + 1) % circle + t) % circle := by
    have hcancel : s ≡ step * (k + 1) + t [MOD circle] := by
      apply Nat.ModEq.add_left_cancel' (step * i)
      rw [Nat.ModEq, hsame]
      congr 1
      ring
    rw [Nat.mod_add_mod]
    exact (Nat.mod_eq_of_lt (Nat.lt_trans hs hlt)).symm.trans hcancel
  have hmultiple := Nat.mod_lt (step * (k + 1)) hcircle
  have hfar := hleast (k + 1) (by omega) (by omega) (hnonzero (k + 1) (by omega) hk)
  rw [mod_of_lt_two_mul (by omega)] at hdifference
  split at hdifference
  · omega
  · -- It is just below zero, so the multiple by `k + 1 + first` is nearer than the nearest.
    have hsum : step * (k + 1 + first) % circle = least - (t - s) := by
      rw [Nat.mul_add, Nat.add_mod, hfirst, mod_of_lt_two_mul (by omega)]
      rw [if_neg (by omega)]
      omega
    have hnearer := hleast (k + 1 + first) (by omega) hk (by omega)
    omega

/-- So there is room for that many distances on the circle. -/
theorem room_for_multiples (hfirst : step * first % circle = least)
    (hleast : ∀ other, 1 ≤ other → other ≤ limit → step * other % circle ≠ 0 →
      least ≤ step * other % circle)
    (hnonzero : ∀ other, 1 ≤ other → other + first ≤ limit → step * other % circle ≠ 0)
    (hcircle : 0 < circle) :
    (limit + 1 - first) * least ≤ circle := by
  have hapart := @multiples_apart _ _ _ _ _ hfirst hleast hnonzero hcircle
  have hlt : least < circle := hfirst ▸ Nat.mod_lt _ hcircle
  have hcard : (Finset.range (limit + 1 - first) ×ˢ Finset.range least).card
      ≤ (Finset.range circle).card := by
    refine Finset.card_le_card_of_injOn (fun p => (step * p.1 + p.2) % circle) ?_ ?_
    · intro p _
      simpa using Nat.mod_lt _ hcircle
    · rintro ⟨i, s⟩ hi ⟨j, t⟩ hj hsame
      simp only [Finset.coe_product, Finset.coe_range, Set.mem_prod, Set.mem_Iio] at hi hj
      rcases Nat.lt_trichotomy i j with hij | rfl | hij
      · exact absurd hsame (hapart hij (by omega) hi.2 hj.2)
      · have hcancel : s ≡ t [MOD circle] := Nat.ModEq.add_left_cancel' (step * i) hsame
        rw [Nat.ModEq, Nat.mod_eq_of_lt (by omega), Nat.mod_eq_of_lt (by omega)] at hcancel
        rw [hcancel]
      · exact absurd hsame.symm (hapart hij (by omega) hj.2 hi.2)
  simpa only [Finset.card_product, Finset.card_range] using hcard

end Circle

variable {share denominator : Nat}

/-- The multiple by one is the share itself. -/
theorem excess_one (hshare : share < unity) : excess share 1 = share := by
  rw [excess, Nat.mul_one]
  exact Nat.mod_eq_of_lt hshare

/-- The multiples of a step pass any mark within 255 steps. -/
theorem exists_multiple_past {step mark : Nat} (h : mark < step * 255) :
    ∃ count, count + 1 ≤ 255 ∧ step * count ≤ mark ∧ mark < step * (count + 1) := by
  have hstep : 0 < step := Nat.pos_of_ne_zero (by rintro rfl; omega)
  exact ⟨mark / step, Nat.div_lt_of_lt_mul h, Nat.mul_div_le mark step,
    Nat.lt_mul_div_succ mark hstep⟩

/-! ## Multiples above a whole number -/

namespace LeastExcess

/-- A small denominator of least excess has a small excess. -/
theorem room (h : LeastExcess share denominator) :
    (256 - denominator) * excess share denominator ≤ unity := by
  rcases Nat.eq_zero_or_pos (excess share denominator) with hzero | hpos
  · rw [hzero]
    exact Nat.zero_le _
  · refine room_for_multiples rfl (fun other hone hle _ => h.least other hone hle) ?_ (by decide)
    intro other hone hle
    exact Nat.ne_of_gt (Nat.lt_of_lt_of_le hpos (h.least other hone (by omega)))

theorem excess_le_share (h : LeastExcess share denominator) (hshare : share < unity) :
    excess share denominator ≤ share := by
  have hone := h.least 1 (Nat.le_refl 1) (by decide)
  rwa [excess_one hshare] at hone

/-- The numerator is at least one: the multiple that first reaches one has less excess than the
share itself. -/
theorem unity_le_multiple (h : LeastExcess share denominator) (hlow : 258 ≤ share)
    (hshare : share < unity) : unity ≤ share * denominator := by
  refine Nat.le_of_not_lt fun hbelow => ?_
  have hexcess : excess share denominator = share * denominator := Nat.mod_eq_of_lt hbelow
  obtain ⟨count, hcount, hunder, hover⟩ :=
    exists_multiple_past (show 65535 < share * 255 by omega)
  have hnext : excess share (count + 1) = share * (count + 1) - unity := by
    unfold unity at hshare ⊢
    rw [Nat.mul_succ] at hover ⊢
    rw [excess, unity, Nat.mul_succ, mod_of_lt_two_mul (by omega), if_neg (by omega)]
  have hleast := h.least (count + 1) (by omega) hcount
  have hshareone : share * 1 ≤ share * denominator := Nat.mul_le_mul_left share h.pos
  rw [hexcess, hnext, Nat.mul_succ] at hleast
  unfold unity at hleast
  omega

/-- The multiple by the denominator of least excess is above a whole number by less than a
hundredth of itself, also if the share is really greater by up to a unit. -/
theorem relative_error (h : LeastExcess share denominator) (hlow : 500 ≤ share)
    (hshare : share < unity) :
    100 * excess share denominator + 99 * denominator ≤ share * denominator := by
  rcases Nat.lt_or_ge denominator 125 with hsmall | hgreat
  · -- there is room for 132 multiples
    have hwhole := h.unity_le_multiple (Nat.le_trans (by decide) hlow) hshare
    have hroom : 132 * excess share denominator ≤ unity :=
      Nat.le_trans (Nat.mul_le_mul_right _ (by omega)) h.room
    unfold unity at hroom hwhole
    omega
  · have hle := h.excess_le_share hshare
    obtain ⟨more, rfl⟩ := Nat.exists_eq_add_of_le hgreat
    have hmore : 99 * more ≤ share * more := Nat.mul_le_mul_right more (by omega)
    have hmultiple : share * (125 + more) = share * 125 + share * more := Nat.mul_add share 125 more
    omega

end LeastExcess

/-! ## Multiples below a whole number -/

/-- Where the multiples of a share fall short of a whole number, those of its complement go
beyond. -/
theorem complement_mod (hshare : share < unity) (denominator : Nat) :
    (unity - share) * denominator % unity
      = if excess share denominator = 0 then 0 else unity - excess share denominator := by
  have hsplit := whole_add_excess share denominator
  have hlt := excess_lt share denominator
  have hsum : share * denominator + (unity - share) * denominator = unity * denominator := by
    rw [← Nat.add_mul, Nat.add_sub_of_le (Nat.le_of_lt hshare)]
  unfold unity at *
  split
  · omega
  · omega

namespace GreatestExcess

/-- A small denominator of greatest excess falls short by little. -/
theorem room (h : GreatestExcess share denominator) (hshare : share < unity) :
    (256 - denominator) * (unity - excess share denominator) ≤ unity := by
  have hhalf := h.half
  have hlt := excess_lt share denominator
  unfold oneHalf at hhalf
  have hfirst : (unity - share) * denominator % unity = unity - excess share denominator := by
    rw [complement_mod hshare, if_neg (by omega)]
  refine room_for_multiples hfirst ?_ ?_ (by decide)
  · intro other hone hle hnonzero
    rw [complement_mod hshare] at hnonzero ⊢
    split at hnonzero
    · exact absurd rfl hnonzero
    · next hexcess =>
      rw [if_neg hexcess]
      exact Nat.sub_le_sub_left (h.greatest other hone hle) _
  · -- Adding a multiple without excess would give a greater denominator that comes as close.
    intro other hone hle hzero
    rw [complement_mod hshare] at hzero
    split at hzero
    · next hexcess =>
      have hsame : excess share (other + denominator) = excess share denominator := by
        have hother : share * other % unity = 0 := hexcess
        rw [excess, Nat.mul_add, Nat.add_mod, hother, Nat.zero_add, Nat.mod_mod]
        rfl
      have hfinest := h.finest (other + denominator) (by omega) hle hsame
      omega
    · have hother := excess_lt share other
      omega

theorem shortfall_le_share (h : GreatestExcess share denominator) (hlow : 258 ≤ share)
    (hshare : share < unity) : unity - excess share denominator ≤ share := by
  obtain ⟨count, hcount, hunder, hover⟩ :=
    exists_multiple_past (show 65535 < share * 255 by omega)
  unfold unity at hshare ⊢
  have hexcess : excess share count = share * count :=
    Nat.mod_eq_of_lt (Nat.lt_of_le_of_lt hunder (by decide))
  rw [Nat.mul_succ] at hover
  have hpos : count ≠ 0 := by
    rintro rfl
    omega
  have hgreatest := h.greatest count (by omega) (by omega)
  omega

/-- The multiple by the denominator of greatest excess falls short of a whole number by less than a
hundredth of itself. -/
theorem relative_error (h : GreatestExcess share denominator) (hlow : 258 ≤ share)
    (hshare : share < unity) :
    100 * (unity - excess share denominator) ≤ share * denominator := by
  rcases Nat.lt_or_ge denominator 100 with hsmall | hgreat
  · -- there is room for 157 multiples
    have hroom : 157 * (unity - excess share denominator) ≤ unity :=
      Nat.le_trans (Nat.mul_le_mul_right _ (by omega)) (h.room hshare)
    have hmultiple : excess share denominator ≤ share * denominator := Nat.mod_le _ _
    have hlt := excess_lt share denominator
    unfold unity at hroom hlt ⊢
    omega
  · calc 100 * (unity - excess share denominator)
        ≤ 100 * share := Nat.mul_le_mul_left 100 (h.shortfall_le_share hlow hshare)
      _ = share * 100 := Nat.mul_comm 100 share
      _ ≤ share * denominator := Nat.mul_le_mul_left share hgreat

end GreatestExcess

/-! ## Shares that only round up -/

/-- A multiple of the complement short of one is what the multiple of the share falls short by. -/
theorem excess_add_complement (hshare : share < unity) (hpos : 1 ≤ denominator)
    (hlt : (unity - share) * denominator < unity) :
    excess share denominator + (unity - share) * denominator = unity := by
  have hmod := complement_mod hshare denominator
  have hcomplement : 0 < (unity - share) * denominator := Nat.mul_pos (by omega) hpos
  rw [Nat.mod_eq_of_lt hlt] at hmod
  split at hmod
  · omega
  · have hexcess := excess_lt share denominator
    omega

/-- If every multiple is above a whole number by more than half, the share is just below one. -/
theorem unity_le_of_half_lt (hshare : share < unity)
    (hhalf : ∀ other, 1 ≤ other → other ≤ 255 → oneHalf < excess share other) :
    unity ≤ share + 128 := by
  have hone := hhalf 1 (Nat.le_refl 1) (by decide)
  rw [excess_one hshare] at hone
  refine Nat.le_of_not_lt fun hfar => ?_
  -- The multiples of the complement come by between a half and one.
  obtain ⟨count, hcount, hunder, hover⟩ :=
    exists_multiple_past (show 32767 < (unity - share) * 255 by omega)
  have hnext : (unity - share) * (count + 1) < unity := by
    rw [Nat.mul_succ]
    unfold unity oneHalf at *
    omega
  have hpast := hhalf (count + 1) (by omega) hcount
  have hsum := excess_add_complement hshare (by omega) hnext
  unfold unity oneHalf at *
  omega

/-- For such a share the closest denominator is one. -/
theorem GreatestExcess.eq_one (h : GreatestExcess share denominator) (hshare : share < unity)
    (hnear : unity ≤ share + 128) : denominator = 1 := by
  have hmultiple : (unity - share) * denominator ≤ 128 * 255 := Nat.mul_le_mul (by omega) h.le
  have hsum := excess_add_complement hshare h.pos (by unfold unity at *; omega)
  have hgreatest := h.greatest 1 (Nat.le_refl 1) (by decide)
  rw [excess_one hshare] at hgreatest
  have hle : (unity - share) * denominator ≤ (unity - share) * 1 := by omega
  exact Nat.le_antisymm (Nat.le_of_mul_le_mul_left hle (by omega)) h.pos

end PacedAudio.Divider
