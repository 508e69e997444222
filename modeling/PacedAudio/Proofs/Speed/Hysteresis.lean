/-
# PacedAudio.Proofs.Speed.Hysteresis — what a history of fills does to the speed

One look at the fill leaves the speed in force or changes to the other one (`next_eq`). Here many
looks follow each other, and what they do together is read off the history of the fills without
going through it (`history_decides_speed`):

* the speed at the end is the one that the last fill outside the band calls for (`speedAfter_eq`);
* the changes take turns, the first one is away from the speed at the start (`changes_getElem?`);
* each of them comes at the first fill that playback has to leave its speed at, counted from the
  change before (`reached_of_change`, `Reached.first_change`).

Only the first of these needs the low mark at or below the high one: a fill at the high mark or
above and below the low one would call for both speeds.
-/

import Mathlib.Order.Bounds.Basic
import PacedAudio.Speed

namespace PacedAudio.Watermarks

variable {marks : Watermarks} {speed held : Speed} {fill start place : Nat} {fills : List Nat}

/-! ## The speed at the end -/

/-- The speed that a fill calls for whatever the speed is: fast from the high mark up, nominal below
the low one, and none in the band between them. -/
def demand? (marks : Watermarks) (fill : Nat) : Option Speed :=
  if marks.high ≤ fill then some .fast
  else if fill < marks.low then some .nominal
  else none

/-- The speed that looks at a history of fills lead to. -/
def speedAfter (marks : Watermarks) (speed : Speed) (fills : List Nat) : Speed :=
  ((marks.trace speed fills).map Prod.fst).getLastD speed

@[simp] theorem speedAfter_cons (marks : Watermarks) (speed : Speed) (fill : Nat)
    (rest : List Nat) :
    marks.speedAfter speed (fill :: rest) = marks.speedAfter (marks.next speed fill).1 rest := by
  rw [speedAfter, trace, List.map_cons, List.getLastD_cons]
  rfl

theorem speedAfter_append (marks : Watermarks) (speed : Speed) (before after : List Nat) :
    marks.speedAfter speed (before ++ after)
      = marks.speedAfter (marks.speedAfter speed before) after := by
  induction before generalizing speed with
  | nil => rfl
  | cons fill rest ih => rw [List.cons_append, speedAfter_cons, speedAfter_cons, ih]

/-- A fill outside the band decides the next speed, and a fill inside keeps the one there is. -/
theorem next_eq_demand? (hmarks : marks.low ≤ marks.high) (speed : Speed) (fill : Nat) :
    (marks.next speed fill).1 = (marks.demand? fill).getD speed := by
  rw [demand?]
  by_cases hhigh : marks.high ≤ fill
  · have hlow : ¬ fill < marks.low := Nat.not_lt.mpr (Nat.le_trans hmarks hhigh)
    cases speed <;> simp [next, hhigh, hlow]
  · cases speed <;> by_cases hlow : fill < marks.low <;> simp [next, hhigh, hlow]

/-- The last fill outside the band decides the speed at the end. -/
theorem speedAfter_eq (hmarks : marks.low ≤ marks.high) (speed : Speed) (fills : List Nat) :
    marks.speedAfter speed fills = (fills.filterMap marks.demand?).getLast?.getD speed := by
  induction fills generalizing speed with
  | nil => rfl
  | cons fill rest ih =>
    rw [speedAfter_cons, ih, next_eq_demand? hmarks]
    cases hdemand : marks.demand? fill with
    | none => rw [List.filterMap_cons_none hdemand, Option.getD_none]
    | some called =>
      rw [List.filterMap_cons_some hdemand, List.getLast?_cons, Option.getD_some, Option.getD_some]

/-! ## The changes in turn -/

/-- What each look at a history of fills asks of the divider. -/
def asked (marks : Watermarks) (speed : Speed) (fills : List Nat) : List SpeedChange :=
  (marks.trace speed fills).map Prod.snd

/-- The changes among them. -/
def changes (marks : Watermarks) (speed : Speed) (fills : List Nat) : List SpeedChange :=
  (marks.asked speed fills).filter (· ≠ .hold)

theorem changes_cons (marks : Watermarks) (speed : Speed) (fill : Nat) (rest : List Nat) :
    marks.changes speed (fill :: rest)
      = if marks.Leaves speed fill then speed.leaving :: marks.changes speed.other rest
        else marks.changes speed rest := by
  by_cases hleaves : marks.Leaves speed fill
  · simp [changes, asked, trace, next_of_leaves hleaves, if_pos hleaves, speed.leaving_ne_hold]
  · simp [changes, asked, trace, next_of_not_leaves hleaves, if_neg hleaves]

/-- The changes take turns, from the one that leaves the speed at the start. -/
theorem changes_getElem? {change : SpeedChange}
    (h : (marks.changes speed fills)[place]? = some change) :
    change = if place % 2 = 0 then speed.leaving else speed.other.leaving := by
  induction fills generalizing speed place with
  | nil => simp [changes, asked, trace] at h
  | cons fill rest ih =>
    rw [changes_cons] at h
    split at h
    · cases place with
      | zero => exact (Option.some.inj h).symm
      | succ place =>
        -- The rest starts from the other speed, and its places are counted from one on.
        rw [List.getElem?_cons_succ] at h
        rw [ih h, Speed.other_other]
        by_cases heven : place % 2 = 0
        · rw [if_pos heven, if_neg (by omega)]
        · rw [if_neg heven, if_pos (by omega)]
    · exact ih h

/-! ## What a look finds -/

/-- The speed that a look finds, by its place in the history. -/
def speedAt (marks : Watermarks) (speed : Speed) (fills : List Nat) (place : Nat) : Speed :=
  marks.speedAfter speed (fills.take place)

/-- A look finds a fill that playback has to leave a speed at. -/
def LeavesAt (marks : Watermarks) (fills : List Nat) (held : Speed) (place : Nat) : Prop :=
  ∃ fill ∈ fills[place]?, marks.Leaves held fill

instance (marks : Watermarks) (fills : List Nat) (held : Speed) (place : Nat) :
    Decidable (marks.LeavesAt fills held place) :=
  inferInstanceAs (Decidable (∃ fill ∈ fills[place]?, marks.Leaves held fill))

theorem speedAt_succ (marks : Watermarks) (speed : Speed) (fills : List Nat) (place : Nat) :
    marks.speedAt speed fills (place + 1)
      = marks.speedAfter (marks.speedAt speed fills place) fills[place]?.toList := by
  rw [speedAt, List.take_add_one, speedAfter_append]
  rfl

theorem speedAt_succ_of_leaves (h : marks.LeavesAt fills (marks.speedAt speed fills place) place) :
    marks.speedAt speed fills (place + 1) = (marks.speedAt speed fills place).other := by
  obtain ⟨fill, hfill, hleaves⟩ := h
  rw [speedAt_succ, Option.mem_def.mp hfill, Option.toList_some, speedAfter_cons,
    next_of_leaves hleaves]
  rfl

theorem speedAt_succ_of_not_leaves
    (h : ¬ marks.LeavesAt fills (marks.speedAt speed fills place) place) :
    marks.speedAt speed fills (place + 1) = marks.speedAt speed fills place := by
  rw [speedAt_succ]
  cases hfill : fills[place]? with
  | none => rfl
  | some fill =>
    have hstays : ¬ marks.Leaves (marks.speedAt speed fills place) fill := fun hleaves =>
      h ⟨fill, hfill, hleaves⟩
    rw [Option.toList_some, speedAfter_cons, next_of_not_leaves hstays]
    rfl

/-- What a look asks for, it asks for from the speed that it finds. -/
theorem asked_getElem? (marks : Watermarks) (speed : Speed) (fills : List Nat) (place : Nat) :
    (marks.asked speed fills)[place]?
      = fills[place]?.map fun fill => (marks.next (marks.speedAt speed fills place) fill).2 := by
  induction fills generalizing speed place with
  | nil => rfl
  | cons fill rest ih =>
    cases place with
    | zero => rfl
    | succ place =>
      rw [speedAt, List.take_succ_cons, speedAfter_cons]
      exact ih (marks.next speed fill).1 place

/-- The change away from a speed is asked for when playback runs at it and has to leave it. -/
theorem next_eq_leaving_iff :
    (marks.next speed fill).2 = held.leaving ↔ speed = held ∧ marks.Leaves held fill := by
  constructor
  · intro hchange
    by_cases hleaves : marks.Leaves speed fill
    · rw [next_of_leaves hleaves] at hchange
      obtain rfl := Speed.leaving_inj.mp hchange
      exact ⟨rfl, hleaves⟩
    · rw [next_of_not_leaves hleaves] at hchange
      exact absurd hchange.symm held.leaving_ne_hold
  · rintro ⟨rfl, hleaves⟩
    rw [next_of_leaves hleaves]

theorem asked_eq_leaving_iff :
    (marks.asked speed fills)[place]? = some held.leaving
      ↔ marks.speedAt speed fills place = held ∧ marks.LeavesAt fills held place := by
  rw [asked_getElem?, Option.map_eq_some_iff]
  constructor
  · rintro ⟨fill, hfill, hchange⟩
    obtain ⟨hspeed, hleaves⟩ := next_eq_leaving_iff.mp hchange
    exact ⟨hspeed, fill, hfill, hleaves⟩
  · rintro ⟨hspeed, fill, hfill, hleaves⟩
    exact ⟨fill, hfill, next_eq_leaving_iff.mpr ⟨hspeed, hleaves⟩⟩

theorem asked_eq_hold (hlength : place < fills.length)
    (h : ¬ marks.LeavesAt fills (marks.speedAt speed fills place) place) :
    (marks.asked speed fills)[place]? = some .hold := by
  have hfill : fills[place]? = some fills[place] := List.getElem?_eq_getElem hlength
  have hstays : ¬ marks.Leaves (marks.speedAt speed fills place) fills[place] := fun hleaves =>
    h ⟨fills[place], hfill, hleaves⟩
  rw [asked_getElem?, hfill, Option.map_some, next_of_not_leaves hstays]

/-! ## When a change comes -/

/-- The looks from `start` on find playback at a speed that it has just come to: it was at it in the
first place, or the look before has asked for the change away from the other one. -/
def Reached (marks : Watermarks) (speed : Speed) (fills : List Nat) (held : Speed) (start : Nat) :
    Prop :=
  start = 0 ∧ held = speed
    ∨ ∃ look, start = look + 1 ∧ (marks.asked speed fills)[look]? = some held.other.leaving

/-- Of the looks from `start` on, the first one that playback has to leave a speed at. -/
def IsFirstLeaving (marks : Watermarks) (fills : List Nat) (held : Speed) (start place : Nat) :
    Prop :=
  IsLeast {look | start ≤ look ∧ marks.LeavesAt fills held look} place

/-- No look from `start` up to `place` is one that playback has to leave a speed at. -/
def Keeps (marks : Watermarks) (fills : List Nat) (held : Speed) (start place : Nat) : Prop :=
  ∀ look, start ≤ look → look < place → ¬ marks.LeavesAt fills held look

theorem isFirstLeaving_iff :
    marks.IsFirstLeaving fills held start place
      ↔ start ≤ place ∧ marks.LeavesAt fills held place ∧ marks.Keeps fills held start place := by
  constructor
  · rintro ⟨⟨hle, hleaves⟩, hleast⟩
    exact ⟨hle, hleaves, fun look hstart hlook hleaves' =>
      Nat.not_le.mpr hlook (hleast ⟨hstart, hleaves'⟩)⟩
  · rintro ⟨hle, hleaves, hkeeps⟩
    exact ⟨⟨hle, hleaves⟩, fun look ⟨hstart, hleaves'⟩ =>
      Nat.le_of_not_lt fun hlook => hkeeps look hstart hlook hleaves'⟩

theorem Reached.speedAt (h : marks.Reached speed fills held start) :
    marks.speedAt speed fills start = held := by
  rcases h with ⟨rfl, rfl⟩ | ⟨look, rfl, hchange⟩
  · rfl
  · obtain ⟨hspeed, hleaves⟩ := asked_eq_leaving_iff.mp hchange
    rw [speedAt_succ_of_leaves (hspeed ▸ hleaves), hspeed, Speed.other_other]

theorem Keeps.speedAt (h : marks.Keeps fills held start place) (hle : start ≤ place)
    (hspeed : marks.speedAt speed fills start = held) :
    marks.speedAt speed fills place = held := by
  induction place, hle using Nat.le_induction with
  | base => exact hspeed
  | succ place hle ih =>
    have hfinds := ih fun look hstart hlook => h look hstart (Nat.lt_succ_of_lt hlook)
    have hstays := h place hle (Nat.lt_succ_self place)
    rw [← hfinds] at hstays
    rw [speedAt_succ_of_not_leaves hstays, hfinds]

/-- Once a speed is reached, the next change is away from it and comes at the first look to leave it
at. -/
theorem Reached.first_change (h : marks.Reached speed fills held start)
    (hfirst : marks.IsFirstLeaving fills held start place) :
    (marks.asked speed fills)[place]? = some held.leaving
      ∧ ∀ look, start ≤ look → look < place → (marks.asked speed fills)[look]? = some .hold := by
  obtain ⟨hle, hleaves, hkeeps⟩ := isFirstLeaving_iff.mp hfirst
  refine ⟨asked_eq_leaving_iff.mpr ⟨hkeeps.speedAt hle h.speedAt, hleaves⟩,
    fun look hstart hlook => ?_⟩
  obtain ⟨fill, hfill, -⟩ := hleaves
  have hlength : place < fills.length := (List.getElem?_eq_some_iff.mp hfill).1
  have hbefore : marks.Keeps fills held start look := fun look' hstart' hlook' =>
    hkeeps look' hstart' (Nat.lt_trans hlook' hlook)
  have hstays := hkeeps look hstart hlook
  rw [← hbefore.speedAt hstart h.speedAt] at hstays
  exact asked_eq_hold (Nat.lt_trans hlook hlength) hstays

/-- The speed that a look finds was reached before, and no look since then was one to leave it at.
By induction on the place of the look: where it was left, the other one is reached. -/
theorem exists_reached (marks : Watermarks) (speed : Speed) (fills : List Nat) (place : Nat) :
    ∃ start ≤ place, marks.Reached speed fills (marks.speedAt speed fills place) start
      ∧ marks.Keeps fills (marks.speedAt speed fills place) start place := by
  induction place with
  | zero =>
    exact ⟨0, Nat.le_refl 0, .inl ⟨rfl, rfl⟩, fun look _ hlook => absurd hlook look.not_lt_zero⟩
  | succ place ih =>
    by_cases hleaves : marks.LeavesAt fills (marks.speedAt speed fills place) place
    · refine ⟨place + 1, Nat.le_refl _, .inr ⟨place, rfl, ?_⟩,
        fun look hstart hlook => absurd hlook (Nat.not_lt.mpr hstart)⟩
      rw [speedAt_succ_of_leaves hleaves, Speed.other_other]
      exact asked_eq_leaving_iff.mpr ⟨rfl, hleaves⟩
    · obtain ⟨start, hle, hreached, hkeeps⟩ := ih
      rw [speedAt_succ_of_not_leaves hleaves]
      refine ⟨start, Nat.le_succ_of_le hle, hreached, fun look hstart hlook => ?_⟩
      rcases Nat.lt_succ_iff_lt_or_eq.mp hlook with hbefore | rfl
      · exact hkeeps look hstart hbefore
      · exact hleaves

/-- Each change comes at the first look to leave its speed at since that speed was reached. -/
theorem reached_of_change (h : (marks.asked speed fills)[place]? = some held.leaving) :
    ∃ start, marks.Reached speed fills held start
      ∧ marks.IsFirstLeaving fills held start place := by
  obtain ⟨rfl, hleaves⟩ := asked_eq_leaving_iff.mp h
  obtain ⟨start, hle, hreached, hkeeps⟩ := exists_reached marks speed fills place
  exact ⟨start, hreached, isFirstLeaving_iff.mpr ⟨hle, hleaves, hkeeps⟩⟩

/-! ## The whole history -/

/-- Looks at any fills, one after the other, from either speed, with the low mark at or below the
high one. The speed at the end is fast if the last fill outside the band is at the high mark or
above, nominal if it is below the low mark, and the one at the start if there is no such fill. The
changes speed up and slow down in turn, and the first one leaves the speed at the start. A change
away from a speed comes at the first look to leave it at since that speed was reached, by a change
or from the start on, and at each such look it comes, with no change in between.

The marks of a capacity are there if five times the capacity fits its word. They share the capacity
between them, and the low one is below the high one. -/
theorem history_decides_speed :
    (∀ (marks : Watermarks) (speed : Speed) (fills : List Nat), marks.low ≤ marks.high →
      marks.speedAfter speed fills = (fills.filterMap marks.demand?).getLast?.getD speed
        ∧ (∀ place change, (marks.changes speed fills)[place]? = some change →
          change = if place % 2 = 0 then speed.leaving else speed.other.leaving)
        ∧ (∀ (held : Speed) (place : Nat), (marks.asked speed fills)[place]? = some held.leaving →
          ∃ start, marks.Reached speed fills held start
            ∧ marks.IsFirstLeaving fills held start place)
        ∧ ∀ held start place, marks.Reached speed fills held start →
          marks.IsFirstLeaving fills held start place →
            (marks.asked speed fills)[place]? = some held.leaving
              ∧ ∀ look, start ≤ look → look < place →
                (marks.asked speed fills)[look]? = some .hold)
      ∧ ∀ capacity, 0 < capacity →
        ((∃ marks, ofCapacity? capacity = .ok marks) ↔ capacity * 5 < Word.bound 64)
          ∧ ∀ marks, ofCapacity? capacity = .ok marks →
            marks.low + marks.high = capacity ∧ marks.low < marks.high := by
  refine ⟨fun marks speed fills hmarks => ⟨speedAfter_eq hmarks speed fills,
    fun _ _ => changes_getElem?, fun _ _ => reached_of_change,
    fun _ _ _ hreached => hreached.first_change⟩, fun capacity hpos => ⟨?_, fun marks h => ?_⟩⟩
  · constructor
    · rintro ⟨marks, h⟩
      exact (ofCapacity?_eq_ok.mp h).1
    · intro hfits
      exact ⟨ofCapacity capacity, ofCapacity?_of_lt hfits⟩
  · obtain ⟨-, rfl⟩ := ofCapacity?_eq_ok.mp h
    exact ⟨low_add_high capacity, low_lt_high hpos⟩

/-- The marks of 1764 bytes, and fills that touch the band from both sides before they jump across
it. Playback slows down at the third look. It speeds up again at the sixth one, the first from there
on that is not below the high mark. -/
theorem history_decides_speed_across_band :
    let marks : Watermarks := ⟨1103, 661⟩
    let fills : List Nat := [1102, 661, 660, 661, 1102, 1103, 0, 1764, 700]
    ofCapacity? 1764 = .ok marks ∧ 0 < 1764 ∧ marks.low ≤ marks.high
      ∧ marks.low + marks.high = 1764 ∧ marks.low < marks.high
      ∧ marks.speedAfter .fast fills = .fast
      ∧ (marks.changes .fast fills)[3]? = some .speedUp
      ∧ SpeedChange.speedUp = Speed.fast.other.leaving
      ∧ marks.Reached .fast fills .nominal 3 ∧ marks.IsFirstLeaving fills .nominal 3 5
      ∧ (marks.asked .fast fills)[5]? = some .speedUp
      ∧ (marks.asked .fast fills)[4]? = some .hold
      ∧ (marks.asked .fast fills)[6]? = some .slowDown
      ∧ ∃ start, marks.Reached .fast fills .fast start
        ∧ marks.IsFirstLeaving fills .fast start 6 := by
  intro marks fills
  obtain ⟨hhistory, hcapacity⟩ := history_decides_speed
  have hmarks : marks.low ≤ marks.high := by decide
  have hok : ofCapacity? 1764 = .ok marks := rfl
  have hlast : (marks.changes .fast fills)[3]? = some .speedUp := rfl
  have hreached : marks.Reached .fast fills .nominal 3 := .inr ⟨2, rfl, rfl⟩
  have hfirst : marks.IsFirstLeaving fills .nominal 3 5 := by
    refine isFirstLeaving_iff.mpr ⟨by decide, by decide, fun look hstart hlook => ?_⟩
    obtain rfl | rfl : look = 3 ∨ look = 4 := by omega
    · decide
    · decide
  obtain ⟨hshared, hlt⟩ := (hcapacity 1764 (by decide)).2 marks hok
  obtain ⟨hend, hturns, hchange, hnext⟩ := hhistory marks .fast fills hmarks
  obtain ⟨hsixth, hheld⟩ := hnext .nominal 3 5 hreached hfirst
  have hseventh : (marks.asked .fast fills)[6]? = some .slowDown := rfl
  exact ⟨hok, by decide, hmarks, hshared, hlt, hend, hlast, hturns 3 .speedUp hlast, hreached,
    hfirst, hsixth, hheld 4 (by decide) (by decide), hseventh, hchange .fast 6 hseventh⟩

end PacedAudio.Watermarks
