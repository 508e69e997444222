/-
# PacedAudio.Speed — two playback speeds and the hysteresis between them

Playback runs at a *nominal* speed a little below the host's and a *fast* one a little above.
Which of the two is right is read off the fill of the ring, with two watermarks: at `high` or
above playback speeds up, below `low` it slows down again, and between them the speed stays as it
is, so a fill that wobbles inside the band never switches.
-/

import PacedAudio.Fault

namespace PacedAudio

/-- The speed that playback runs at. -/
inductive Speed where
  /-- A little slower than the host. -/
  | nominal
  /-- A little faster than the host. -/
  | fast
deriving DecidableEq, Repr, Inhabited

/-- The speed that is changed to. -/
def Speed.other : Speed → Speed
  | .nominal => .fast
  | .fast => .nominal

/-- What a look at the fill asks of the clock divider. -/
inductive SpeedChange where
  /-- Leave the divider alone. -/
  | hold
  /-- Program the fast ratio. -/
  | speedUp
  /-- Program the nominal ratio. -/
  | slowDown
deriving DecidableEq, Repr

namespace Speed

/-- The change that leaves a speed. -/
def leaving : Speed → SpeedChange
  | .nominal => .speedUp
  | .fast => .slowDown

@[simp] theorem other_other (speed : Speed) : speed.other.other = speed := by
  cases speed <;> rfl

theorem leaving_ne_hold (speed : Speed) : speed.leaving ≠ .hold := by
  cases speed <;> decide

theorem leaving_inj {speed held : Speed} : speed.leaving = held.leaving ↔ speed = held := by
  cases speed <;> cases held <;> decide

end Speed

/-- Fill levels, in bytes, at which the speed changes. -/
structure Watermarks where
  /-- At this fill or above, playback speeds up. -/
  high : Nat
  /-- Below this fill, playback slows down. -/
  low : Nat
deriving DecidableEq, Repr

namespace Watermarks

/-! ## Marks of a ring -/

/-- Five eighths of the capacity, rounded up, and three eighths, rounded down. -/
def ofCapacity (capacity : Nat) : Watermarks :=
  ⟨(capacity * 5 + 7) / 8, capacity * 3 / 8⟩

/-- The marks of a capacity held in 64 bits; the multiples that they are computed from must fit
too. -/
def ofCapacity? (capacity : Nat) : Checked Watermarks := do
  let five ← Word.mul 64 capacity 5
  let three ← Word.mul 64 capacity 3
  pure ⟨(five + 7) / 8, three / 8⟩

theorem ofCapacity?_of_lt {capacity : Nat} (h : capacity * 5 < Word.bound 64) :
    ofCapacity? capacity = .ok (ofCapacity capacity) := by
  simp only [ofCapacity?, Word.mul_of_lt h,
    Word.mul_of_lt (show capacity * 3 < Word.bound 64 by omega)]
  rfl

/-- There are marks of a capacity exactly if five times the capacity fits. -/
theorem ofCapacity?_eq_ok {capacity : Nat} {marks : Watermarks} :
    ofCapacity? capacity = .ok marks
      ↔ capacity * 5 < Word.bound 64 ∧ ofCapacity capacity = marks := by
  rcases Nat.lt_or_ge (capacity * 5) (Word.bound 64) with hfits | hwide
  · rw [ofCapacity?_of_lt hfits, Except.ok.injEq, and_iff_right hfits]
  · have hfault : ofCapacity? capacity = .error .productOutOfRange := by
      rw [ofCapacity?, Word.mul_of_le hwide]
      rfl
    rw [hfault]
    constructor
    · rintro ⟨⟩
    · rintro ⟨hfits, -⟩
      exact absurd hfits (Nat.not_lt.mpr hwide)

/-- The two marks share the capacity between them. -/
theorem low_add_high (capacity : Nat) :
    (ofCapacity capacity).low + (ofCapacity capacity).high = capacity := by
  simp only [ofCapacity]
  omega

theorem low_lt_high {capacity : Nat} (h : 0 < capacity) :
    (ofCapacity capacity).low < (ofCapacity capacity).high := by
  simp only [ofCapacity]
  omega

theorem high_le (capacity : Nat) : (ofCapacity capacity).high ≤ capacity := by
  simp only [ofCapacity]
  omega

/-! ## The next speed -/

/-- The speed after a look at a ring in which `fill` bytes wait, and the change that leads to it. -/
def next (marks : Watermarks) (speed : Speed) (fill : Nat) : Speed × SpeedChange :=
  match speed with
  | .nominal => if marks.high ≤ fill then (.fast, .speedUp) else (.nominal, .hold)
  | .fast => if fill < marks.low then (.nominal, .slowDown) else (.fast, .hold)

/-- A fill that playback has to leave a speed at: from the high mark up it leaves the nominal one,
below the low mark the fast one. -/
def Leaves (marks : Watermarks) : Speed → Nat → Prop
  | .nominal, fill => marks.high ≤ fill
  | .fast, fill => fill < marks.low

instance (marks : Watermarks) (speed : Speed) (fill : Nat) : Decidable (marks.Leaves speed fill) :=
  match speed with
  | .nominal => inferInstanceAs (Decidable (marks.high ≤ fill))
  | .fast => inferInstanceAs (Decidable (fill < marks.low))

/-- Looks at each fill in turn, each from the speed that the one before left. -/
def trace (marks : Watermarks) (speed : Speed) : List Nat → List (Speed × SpeedChange)
  | [] => []
  | fill :: rest =>
    let step := marks.next speed fill
    step :: marks.trace step.1 rest

/-- Everything that one look does. -/
theorem next_eq (marks : Watermarks) (speed : Speed) (fill : Nat) :
    marks.next speed fill
      = if marks.Leaves speed fill then (speed.other, speed.leaving) else (speed, .hold) := by
  cases speed <;> rfl

theorem next_of_leaves {marks : Watermarks} {speed : Speed} {fill : Nat}
    (h : marks.Leaves speed fill) : marks.next speed fill = (speed.other, speed.leaving) := by
  rw [next_eq, if_pos h]

theorem next_of_not_leaves {marks : Watermarks} {speed : Speed} {fill : Nat}
    (h : ¬ marks.Leaves speed fill) : marks.next speed fill = (speed, .hold) := by
  rw [next_eq, if_neg h]

theorem next_hold_iff {marks : Watermarks} {speed : Speed} {fill : Nat} :
    (marks.next speed fill).2 = .hold ↔ (marks.next speed fill).1 = speed := by
  cases speed <;> simp only [next] <;> split <;> simp

theorem next_of_ne_hold {marks : Watermarks} {speed : Speed} {fill : Nat}
    (h : (marks.next speed fill).2 ≠ .hold) : (marks.next speed fill).1 = speed.other := by
  revert h
  cases speed <;> simp only [next] <;> split <;> simp [Speed.other]

@[simp] theorem length_trace (marks : Watermarks) (speed : Speed) (fills : List Nat) :
    (marks.trace speed fills).length = fills.length := by
  induction fills generalizing speed with
  | nil => rfl
  | cons fill rest ih => simp [trace, ih]

end Watermarks

end PacedAudio
