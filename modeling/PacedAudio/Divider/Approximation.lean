/-
# PacedAudio.Divider.Approximation — the two ratios closest to a sample rate

The master clock of a rate is a *share* of the peripheral clock. With `n` prescaler stages the
fractional divider has to supply `n` times that share, and `n` is chosen as large as possible
while this stays below one, which leaves the most resolution to a ratio of two bytes.

The share is then approximated. It is held in units of 1/65536, and each denominator from 255 down
to 1 is judged by how close its multiple of the share comes to a whole number: from above, if the
multiple has at most half a unit too much and the numerator is rounded down, or from below, if the
numerator is rounded up. The best denominator of each kind gives one ratio, whose numerator is
computed from the exact share. The ratio rounded down serves the nominal speed, the one rounded up
the fast speed; if no denominator rounds one of the two ways, the other ratio serves both.

All intermediate products are held in 64 bits and checked.
-/

import PacedAudio.Divider.Basic
import PacedAudio.Refusal

namespace PacedAudio.Divider

/-! ## The number of stages -/

/-- The most stages that a prescaler has. -/
def maxStages : Nat := 64

/-- One, in units of 1/65536. -/
def unity : Nat := 65536

/-- A half, in units of 1/65536. -/
def oneHalf : Nat := 32768

/-- The share of `clock` that `stages` times the master clock `base` takes, in units of 1/65536 and
rounded down. Nothing is known of a share whose numerator needs more than 64 bits. -/
def share? (base clock stages : Nat) : Option Nat := do
  let scaled ← (Word.mul 64 base unity).toOption
  let total ← (Word.mul 64 scaled stages).toOption
  pure (total / clock)

/-- The stage counts in the order of preference, most stages first. -/
def stageCounts : List Nat := (List.range' 1 maxStages).reverse

/-- The preferred stage count whose share is below one, and that share. -/
def chooseStages? (base clock : Nat) : Option (Nat × Nat) :=
  stageCounts.findSome? fun stages =>
    match share? base clock stages with
    | some share => if share < unity then some (stages, share) else none
    | none => none

/-! ## Denominators and how close they come -/

/-- Which neighbouring whole number is taken for a numerator. -/
inductive Rounding where
  | down
  | up
deriving DecidableEq, Repr

/-- A denominator and the gap, in units of 1/65536, of its numerator from a whole number. -/
structure Candidate where
  denominator : Nat
  error : Nat
deriving DecidableEq, Repr

/-- The denominators in the order of preference, finest first. -/
def denominators : List Nat := (List.range' 1 255).reverse

/-- What a denominator has to offer for a share. The multiple of the share is held in 32 bits, and
its numerator has to fit a byte after rounding; a denominator that breaks either offers nothing.
-/
def offer? (share denominator : Nat) : Option (Rounding × Candidate) :=
  let multiple := share * denominator
  if Word.bound 32 ≤ multiple then none
  else
    let whole := multiple / unity
    let excess := multiple % unity
    if 255 < whole then none
    else if oneHalf < excess then
      if whole = 255 then none else some (.up, ⟨denominator, unity - excess⟩)
    else some (.down, ⟨denominator, excess⟩)

/-- The offers of one rounding, in the order of preference. -/
def offers (share : Nat) (rounding : Rounding) : List Candidate :=
  denominators.filterMap fun denominator =>
    match offer? share denominator with
    | some (way, candidate) => if way = rounding then some candidate else none
    | none => none

/-- The better of a candidate found earlier and a new one: the earlier keeps its place unless the
new error is smaller. -/
def better (best : Option Candidate) (candidate : Candidate) : Option Candidate :=
  match best with
  | none => some candidate
  | some earlier => if candidate.error < earlier.error then some candidate else some earlier

/-- The candidate of smallest error, the earliest of several. -/
def closest? (candidates : List Candidate) : Option Candidate :=
  candidates.foldl better none

/-! ## The ratios -/

/-- The exact numerator of a denominator, rounded down. -/
def exactNumerator (base clock stages denominator : Nat) : Checked Nat := do
  let multiple ← Word.mul 64 denominator base
  let total ← Word.mul 64 multiple stages
  pure (total / clock)

/-- The byte of a numerator: at least one, and at most what a byte holds. -/
def numeratorByte (numerator : Nat) : UInt8 := UInt8.ofNat (max 1 (min numerator 255))

/-- The ratio that rounds the exact share down at the candidate's denominator. -/
def ratioDown (base clock stages : Nat) (c : Candidate) : Checked Ratio := do
  let exact ← exactNumerator base clock stages c.denominator
  pure ⟨numeratorByte exact, UInt8.ofNat c.denominator⟩

/-- The ratio that rounds the exact share up at the candidate's denominator. -/
def ratioUp (base clock stages : Nat) (c : Candidate) : Checked Ratio := do
  let exact ← exactNumerator base clock stages c.denominator
  let above ← Word.add 64 exact 1
  pure ⟨numeratorByte above, UInt8.ofNat c.denominator⟩

/-- A ratio for a candidate, if there is one. -/
def ratioOf? (ratio : Candidate → Checked Ratio) : Option Candidate → Checked (Option Ratio)
  | none => .ok none
  | some c => (ratio c).map some

/-- The divider of a pair of ratios; one that is missing is replaced by the other. -/
def ofRatios? (stages : Nat) : Option Ratio → Option Ratio → Option Divider
  | some down, some up => some ⟨UInt8.ofNat (stages - 1), down, up⟩
  | some only, none => some ⟨UInt8.ofNat (stages - 1), only, only⟩
  | none, some only => some ⟨UInt8.ofNat (stages - 1), only, only⟩
  | none, none => none

/-- The divider that comes closest to the master clock `base` with `stages` stages. -/
def approximate? (base clock stages share : Nat) : Checked (Option Divider) := do
  let down ← ratioOf? (ratioDown base clock stages) (closest? (offers share .down))
  let up ← ratioOf? (ratioUp base clock stages) (closest? (offers share .up))
  pure (ofRatios? stages down up)

/-- The divider for a sample rate, or nothing if the peripheral clock is too slow for it. A rate,
format or clock of zero has no divider. -/
def find? (rate : UInt32) (format : PcmFormat) (clock : UInt32) : Checked (Option Divider) :=
  if rate = 0 ∨ clock = 0 ∨ format.clocksPerFrame = 0 then .ok none
  else do
    let base ← Word.mul 64 rate.toNat format.clocksPerFrame
    match chooseStages? base clock.toNat with
    | none => pure none
    | some (stages, share) => approximate? base clock.toNat stages share

/-- The divider for a sample rate, or the refusal of a rate that has none. -/
def forRate (rate : UInt32) (format : PcmFormat) (clock : UInt32) :
    Checked (Except Refusal Divider) :=
  (find? rate format clock).map fun
    | none => .error (.unsupportedRate rate)
    | some divider => .ok divider

theorem mem_stageCounts {stages : Nat} : stages ∈ stageCounts ↔ 1 ≤ stages ∧ stages ≤ 64 := by
  simp only [stageCounts, maxStages, List.mem_reverse, List.mem_range'_1]
  omega

theorem mem_denominators {denominator : Nat} :
    denominator ∈ denominators ↔ 1 ≤ denominator ∧ denominator ≤ 255 := by
  simp only [denominators, List.mem_reverse, List.mem_range'_1]
  omega

end PacedAudio.Divider
