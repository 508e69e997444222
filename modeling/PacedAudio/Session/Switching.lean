/-
# PacedAudio.Session.Switching — which switch and which table are in force

A run of a session switches rates, on its own account or for the host, and installs tables, in any
order. Three questions can be answered from the run alone: which of its granted switches was the
last one (`LastSwitch`), which table was installed last (`lastTable`), and which three bytes stand
for the rate that was chosen last (`lastChoice`).
-/

import PacedAudio.Session.Trace

namespace PacedAudio.Session

variable {n : Nat}

/-- An operation is a switch to a rate, and it is granted. -/
def Switches (s : Session n) (operation : Operation) (rate : UInt32) : Prop :=
  operation.rate? = some rate ∧ (s.perform operation).1.result.granted = true

/-- The last granted switch of a run is one to `rate`, and comes after `before`. -/
def LastSwitch (s : Session n) (operations before : List Operation) (rate : UInt32) : Prop :=
  ∃ operation later, operations = before ++ operation :: later
    ∧ (s.after before).Switches operation rate
    ∧ ∀ between next rest, later = between ++ next :: rest →
      ∀ rate', ¬ (s.after (before ++ operation :: between)).Switches next rate'

/-- The table that an operation installs. -/
def Operation.table? : Operation → Option RateTable
  | .install table => some table
  | _ => none

/-- The table that is in force after some operations, at the start of which it was `table`. -/
def lastTable (table : RateTable) (operations : List Operation) : RateTable :=
  (operations.filterMap Operation.table?).getLast?.getD table

/-- The bytes of the rate that an operation has chosen, by its answer: as the host has written them,
or little-endian if the session was switched directly. -/
def Operation.choice? : Operation → Answer → Option (List UInt8)
  | .ask .setCurrent (some data), answer =>
    if answer.result.granted then some (data.take SamplingFrequency.byteCount) else none
  | .switchTo rate, answer =>
    if answer.result.granted then
      some (LittleEndian.digits SamplingFrequency.byteCount rate.toNat)
    else none
  | _, _ => none

/-- The choices of a run, in order. -/
def choices (s : Session n) (operations : List Operation) : List (List UInt8) :=
  (operations.zip (run perform s operations).1).filterMap fun step => step.1.choice? step.2

/-- The bytes of the rate that was chosen last, or those of 48000 if none was. -/
def lastChoice (s : Session n) (operations : List Operation) : List UInt8 :=
  (s.choices operations).getLast?.getD [0x80, 0xBB, 0x00]

theorem not_switches_of_rate? {s : Session n} {operation : Operation}
    (h : operation.rate? = none) (rate : UInt32) : ¬ s.Switches operation rate := by
  rintro ⟨hrate, -⟩
  rw [h] at hrate
  cases hrate

/-! ## One operation more -/

theorem lastSwitch_concat {s : Session n} {operations : List Operation} {operation : Operation}
    {rate : UInt32} (h : (s.after operations).Switches operation rate) :
    s.LastSwitch (operations ++ [operation]) operations rate := by
  refine ⟨operation, [], rfl, h, ?_⟩
  intro between next rest heq
  simp at heq

theorem LastSwitch.concat {s : Session n} {operations before : List Operation}
    {operation : Operation} {rate : UInt32} (h : s.LastSwitch operations before rate)
    (hnone : ∀ rate', ¬ (s.after operations).Switches operation rate') :
    s.LastSwitch (operations ++ [operation]) before rate := by
  obtain ⟨switch, later, rfl, hswitch, hlater⟩ := h
  refine ⟨switch, later ++ [operation], by simp, hswitch, ?_⟩
  intro between next rest heq
  -- The operation that follows `between` is the new one, or it was there already.
  rcases List.eq_nil_or_concat rest with rfl | ⟨front, final, rfl⟩
  · obtain ⟨rfl, hnext⟩ := List.append_inj' heq rfl
    cases hnext
    exact hnone
  · have hall : later ++ [operation] = between ++ next :: front ++ [final] := by
      simpa using heq
    exact hlater between next front (List.append_inj_left' hall rfl)

theorem lastTable_concat (table : RateTable) (operations : List Operation)
    (operation : Operation) :
    lastTable table (operations ++ [operation])
      = operation.table?.getD (lastTable table operations) := by
  rw [lastTable, List.filterMap_append, List.getLast?_append]
  cases operation <;> rfl

end PacedAudio.Session
