/-
# PacedAudio.Session.Trace — what a trace of events says

The events of a run show the transmitter from the outside: whether it is running, which divider
settings it has been given, and which of them fall into one stretch between a start and the next
stop. They also tell how many flushes in a row the ring's reader has missed (`missed`), and which
operation a start is due to (`StartsBySwitch`).
-/

import PacedAudio.Session.Operation

namespace PacedAudio

/-! ## Settings of a divider -/

/-- What the transmitter is given for a speed. -/
def Divider.setting (d : Divider) (speed : Speed) : UInt8 × Ratio := (d.prescaler, d.ratio speed)

/-- So many settings, first the one of a speed and from then on each time the other one. -/
def Divider.alternation (d : Divider) : Speed → Nat → List (UInt8 × Ratio)
  | _, 0 => []
  | speed, count + 1 => d.setting speed :: d.alternation speed.other count

/-! ## Events -/

namespace Event

/-- The setting that the transmitter is given. -/
def setting? : Event → Option (UInt8 × Ratio)
  | .call (.program prescaler ratio) => some (prescaler, ratio)
  | _ => none

/-- The frame that is sent. -/
def frame? : Event → Option UInt32
  | .call (.send frame) => some frame
  | _ => none

/-- Whether transmission is switched on, or off. -/
def switched? : Event → Option Bool
  | .call .start => some true
  | .call .stop => some false
  | _ => none

/-- Not a stop. -/
def goesOn (e : Event) : Bool := e.switched? != some false

/-- Whether what waits in the ring is discarded. -/
def discards : Event → Bool
  | .boundary => true
  | .packet _ (.ok .stored) => false
  | .packet _ (.ok .dropped) => false
  | .packet _ _ => true
  | .call _ => false

/-- Whether a packet did not fit, be its overrun counted or one too many for the counter. -/
def overran : Event → Bool
  | .packet _ (.ok .stored) => false
  | .packet _ (.ok .dropped) => false
  | .packet _ _ => true
  | _ => false

/-- The event, with an overrun that could not be counted taken for one that was. -/
def plain : Event → Event
  | .packet bytes (.error _) => .packet bytes (.ok .overrun)
  | e => e

/-- Whether the ring's reader takes notice of what was discarded: when a frame is sent and, as the
ring is emptied, when transmission stops. -/
def notices : Event → Bool
  | .call (.send _) => true
  | .call .stop => true
  | _ => false

end Event

/-! ## Traces -/

namespace Trace

/-- All settings, in order. -/
def settings (events : List Event) : List (UInt8 × Ratio) := events.filterMap Event.setting?

/-- All frames that are sent, in order. -/
def sent (events : List Event) : List UInt32 := events.filterMap Event.frame?

/-- Whether the last of all starts and stops is a start. -/
def running (events : List Event) : Bool := (events.filterMap Event.switched?).getLast?.getD false

/-- The settings up to the next stop. -/
def stretch (events : List Event) : List (UInt8 × Ratio) :=
  settings (events.takeWhile Event.goesOn)

/-! ## Flushes that go unnoticed -/

/-- One event more, after `count` discards that the reader has not noticed. -/
def missedNext (count : Nat) (e : Event) : Nat :=
  if e.discards then count + 1 else if e.notices then 0 else count

/-- How often in a row, at the end, the ring was discarded without the reader taking notice. -/
def missed (events : List Event) : Nat := events.foldl missedNext 0

theorem missed_concat (past : List Event) (e : Event) :
    missed (past ++ [e]) = missedNext (missed past) e := by
  rw [missed, List.foldl_append]
  rfl

theorem missedNext_le (count : Nat) (e : Event) : missedNext count e ≤ count + 1 := by
  unfold missedNext
  split
  · exact Nat.le_refl _
  · split
    · exact Nat.zero_le _
    · exact Nat.le_succ _

theorem missed_le_length (events : List Event) : missed events ≤ events.length := by
  have hfold : ∀ count, events.foldl missedNext count ≤ count + events.length := by
    induction events with
    | nil => exact Nat.le_refl
    | cons e rest ih =>
      intro count
      have hstep := missedNext_le count e
      have hrest := ih (missedNext count e)
      rw [List.foldl_cons, List.length_cons]
      omega
  have hzero := hfold 0
  rwa [Nat.zero_add] at hzero

/-! ## Traces in two parts -/

theorem settings_append (past later : List Event) :
    settings (past ++ later) = settings past ++ settings later :=
  List.filterMap_append

theorem sent_append (past later : List Event) : sent (past ++ later) = sent past ++ sent later :=
  List.filterMap_append

theorem sent_map_send (frames : List UInt32) :
    sent (frames.map fun frame => .call (.send frame)) = frames := by
  rw [sent, List.filterMap_map]
  exact List.filterMap_some

theorem settings_single (e : Event) : settings [e] = e.setting?.toList := by
  rw [settings, List.filterMap_cons]
  cases e.setting? <;> rfl

theorem running_append (past later : List Event) :
    running (past ++ later)
      = (later.filterMap Event.switched?).getLast?.getD (running past) := by
  rw [running, List.filterMap_append, List.getLast?_append, running]
  cases (later.filterMap Event.switched?).getLast? <;> rfl

theorem getLast?_settings_append (past later : List Event) :
    (settings (past ++ later)).getLast?
      = (settings later).getLast?.or (settings past).getLast? := by
  rw [settings_append, List.getLast?_append]

theorem getLast?_settings_concat (past : List Event) (e : Event) :
    (settings (past ++ [e])).getLast? = e.setting?.or (settings past).getLast? := by
  rw [getLast?_settings_append, settings_single]
  cases e.setting? <;> rfl

theorem running_concat (past : List Event) (e : Event) :
    running (past ++ [e]) = e.switched?.getD (running past) := by
  rw [running_append, List.filterMap_cons]
  cases e.switched? <;> rfl

/-- An event of two traces in a row is in the first or in the second. -/
theorem eq_append_cons {first second past later : List Event} {e : Event}
    (h : first ++ second = past ++ e :: later) :
    (∃ more, first = past ++ e :: more ∧ later = more ++ second)
      ∨ ∃ more, past = first ++ more ∧ second = more ++ e :: later := by
  rcases List.append_eq_append_iff.mp h with ⟨more, hpast, hsecond⟩ | ⟨more, hfirst, hlater⟩
  · exact Or.inr ⟨more, hpast, hsecond⟩
  · cases more with
    | nil =>
      refine Or.inr ⟨[], ?_, ?_⟩
      · simpa using hfirst.symm
      · simpa using hlater.symm
    | cons e' more =>
      rw [List.cons_append] at hlater
      obtain ⟨rfl, htail⟩ := List.cons.inj hlater
      exact Or.inl ⟨more, hfirst, htail⟩

/-- The event of a trace of one. -/
theorem singleton_eq_append_cons {past later : List Event} {e e' : Event}
    (h : [e] = past ++ e' :: later) : past = [] ∧ e = e' ∧ later = [] := by
  cases past with
  | nil =>
    obtain ⟨rfl, hlater⟩ := List.cons.inj h
    exact ⟨rfl, rfl, hlater.symm⟩
  | cons first past => simp at h

/-- The event of a trace of three. -/
theorem triple_eq_append_cons {past later : List Event} {first second third e : Event}
    (h : [first, second, third] = past ++ e :: later) :
    (past = [] ∧ e = first ∧ later = [second, third])
      ∨ (past = [first] ∧ e = second ∧ later = [third])
      ∨ (past = [first, second] ∧ e = third ∧ later = []) := by
  rcases past with _ | ⟨a, _ | ⟨b, _ | ⟨c, past⟩⟩⟩
  · cases h
    exact Or.inl ⟨rfl, rfl, rfl⟩
  · cases h
    exact Or.inr (Or.inl ⟨rfl, rfl, rfl⟩)
  · cases h
    exact Or.inr (Or.inr ⟨rfl, rfl, rfl⟩)
  · simp at h

/-- A trace without a stop is part of the stretch that goes on after it. -/
theorem stretch_append_of_goesOn {past : List Event} (h : ∀ e ∈ past, e.goesOn = true)
    (later : List Event) : stretch (past ++ later) = settings past ++ stretch later := by
  rw [stretch, List.takeWhile_append_of_pos h, settings_append]
  rfl

theorem stretch_of_goesOn {events : List Event} (h : ∀ e ∈ events, e.goesOn = true) :
    stretch events = settings events := by
  have happend := stretch_append_of_goesOn h []
  rw [List.append_nil] at happend
  rw [happend]
  exact List.append_nil _

/-- A stretch ends at the first stop. -/
theorem stretch_append_of_stop {past : List Event} (h : ¬ ∀ e ∈ past, e.goesOn = true)
    (later : List Event) : stretch (past ++ later) = stretch past := by
  have htake : (past ++ later).takeWhile Event.goesOn = past.takeWhile Event.goesOn := by
    induction past with
    | nil => exact absurd (fun e he => absurd he List.not_mem_nil) h
    | cons e rest ih =>
      rw [List.cons_append, List.takeWhile_cons, List.takeWhile_cons]
      split
      · next hgoes =>
        rw [ih]
        intro hrest
        exact h (List.forall_mem_cons.mpr ⟨hgoes, hrest⟩)
      · rfl
  rw [stretch, htake, stretch]

end Trace

/-! ## Switches -/

namespace Session

/-- The rate that an operation asks for. -/
def Operation.rate? : Operation → Option UInt32
  | .switchTo rate => some rate
  | .ask .setCurrent (some data) => (SamplingFrequency.decode data).toOption
  | _ => none

/-- Whether a change or a request is granted. -/
def Result.granted : Result → Bool
  | .changed result => result.isOk
  | .answered result _ => result.isOk
  | _ => false

/-- The start between `past` and `later` is the end of one granted switch of the run, and from then
on the settings go back and forth. -/
def StartsBySwitch {n : Nat} (s : Session n) (operations : List Operation)
    (past later : List Event) : Prop :=
  ∃ before operation rest rate divider,
    operations = before ++ operation :: rest
      ∧ operation.rate? = some rate
      ∧ (s.after before).dividerFor? rate = some divider
      ∧ ((s.after before).perform operation).1.result.granted = true
      ∧ ((s.after before).perform operation).1.events
        = [.call .stop, .call (.program divider.prescaler divider.nominal), .call .start]
      ∧ past = s.events before
        ++ [.call .stop, .call (.program divider.prescaler divider.nominal)]
      ∧ Trace.stretch later = divider.alternation .fast (Trace.stretch later).length

end Session

end PacedAudio
