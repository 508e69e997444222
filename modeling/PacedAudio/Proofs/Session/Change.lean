/-
# PacedAudio.Proofs.Session.Change — what one operation can do to a session

Whatever is asked of a session, what becomes of it is one of six things, which `Change` lists: the
switch that was asked for is made, transmission is stopped, a table is put in place, the feed of the
stream that plays runs on, the ring of a session without a stream is flushed, or nothing changes. A
law of sessions between operations needs one case for each (`change_perform`).
-/

import Mathlib.Data.List.Induction
import PacedAudio.Proofs.Session.Course
import PacedAudio.Session.Switching

namespace PacedAudio.Session

variable {n : Nat} {s u : Session n} {operation : Operation}

/-- What becomes of a session by an operation. -/
inductive Change (s : Session n) : Operation → Session n → Prop where
  /-- The switch is granted. -/
  | switch {operation : Operation} {rate : UInt32} {divider : Divider}
      (hswitch : s.Switches operation rate) (hdivider : s.dividerFor? rate = some divider) :
      Change s operation (s.switchTo rate).session
  | halt : Change s .halt s.halt.session
  | install (table : RateTable) : Change s (.install table) (s.install table)
  /-- The feed of the stream runs on. -/
  | play {operation : Operation} {stream : Stream} {events : List Event} {feed : Feed n}
      (hrate : operation.rate? = none) (htable : operation.table? = none)
      (hstream : s.stream = some stream)
      (hcourse : Course (Feed.Step stream.divider stream.marks) s.feed events feed) :
      Change s operation { s with feed := feed }
  /-- A boundary comes while no stream plays. -/
  | flush (hstream : s.stream = none) : Change s (.arrive .boundary) s.boundary
  /-- Nothing changes. -/
  | keep {operation : Operation} (hnone : ∀ rate, ¬ s.Switches operation rate)
      (htable : operation.table? = none) : Change s operation s

/-! ## Every operation -/

theorem change_of_keep (hnone : ∀ rate, ¬ s.Switches operation rate)
    (htable : operation.table? = none) (h : (s.perform operation).2 = s) :
    Change s operation (s.perform operation).2 := by
  rw [h]
  exact .keep hnone htable

theorem change_switchTo (s : Session n) (rate : UInt32) :
    Change s (.switchTo rate) (s.perform (.switchTo rate)).2 := by
  cases hdivider : s.dividerFor? rate with
  | none =>
    have hresponse := switchTo_of_none hdivider
    apply change_of_keep _ rfl
    · simp only [perform, hresponse]
    · rintro rate' ⟨-, hgranted⟩
      simp only [perform, hresponse] at hgranted
      cases hgranted
  | some divider =>
    refine .switch ⟨rfl, ?_⟩ hdivider
    show (s.switchTo rate).result.isOk = true
    rw [(switchTo_of_some hdivider).1]
    rfl

theorem change_ask (s : Session n) (request : HostRequest) (data : Option (List UInt8)) :
    Change s (.ask request data) (s.perform (.ask request data)).2 := by
  rcases data with _ | bytes
  · exact .keep (not_switches_of_rate? (by cases request <;> rfl)) rfl
  · cases request with
    | getCurrent =>
      refine change_of_keep (not_switches_of_rate? rfl) rfl ?_
      show (s.getCurrent bytes).session = s
      rw [getCurrent]
      split <;> rfl
    | setCurrent =>
      cases hdecode : SamplingFrequency.decode bytes with
      | error e =>
        apply change_of_keep _ rfl
        · show (s.setCurrent bytes).session = s
          rw [setCurrent, hdecode]
        · apply not_switches_of_rate?
          rw [Operation.rate?, hdecode]
          rfl
      | ok rate =>
        have hanswer : (s.setCurrent bytes).result
            = (s.switchTo rate).result.map (fun _ => SamplingFrequency.byteCount)
            ∧ (s.setCurrent bytes).session = (s.switchTo rate).session := by
          rw [setCurrent, hdecode]
          exact ⟨rfl, rfl⟩
        cases hdivider : s.dividerFor? rate with
        | none =>
          rw [switchTo_of_none hdivider] at hanswer
          apply change_of_keep _ rfl
          · exact hanswer.2
          · rintro rate' ⟨-, hgranted⟩
            have hok : (s.setCurrent bytes).result.isOk = true := hgranted
            rw [hanswer.1] at hok
            cases hok
        | some divider =>
          show Change s (.ask .setCurrent (some bytes)) (s.setCurrent bytes).session
          rw [hanswer.2]
          refine .switch ⟨?_, ?_⟩ hdivider
          · rw [Operation.rate?, hdecode]
            rfl
          · show (s.setCurrent bytes).result.isOk = true
            rw [hanswer.1, (switchTo_of_some hdivider).1]
            rfl

theorem change_arrive (s : Session n) (arrival : Arrival) :
    Change s (.arrive arrival) (s.perform (.arrive arrival)).2 := by
  show Change s (.arrive arrival) (s.arrive arrival).2
  cases hstream : s.stream with
  | none =>
    cases arrival with
    | packet bytes =>
      rw [arrive, receive_of_none hstream]
      exact .keep (not_switches_of_rate? rfl) rfl
    | boundary => exact .flush hstream
  | some stream =>
    rw [arrive_of_some hstream]
    exact .play rfl rfl hstream (.single (.arrive s.feed arrival))

theorem change_transmit (s : Session n) (level : Nat) (due : List (List Arrival)) :
    Change s (.transmit level due) (s.perform (.transmit level due)).2 := by
  show Change s (.transmit level due) (s.transmit Feed.interrupted level ⟨due, []⟩).2.1
  cases hstream : s.stream with
  | none =>
    rw [transmit_of_none _ _ hstream]
    exact .keep (not_switches_of_rate? rfl) rfl
  | some stream =>
    rw [transmit_of_some _ _ hstream]
    exact .play rfl rfl hstream (Feed.refill_course level s.feed due)

theorem change_perform (s : Session n) (operation : Operation) :
    Change s operation (s.perform operation).2 := by
  cases operation with
  | switchTo rate => exact change_switchTo s rate
  | halt => exact .halt
  | install table => exact .install table
  | ask request data => exact change_ask s request data
  | arrive arrival => exact change_arrive s arrival
  | transmit level due => exact change_transmit s level due

/-! ## Tables -/

theorem table?_of_rate? {rate : UInt32} (h : operation.rate? = some rate) :
    operation.table? = none := by
  cases operation with
  | install table => cases h
  | _ => rfl

/-- The table changes only when one is installed. -/
theorem Change.table (h : Change s operation u) : u.table = operation.table?.getD s.table := by
  cases h with
  | switch hswitch hdivider =>
    rw [table?_of_rate? hswitch.1, switchTo_session hdivider]
    rfl
  | halt => rfl
  | install table => rfl
  | play hrate htable hstream hcourse =>
    rw [htable]
    rfl
  | flush hstream => rfl
  | keep hnone htable =>
    rw [htable]
    rfl

theorem after_concat (s : Session n) (operations : List Operation) (operation : Operation) :
    s.after (operations ++ [operation]) = ((s.after operations).perform operation).2 :=
  after_append s operations [operation]

/-- The table in force after a run is the one that was installed last. -/
theorem table_after (s : Session n) (operations : List Operation) :
    (s.after operations).table = lastTable s.table operations := by
  induction operations using List.reverseRecOn with
  | nil => rfl
  | append_singleton operations operation ih =>
    rw [after_concat, (change_perform _ operation).table, ih, lastTable_concat]

end PacedAudio.Session
