/-
# PacedAudio.Proofs.Session.Renewal — a switch leaves the past behind

A granted switch keeps the table, the counters and the bytes in storage, and nothing else of what
the session did before. Two sessions with the same table that switch to the same rate are `Alike`
afterwards, and alike sessions stay alike through every operation, with whatever interrupts. So no
later operation can tell what the session did before the switch (`switch_leaves_past_behind`), in
its answers, in the calls on the transmitter and the frames among them, or in the fill, the speed
and the stream. The counters go on from where they were.

This holds whatever is flushed and however often. Only an overrun counter that runs full is noticed,
for it turns an overrun into a fault.
-/

import PacedAudio.Proofs.Feed.Alike
import PacedAudio.Proofs.RateTable.Entries
import PacedAudio.Proofs.Session.Overruns

namespace PacedAudio.Session

variable {n : Nat} {s s' : Session n} {ahead : Lead}

/-! ## Alike sessions -/

/-- Nothing but the counters and bytes that have not been stored tell the two sessions apart, and
the counters are a constant apart. -/
structure Alike (ahead : Lead) (s s' : Session n) : Prop where
  table : s'.table = s.table
  stream : s'.stream = s.stream
  rate : s'.rate = s.rate
  feed : Feed.Alike ahead s.feed s'.feed

/-- An answer with its events, overruns that could not be counted taken for such that were. -/
def Answer.plain (answer : Answer) : Answer :=
  ⟨answer.result, answer.events.map Event.plain⟩

/-- The same answer, up to faults of the counters, and sessions that are alike. -/
structure AlikeAfter (ahead : Lead) (first second : Answer × Session n) : Prop where
  answer : second.1.plain = first.1.plain
  session : Alike ahead first.2 second.2

/-! ## Switches -/

theorem dividerFor?_congr (h : s'.table = s.table) (rate : UInt32) :
    s'.dividerFor? rate = s.dividerFor? rate := by
  rw [dividerFor?, dividerFor?, h]

/-- Sessions of any past are alike after a granted switch. -/
theorem alike_switchTo (h : s'.table = s.table) {rate : UInt32} {divider : Divider}
    (hdivider : s.dividerFor? rate = some divider) :
    Alike (s.feed.lead s'.feed) (s.switchTo rate).session (s'.switchTo rate).session := by
  rw [switchTo_session hdivider, switchTo_session ((dividerFor?_congr h rate).trans hdivider)]
  simp only [h]
  exact ⟨rfl, rfl, rfl, Feed.Alike.restart _ _ _⟩

namespace Alike

/-- Alike sessions grant the same switches, with the same calls. -/
theorem switchTo (h : Alike ahead s s') (rate : UInt32) :
    (s'.switchTo rate).result = (s.switchTo rate).result
      ∧ (s'.switchTo rate).calls = (s.switchTo rate).calls
      ∧ Alike ahead (s.switchTo rate).session (s'.switchTo rate).session := by
  have hsame := dividerFor?_congr h.table rate
  cases hdivider : s.dividerFor? rate with
  | none =>
    rw [switchTo_of_none hdivider, switchTo_of_none (hsame.trans hdivider)]
    exact ⟨rfl, rfl, h⟩
  | some divider =>
    obtain ⟨hresult, hcalls⟩ := switchTo_of_some hdivider
    obtain ⟨hresult', hcalls'⟩ := switchTo_of_some (hsame.trans hdivider)
    have halike := alike_switchTo h.table hdivider
    rw [h.feed.lead_eq] at halike
    exact ⟨hresult'.trans hresult.symm, hcalls'.trans hcalls.symm, halike⟩

/-! ## Every operation -/

theorem setCurrent (h : Alike ahead s s') (data : List UInt8) :
    AlikeAfter ahead (s.perform (.ask .setCurrent (some data)))
      (s'.perform (.ask .setCurrent (some data))) := by
  simp only [perform, answer, Session.setCurrent]
  cases SamplingFrequency.decode data with
  | error refusal => exact ⟨rfl, h⟩
  | ok rate =>
    obtain ⟨hresult, hcalls, halike⟩ := h.switchTo rate
    refine ⟨?_, halike⟩
    simp only [Answer.plain, hresult, hcalls]

theorem getCurrent (h : Alike ahead s s') (data : List UInt8) :
    AlikeAfter ahead (s.perform (.ask .getCurrent (some data)))
      (s'.perform (.ask .getCurrent (some data))) := by
  simp only [perform, answer, Session.getCurrent]
  split
  · exact ⟨rfl, h⟩
  · refine ⟨?_, h⟩
    simp only [h.rate]

theorem arrive (h : Alike ahead s s') (arrival : Arrival) :
    AlikeAfter ahead (s.perform (.arrive arrival)) (s'.perform (.arrive arrival)) := by
  simp only [perform]
  cases hstream : s.stream with
  | none =>
    have hstream' := h.stream.trans hstream
    cases arrival with
    | packet bytes =>
      simp only [Session.arrive, receive_of_none hstream, receive_of_none hstream']
      exact ⟨rfl, h⟩
    | boundary => exact ⟨rfl, h.table, h.stream, h.rate, h.feed.flush⟩
  | some stream =>
    obtain ⟨hevent, hfeed⟩ := h.feed.arrive arrival
    rw [arrive_of_some hstream, arrive_of_some (h.stream.trans hstream)]
    refine ⟨?_, h.table, h.stream, h.rate, hfeed⟩
    simp only [Answer.plain, List.map_cons, List.map_nil, hevent]

theorem transmit (h : Alike ahead s s') (level : Nat) (due : List (List Arrival)) :
    AlikeAfter ahead (s.perform (.transmit level due)) (s'.perform (.transmit level due)) := by
  simp only [perform]
  cases hstream : s.stream with
  | none =>
    rw [transmit_of_none _ _ hstream, transmit_of_none _ _ (h.stream.trans hstream)]
    exact ⟨rfl, h⟩
  | some stream =>
    have hstart : Feed.Abreast ahead (s.feed, ⟨due, []⟩) (s'.feed, ⟨due, []⟩) :=
      ⟨h.feed, rfl, rfl⟩
    obtain ⟨hframes, hlast⟩ := hstart.refill stream.divider stream.marks level
    rw [transmit_of_some _ _ hstream, transmit_of_some _ _ (h.stream.trans hstream)]
    refine ⟨?_, h.table, h.stream, h.rate, hlast.feed⟩
    simp only [Answer.plain, hframes, hlast.events]

theorem perform (h : Alike ahead s s') (operation : Operation) :
    AlikeAfter ahead (s.perform operation) (s'.perform operation) := by
  cases operation with
  | switchTo rate =>
    obtain ⟨hresult, hcalls, halike⟩ := h.switchTo rate
    refine ⟨?_, halike⟩
    simp only [Session.perform, Answer.plain, hresult, hcalls]
  | halt =>
    refine ⟨rfl, h.table, rfl, h.rate, ?_⟩
    rw [← h.feed.lead_eq]
    exact Feed.Alike.restart _ _ _
  | install table => exact ⟨rfl, rfl, h.stream, h.rate, h.feed⟩
  | ask request data =>
    cases data with
    | none => exact ⟨rfl, h⟩
    | some bytes =>
      cases request with
      | setCurrent => exact h.setCurrent bytes
      | getCurrent => exact h.getCurrent bytes
  | arrive arrival => exact h.arrive arrival
  | transmit level due => exact h.transmit level due

/-! ## Runs -/

theorem run (h : Alike ahead s s') (operations : List Operation) :
    (PacedAudio.run Session.perform s' operations).1.map Answer.plain
        = (PacedAudio.run Session.perform s operations).1.map Answer.plain
      ∧ Alike ahead (s.after operations) (s'.after operations) := by
  induction operations generalizing s s' with
  | nil => exact ⟨rfl, h⟩
  | cons operation rest ih =>
    obtain ⟨hanswer, halike⟩ := h.perform operation
    obtain ⟨hanswers, hafter⟩ := ih halike
    refine ⟨?_, hafter⟩
    rw [run_cons, run_cons, List.map_cons, List.map_cons, hanswer, hanswers]

end Alike

/-- If no event of a run met a fault, its answers are as they seem. -/
theorem plain_run {operations : List Operation} (h : ∀ e ∈ s.events operations, e.plain = e) :
    (run perform s operations).1.map Answer.plain = (run perform s operations).1 := by
  have hanswers : ∀ answer ∈ (run perform s operations).1, answer.plain = answer := by
    intro answer hanswer
    have hevents : ∀ e ∈ answer.events, e.plain = e :=
      fun e he => h e (List.mem_flatMap_of_mem hanswer he)
    rw [Answer.plain, List.map_congr_left hevents, List.map_id']
  rw [List.map_congr_left hanswers, List.map_id']

/-! ## What the past leaves -/

/-- What can be asked of two sessions is the same, and the counters are a constant apart. -/
structure Agree (ahead : Lead) (s s' : Session n) : Prop where
  table : s'.table = s.table
  stream : s'.stream = s.stream
  rate : s'.rate = s.rate
  fill : s'.status.fill = s.status.fill
  speed : s'.status.speed = s.status.speed
  lead : s.status.lead s'.status = ahead

theorem Alike.agree (h : Alike ahead s s') : Agree ahead s s' where
  table := h.table
  stream := h.stream
  rate := h.rate
  fill := h.feed.ring.fill
  speed := h.feed.speed
  lead := h.feed.lead_eq

/-- The answers of alike sessions, if the counter of neither runs full. -/
theorem Alike.answers_eq (h : Alike ahead s s') (operations : List Operation)
    (hroom : s.feed.ring.overruns.toNat + (s.events operations).countP Event.overran
      < Word.bound 32)
    (hroom' : s'.feed.ring.overruns.toNat + (s'.events operations).countP Event.overran
      < Word.bound 32) :
    (PacedAudio.run Session.perform s' operations).1
      = (PacedAudio.run Session.perform s operations).1 := by
  have hanswers := (h.run operations).1
  rwa [plain_run (overruns_after s operations hroom).plain,
    plain_run (overruns_after s' operations hroom').plain] at hanswers

/-- Two sessions with the same table, whatever they did before, switch to the same rate. Whatever
is asked of both after that, with whatever interrupts, they give the same answers with the same
events, and after any part of it they have the same table, stream, rate, fill and speed. The
counters stay as far apart as they were.

Of the overruns so many may come that neither counter runs full. -/
theorem switch_leaves_past_behind {s s' : Session n} (htable : s'.table = s.table) {rate : UInt32}
    (hswitch : (s.switchTo rate).result = .ok ()) (operations : List Operation)
    (hroom : s.status.overruns.toNat
      + ((s.switchTo rate).session.events operations).countP Event.overran < Word.bound 32)
    (hroom' : s'.status.overruns.toNat
      + ((s'.switchTo rate).session.events operations).countP Event.overran < Word.bound 32) :
    (run perform s' (.switchTo rate :: operations)).1
        = (run perform s (.switchTo rate :: operations)).1
      ∧ ∀ before, before <+: operations →
        Agree (s.status.lead s'.status) ((s.switchTo rate).session.after before)
          ((s'.switchTo rate).session.after before) := by
  obtain ⟨divider, hdivider⟩ := dividerFor?_of_granted hswitch
  have hdivider' : s'.dividerFor? rate = some divider :=
    (dividerFor?_congr htable rate).trans hdivider
  have halike := alike_switchTo htable hdivider
  refine ⟨?_, fun before _ => (halike.run before).2.agree⟩
  have hfirst : (s'.perform (.switchTo rate)).1 = (s.perform (.switchTo rate)).1 := by
    simp only [perform, switchTo_of_some hdivider, switchTo_of_some hdivider']
  -- A switch keeps the counters, so there is as much room after it.
  have hrest := halike.answers_eq operations
    (by rw [switchTo_session hdivider] at hroom ⊢; exact hroom)
    (by rw [switchTo_session hdivider'] at hroom' ⊢; exact hroom')
  show (s'.perform (.switchTo rate)).1 :: (run perform (s'.switchTo rate).session operations).1
    = (s.perform (.switchTo rate)).1 :: (run perform (s.switchTo rate).session operations).1
  rw [hfirst, hrest]

/-- A session that has overrun, flushed and run dry at 44100 Hz, and one that has done nothing, go
on alike at 48000 Hz, through another overrun and a packet in the middle of a refill. -/
theorem switch_leaves_past_behind_overrun :
    let s := idle RateTable.lpc18xx 8 (Nat.succ_pos 7)
    let s' := s.after
      [.switchTo 44100, .arrive (.packet [1, 2, 3, 4, 5, 6, 7, 8]), .arrive (.packet [9]),
        .transmit 4 [[], [.boundary]]]
    let operations : List Operation :=
      [.arrive (.packet [1, 2, 3, 4, 5, 6, 7, 8]), .arrive (.packet [9]), .arrive .boundary,
        .transmit 2 [[], [.packet [10, 11, 12, 13]]]]
    s'.table = s.table ∧ (s.switchTo 48000).result = .ok ()
      ∧ s.status.overruns.toNat
        + ((s.switchTo 48000).session.events operations).countP Event.overran < Word.bound 32
      ∧ s'.status.overruns.toNat
        + ((s'.switchTo 48000).session.events operations).countP Event.overran < Word.bound 32
      ∧ s.status.lead s'.status = ⟨1, 4, 0, 0⟩
      ∧ (run perform s' (.switchTo 48000 :: operations)).1
        = (run perform s (.switchTo 48000 :: operations)).1
      ∧ Agree ⟨1, 4, 0, 0⟩ ((s.switchTo 48000).session.after operations)
        ((s'.switchTo 48000).session.after operations) := by
  intro s s' operations
  have htable : s'.table = s.table := by decide
  have hswitch : (s.switchTo 48000).result = .ok () := by rfl
  have hroom : s.status.overruns.toNat
      + ((s.switchTo 48000).session.events operations).countP Event.overran
        < Word.bound 32 := by decide
  have hroom' : s'.status.overruns.toNat
      + ((s'.switchTo 48000).session.events operations).countP Event.overran
        < Word.bound 32 := by decide
  have hlead : s.status.lead s'.status = ⟨1, 4, 0, 0⟩ := by decide
  obtain ⟨hanswers, hagree⟩ := switch_leaves_past_behind htable hswitch operations hroom hroom'
  rw [hlead] at hagree
  exact ⟨htable, hswitch, hroom, hroom', hlead, hanswers, hagree operations (List.prefix_refl _)⟩

end PacedAudio.Session
