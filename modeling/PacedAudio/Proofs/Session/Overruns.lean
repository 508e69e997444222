/-
# PacedAudio.Proofs.Session.Overruns — every overrun is counted

The counter of overruns has 32 bits and goes around, and the total that an overrun is reported with
does not. So over every run of a session the counter goes up by one with every packet that does not
fit and with nothing else, and a packet meets a fault exactly if its overrun brings the counter back
to zero (`RunsAround`, `runsAround_after`). As long as 32 bits suffice no packet does, and the
counter is the number of overruns (`overruns_after`).
-/

import PacedAudio.Proofs.Session.Course
import PacedAudio.Ring.Contents
import PacedAudio.Session.Trace

namespace PacedAudio

variable {n : Nat}

/-- Whether a packet met a fault. -/
def Event.faulted : Event → Bool
  | .packet _ (.error _) => true
  | _ => false

/-! ## A counter that goes around -/

/-- A counter of overruns before and after a trace. Modulo 2^32 it counts every overrun, and the
events that meet a fault are the overruns that bring it back to zero. -/
structure RunsAround (before : UInt32) (events : List Event) (after : UInt32) : Prop where
  total : after = before + UInt32.ofNat (events.countP Event.overran)
  faults : ∀ past e later, events = past ++ e :: later →
    (e.faulted = true
      ↔ e.overran = true ∧ before + UInt32.ofNat (past.countP Event.overran) + 1 = 0)

/-- Nothing happens to the counter. -/
theorem runsAround_quiet (count : UInt32) {events : List Event}
    (h : ∀ e ∈ events, e.overran = false ∧ e.faulted = false) : RunsAround count events count where
  total := by
    have hnone : events.countP Event.overran = 0 := by
      rw [List.countP_eq_zero]
      intro e he
      simp [(h e he).1]
    rw [hnone]
    exact (UInt32.add_zero count).symm
  faults := by
    rintro past e later rfl
    obtain ⟨hoverran, hfaulted⟩ := h e (by simp)
    simp [hoverran, hfaulted]

theorem runsAround_single {before after : UInt32} {e : Event}
    (htotal : after = before + UInt32.ofNat ([e].countP Event.overran))
    (hfaults : e.faulted = true ↔ e.overran = true ∧ before + 1 = 0) :
    RunsAround before [e] after where
  total := htotal
  faults := by
    intro past other later hsplit
    obtain ⟨rfl, hrest⟩ | ⟨more, rfl, hnil⟩ := List.cons_eq_append_iff.mp hsplit
    · cases hrest
      rw [hfaults, List.countP_nil, show UInt32.ofNat 0 = 0 from rfl, UInt32.add_zero]
    · simp at hnil

theorem RunsAround.append {first second third : UInt32} {events more : List Event}
    (h : RunsAround first events second) (h' : RunsAround second more third) :
    RunsAround first (events ++ more) third where
  total := by
    rw [h'.total, h.total, List.countP_append, UInt32.ofNat_add, UInt32.add_assoc]
  faults := by
    intro past e later hsplit
    -- The event is one of the later trace, or its first, or one of the earlier trace.
    obtain ⟨between, rfl, hmore⟩ | ⟨between, hevents, hlater⟩ :=
      List.append_eq_append_iff.mp hsplit
    · rw [h'.faults between e later hmore, h.total, List.countP_append, UInt32.ofNat_add,
        UInt32.add_assoc first]
    · cases between with
      | nil =>
        obtain rfl : events = past := by simpa using hevents
        rw [h'.faults [] e later (by simpa using hlater.symm), h.total, List.countP_nil]
        simp
      | cons head rest =>
        obtain ⟨rfl, rfl⟩ : e = head ∧ later = rest ++ more := by simpa using hlater
        exact h.faults past e rest hevents

/-- The last number of a counter is the one that has no room for one more. -/
theorem add_one_eq_zero_iff (count : UInt32) :
    count + 1 = 0 ↔ Word.bound 32 ≤ count.toNat + 1 := by
  have hlt : count.toNat < Word.bound 32 := count.toNat_lt
  have hnext : (count + 1).toNat = (count.toNat + 1) % Word.bound 32 := UInt32.toNat_add count 1
  rw [← UInt32.toNat_inj, hnext, UInt32.toNat_zero, Word.bound_eq] at *
  omega

/-! ## The counter of a session -/

/-- A packet that fits is stored. Of one that does not, the overrun meets a fault when the counter
is at its last number. -/
theorem Ring.runsAround_push (r : Ring n) (bytes : List UInt8) :
    RunsAround r.overruns [.packet bytes (r.push bytes).1] (r.push bytes).2.overruns := by
  by_cases hfits : r.Fits bytes
  · rw [push_fst_of_fits hfits, overruns_push, if_neg (Nat.not_lt.mpr hfits)]
    exact runsAround_quiet _ (List.forall_mem_singleton.mpr ⟨rfl, rfl⟩)
  · rw [push_of_not_fits hfits]
    by_cases hlast : Word.bound 32 ≤ r.overruns.toNat + 1
    · rw [Word.add_of_le hlast]
      exact runsAround_single rfl
        ⟨fun _ => ⟨rfl, (add_one_eq_zero_iff _).mpr hlast⟩, fun _ => rfl⟩
    · rw [Word.add_of_lt (Nat.not_le.mp hlast)]
      exact runsAround_single rfl
        ⟨fun hfault => (Bool.false_ne_true hfault).elim,
          fun hwrap => absurd ((add_one_eq_zero_iff _).mp hwrap.2) hlast⟩

namespace Session

variable {s t u : Session n} {more : List Event}

theorem runsAround_feed {divider : Divider} {marks : Watermarks} {f g : Feed n}
    (step : Feed.Step divider marks f more g) :
    RunsAround f.ring.overruns more g.ring.overruns := by
  cases step with
  | arrive arrival =>
    cases arrival with
    | packet bytes => exact f.ring.runsAround_push bytes
    | boundary => exact runsAround_quiet _ (List.forall_mem_singleton.mpr ⟨rfl, rfl⟩)
  | look => exact runsAround_quiet _ (List.forall_mem_singleton.mpr ⟨rfl, rfl⟩)
  | send =>
    rw [show f.takeFrame.2.ring.overruns = f.ring.overruns from Ring.overruns_takeFrame f.ring]
    exact runsAround_quiet _ (List.forall_mem_singleton.mpr ⟨rfl, rfl⟩)
  | change h => exact runsAround_quiet _ (List.forall_mem_singleton.mpr ⟨rfl, rfl⟩)

theorem runsAround_move (step : Move t more u) :
    RunsAround t.feed.ring.overruns more u.feed.ring.overruns := by
  cases step with
  | switch hdivider =>
    rw [switchTo_session hdivider]
    exact runsAround_quiet _ (by simp [Event.overran, Event.faulted])
  | halt => exact runsAround_quiet _ (List.forall_mem_singleton.mpr ⟨rfl, rfl⟩)
  | install table => exact runsAround_quiet _ fun _ he => absurd he List.not_mem_nil
  | idle hnone arrival =>
    cases arrival with
    | packet bytes =>
      rw [arrive, receive_of_none hnone]
      exact runsAround_quiet _ (List.forall_mem_singleton.mpr ⟨rfl, rfl⟩)
    | boundary => exact runsAround_quiet _ (List.forall_mem_singleton.mpr ⟨rfl, rfl⟩)
  | play hstream step => exact runsAround_feed step

/-- Over every run the counter of overruns goes around, and only then a packet meets a fault. -/
theorem runsAround_after (s : Session n) (operations : List Operation) :
    RunsAround s.feed.ring.overruns (s.events operations)
      (s.after operations).feed.ring.overruns :=
  (course_after s operations).invariant
    (fun events t => RunsAround s.feed.ring.overruns events t.feed.ring.overruns)
    (runsAround_quiet _ fun _ he => absurd he List.not_mem_nil)
    fun _ _ _ _ ih step => ih.append (runsAround_move step)

/-! ## A counter that does not go around -/

/-- From `before` to `after` the counter has counted the packets of a trace that did not fit, and
none of them met a fault. -/
structure Counts (before : UInt32) (events : List Event) (after : UInt32) : Prop where
  total : after.toNat = before.toNat + events.countP Event.overran
  plain : ∀ e ∈ events, e.plain = e

theorem plain_of_not_faulted {e : Event} (h : ¬ e.faulted = true) : e.plain = e := by
  cases e with
  | call call => rfl
  | packet bytes outcome =>
    cases outcome with
    | error fault => exact absurd rfl h
    | ok outcome => rfl
  | boundary => rfl

theorem toNat_add_ofNat {count : UInt32} {more : Nat} (h : count.toNat + more < Word.bound 32) :
    (count + UInt32.ofNat more).toNat = count.toNat + more := by
  rw [Word.bound_eq] at h
  rw [UInt32.toNat_add, UInt32.toNat_ofNat', Nat.add_mod_mod]
  exact Nat.mod_eq_of_lt h

/-- While there is room, the counter stays below its end, so no overrun brings it back to zero. -/
theorem counts_of_runsAround {before after : UInt32} {events : List Event}
    (h : RunsAround before events after)
    (hroom : before.toNat + events.countP Event.overran < Word.bound 32) :
    Counts before events after where
  total := by
    rw [h.total]
    exact toNat_add_ofNat hroom
  plain := by
    intro e he
    obtain ⟨past, later, rfl⟩ := List.append_of_mem he
    refine plain_of_not_faulted fun hfaulted => ?_
    obtain ⟨hoverran, hlast⟩ := (h.faults past e later rfl).mp hfaulted
    rw [List.countP_append, List.countP_cons_of_pos hoverran] at hroom
    rw [add_one_eq_zero_iff, toNat_add_ofNat (by omega)] at hlast
    omega

/-- If the counter has room for all packets of a run that do not fit, it counts them, and no packet
meets a fault. -/
theorem overruns_after (s : Session n) (operations : List Operation)
    (hroom : s.feed.ring.overruns.toNat + (s.events operations).countP Event.overran
      < Word.bound 32) :
    Counts s.feed.ring.overruns (s.events operations)
      (s.after operations).feed.ring.overruns :=
  counts_of_runsAround (runsAround_after s operations) hroom

end Session

end PacedAudio
