/-
# PacedAudio.Proofs.Session.Faults — what an interrupt can fail on

An interrupt meets no fault in its arithmetic, over every run of a session (`Session.Checked`). What
is left is the total that an overrun is reported with, one more than the counter was, in the same 32
bits. So every 2^32-th overrun of a run meets a fault, and nothing else does
(`faults_only_at_wrap`). A stream of packets that are too long gets there
(`not_receives_without_fault`).
-/

import PacedAudio.Proofs.RateTable.Entries
import PacedAudio.Proofs.Session.Accounts
import PacedAudio.Session.Checked

namespace PacedAudio

variable {n : Nat}

namespace Session

/-- A packet meets a fault exactly if a stream plays, the packet does not fit, and the counter of
overruns is at its last number. -/
theorem receive_fault_iff (s : Session n) (packet : List UInt8) :
    (∃ fault, (s.receive packet).1 = .error fault)
      ↔ s.active = true ∧ ¬ s.feed.ring.Fits packet ∧ s.status.overruns + 1 = 0 := by
  cases hstream : s.stream with
  | none => simp [receive_of_none hstream, active, hstream]
  | some stream =>
    have hreceive : (s.receive packet).1 = (s.feed.ring.push packet).1 := by
      simp only [receive, hstream]
      rfl
    have hcounter : s.status.overruns = s.feed.ring.overruns := rfl
    rw [hreceive, hcounter, add_one_eq_zero_iff]
    by_cases hfits : s.feed.ring.Fits packet
    · simp [Ring.push_fst_of_fits hfits, hfits]
    · rw [Ring.push_of_not_fits hfits, Word.add]
      split
      · next hroom => simp [Except.map, hroom]
      · next hlast => simp [Except.map, active, hstream, hfits, Nat.not_lt.mp hlast]

/-! ## Runs from the start -/

/-- After a run from the start, the interrupts compute what they do in words of 64 bits, and none of
them meets a fault but an overrun that is the last of 2^32. The counters go around. -/
structure FaultsOnlyAtWrap (s : Session n) (operations : List Operation) : Prop where
  receive : ∀ packet : List UInt8, packet.length < Word.bound 63 →
    (s.after operations).receive? packet = .ok ((s.after operations).receive packet)
  transmit : ∀ {σ : Type} (react : Reaction n σ) (level : Nat) (record : σ),
    (s.after operations).transmit? react level record
      = .ok ((s.after operations).transmit react level record)
  status : (s.after operations).status? = .ok (s.after operations).status
  /-- Of the packets of the run, also of those in the middle of a transmit interrupt. -/
  met : ∀ past e later, s.events operations = past ++ e :: later →
    (e.faulted = true
      ↔ e.overran = true ∧ (past.countP Event.overran + 1) % Word.bound 32 = 0)
  /-- Of a packet that is next. -/
  meets : ∀ packet, (∃ fault, ((s.after operations).receive packet).1 = .error fault)
    ↔ (s.after operations).active = true ∧ ¬ (s.after operations).feed.ring.Fits packet
      ∧ ((s.events operations).countP Event.overran + 1) % Word.bound 32 = 0
  overruns : (s.after operations).status.overruns
    = UInt32.ofNat ((s.events operations).countP Event.overran)
  underruns : (s.after operations).status.underruns = UInt32.ofNat (s.account operations).again
  speedUps : (s.after operations).status.speedUps = UInt32.ofNat (s.account operations).speedUps
  slowDowns : (s.after operations).status.slowDowns = UInt32.ofNat (s.account operations).slowDowns

/-- The number that a count is modulo 2^32 is followed by zero exactly if the next count is a
multiple of 2^32. -/
theorem ofNat_add_one_eq_zero_iff (count : Nat) :
    UInt32.ofNat count + 1 = 0 ↔ (count + 1) % Word.bound 32 = 0 := by
  have hnumber : (UInt32.ofNat count).toNat = count % Word.bound 32 := UInt32.toNat_ofNat'
  rw [add_one_eq_zero_iff, hnumber, Word.bound_eq]
  omega

/-- Of every session that can be made and every run of operations, the interrupts fault at nothing
but every 2^32-th overrun. -/
theorem faults_only_at_wrap (table : RateTable) (h : 0 < n) (hn : 2 * n < Word.bound 16)
    (operations : List Operation) : (idle table n h).FaultsOnlyAtWrap operations := by
  have hcounter := runsAround_after (idle table n h) operations
  have hbooked := booked_after (idle table n h) operations
  have htotal : ((idle table n h).after operations).status.overruns
      = UInt32.ofNat (((idle table n h).events operations).countP Event.overran) :=
    hcounter.total.trans (UInt32.zero_add _)
  refine
    { receive := fun packet hpacket => receive?_eq _ hn hpacket
      transmit := fun react level record => transmit?_eq _ hn react level record
      status := status?_eq _ hn
      met := fun past e later hsplit => ?_
      meets := fun packet => ?_
      overruns := htotal
      underruns := hbooked.underruns.trans (UInt32.zero_add _)
      speedUps := hbooked.speedUps.trans (UInt32.zero_add _)
      slowDowns := hbooked.slowDowns.trans (UInt32.zero_add _) }
  · have hnever : (idle table n h).feed.ring.overruns = 0 := rfl
    rw [hcounter.faults past e later hsplit, hnever, UInt32.zero_add, ofNat_add_one_eq_zero_iff]
  · rw [receive_fault_iff, htotal, ofNat_add_one_eq_zero_iff]

/-- A ring of ten bytes. A packet that is too long overruns, and another one does so in the middle
of a refill, without a fault; and so would the next. -/
theorem faults_only_at_wrap_interrupted :
    let table : RateTable := ⟨[(48000, some ⟨5, ⟨3, 7⟩, ⟨4, 9⟩⟩)], 204000000, .stereo16⟩
    let operations : List Operation :=
      [.switchTo 48000, .arrive (.packet [1, 2, 3, 4, 5, 6, 7, 8]), .arrive (.packet [9, 10, 11]),
        .transmit 4 [[], [.packet [12, 13, 14, 15, 16, 17, 18, 19, 20, 21, 22]]]]
    0 < 10 ∧ 2 * 10 < Word.bound 16
      ∧ ((idle table 10 (Nat.succ_pos 9)).events operations).countP Event.overran = 2
      ∧ (idle table 10 (Nat.succ_pos 9)).FaultsOnlyAtWrap operations
      ∧ ∀ packet, ¬ ∃ fault,
        (((idle table 10 (Nat.succ_pos 9)).after operations).receive packet).1 = .error fault := by
  intro table operations
  have hcount :
      ((idle table 10 (Nat.succ_pos 9)).events operations).countP Event.overran = 2 := by decide
  have hfaults := faults_only_at_wrap table (Nat.succ_pos 9) (by decide) operations
  refine ⟨by decide, by decide, hcount, hfaults, fun packet hfault => ?_⟩
  have hwrap := ((hfaults.meets packet).mp hfault).2.2
  rw [hcount] at hwrap
  exact absurd hwrap (by decide)

/-! ## A counter that is at its last number -/

/-- Packets that are longer than the ring overrun one after the other. -/
theorem after_replicate_long {packet : List UInt8} (s : Session n) (hactive : s.active = true)
    (hlong : s.feed.ring.capacity < packet.length) (count : Nat) :
    (s.after (List.replicate count (.arrive (.packet packet)))).active = true
      ∧ (s.after (List.replicate count (.arrive (.packet packet)))).feed.ring.capacity
        = s.feed.ring.capacity
      ∧ (s.after (List.replicate count (.arrive (.packet packet)))).feed.ring.overruns
        = s.feed.ring.overruns + UInt32.ofNat count := by
  induction count generalizing s with
  | zero => exact ⟨hactive, rfl, (UInt32.add_zero _).symm⟩
  | succ count ih =>
    obtain ⟨stream, hstream⟩ := Option.isSome_iff_exists.mp hactive
    have hperform : (s.perform (.arrive (.packet packet))).2
        = { s with feed := { s.feed with ring := (s.feed.ring.push packet).2 } } := by
      show (s.arrive (.packet packet)).2 = _
      rw [arrive_of_some hstream]
      rfl
    rw [List.replicate_succ, after_cons, hperform]
    have hnext := ih { s with feed := { s.feed with ring := (s.feed.ring.push packet).2 } } hactive
      (by rw [Ring.capacity_push]; exact hlong)
    refine ⟨hnext.1, hnext.2.1.trans (Ring.capacity_push _ _), hnext.2.2.trans ?_⟩
    show (s.feed.ring.push packet).2.overruns + UInt32.ofNat count = _
    rw [Ring.overruns_push, if_pos (by omega), UInt32.add_assoc, UInt32.add_comm 1,
      UInt32.ofNat_add]
    rfl

/-- After as many as bring the counter to its last number, the next one meets a fault. -/
theorem receive_fault_of_replicate (s : Session n) (packet : List UInt8) (count : Nat)
    (hactive : s.active = true) (hlong : s.feed.ring.capacity < packet.length)
    (hlast : s.feed.ring.overruns + UInt32.ofNat count + 1 = 0) :
    ∃ fault, ((s.after (List.replicate count (.arrive (.packet packet)))).receive packet).1
      = .error fault := by
  obtain ⟨hactive', hcapacity, hoverruns⟩ := after_replicate_long s hactive hlong count
  refine (receive_fault_iff _ packet).mpr ⟨hactive', ?_, ?_⟩
  · rw [Ring.Fits, hcapacity]
    omega
  · rw [← hlast, ← hoverruns]
    rfl

/-- Not every packet can be taken. In a ring of one byte, packets of two bytes overrun, and the
2^32-th of them meets a fault. -/
theorem not_receives_without_fault :
    ¬ ∀ (table : RateTable) (n : Nat) (h : 0 < n), 2 * n < Word.bound 16 →
      ∀ (operations : List Operation) (packet : List UInt8),
        ∃ outcome, (((idle table n h).after operations).receive packet).1 = .ok outcome := by
  intro hall
  -- The number of packets is given a name, so that nothing counts down from it.
  obtain ⟨count, hcount⟩ : ∃ count, UInt32.ofNat count + 1 = 0 := ⟨4294967295, by decide⟩
  obtain ⟨outcome, houtcome⟩ := hall .lpc18xx 1 Nat.one_pos (by decide)
    ([.switchTo 8000] ++ List.replicate count (.arrive (.packet [0, 0]))) [0, 0]
  obtain ⟨fault, hfault⟩ := receive_fault_of_replicate
    ((idle .lpc18xx 1 Nat.one_pos).after [.switchTo 8000]) [0, 0] count (by decide) (by decide)
    ((congrArg (· + 1) (UInt32.zero_add (UInt32.ofNat count))).trans hcount)
  rw [after_append, hfault] at houtcome
  cases houtcome

end Session

end PacedAudio
