/-
# PacedAudio.Proofs.Session.Echo — the host reads back what it has set

A rate is written as three bytes, kept as a number of 32 bits and read back as three bytes. On the
way out the top byte is dropped, on the way in everything after the third byte. Nothing is lost
by either: a rate that comes from the host has three bytes to begin with, and no rate that can be
played needs four (`rate_after_le`). So a request for the current rate always shows the bytes of the
choice that was granted last, and every other operation leaves them (`reads_back_last_choice`).
-/

import PacedAudio.Proofs.RateTable.Entries
import PacedAudio.Proofs.Session.Change

namespace PacedAudio

/-- Data that is long enough stands for a rate, and that rate is written as the data begins. -/
theorem SamplingFrequency.decode_of_length {data : List UInt8} (h : byteCount ≤ data.length) :
    ∃ rate, decode data = .ok rate ∧ encode rate = data.take byteCount :=
  ⟨_, decode_of_long h, encode_decode (decode_of_long h)⟩

namespace Session

variable {n : Nat} {s : Session n} {operation : Operation}

/-! ## What an operation chooses -/

/-- A granted switch chooses its rate. -/
theorem choice?_of_switches {rate : UInt32} (h : s.Switches operation rate) :
    operation.choice? (s.perform operation).1 = some (SamplingFrequency.encode rate) := by
  obtain ⟨hrate, hgranted⟩ := h
  cases operation with
  | switchTo target =>
    cases hrate
    rw [Operation.choice?, if_pos hgranted]
    rfl
  | ask request data =>
    rcases data with _ | bytes
    · cases request <;> cases hrate
    · cases request with
      | getCurrent => cases hrate
      | setCurrent =>
        cases hdecode : SamplingFrequency.decode bytes with
        | error refusal =>
          rw [Operation.rate?, hdecode] at hrate
          cases hrate
        | ok decoded =>
          rw [Operation.rate?, hdecode] at hrate
          cases hrate
          rw [Operation.choice?, if_pos hgranted, SamplingFrequency.encode_decode hdecode]
  | halt => cases hrate
  | install table => cases hrate
  | arrive arrival => cases hrate
  | transmit level due => cases hrate

/-- Nothing else chooses a rate. Data that is too short to set one is not granted. -/
theorem choice?_of_not_switches (h : ∀ rate, ¬ s.Switches operation rate) :
    operation.choice? (s.perform operation).1 = none := by
  cases operation with
  | switchTo target =>
    rw [Operation.choice?, if_neg fun hgranted => h target ⟨rfl, hgranted⟩]
  | ask request data =>
    rcases data with _ | bytes
    · cases request <;> rfl
    · cases request with
      | getCurrent => rfl
      | setCurrent =>
        rw [Operation.choice?, if_neg]
        intro hgranted
        cases hdecode : SamplingFrequency.decode bytes with
        | error refusal =>
          have hok : (s.setCurrent bytes).result.isOk = true := hgranted
          rw [setCurrent, hdecode] at hok
          cases hok
        | ok decoded =>
          apply h decoded
          exact ⟨by rw [Operation.rate?, hdecode]; rfl, hgranted⟩
  | halt => rfl
  | install table => rfl
  | arrive arrival => rfl
  | transmit level due => rfl

/-! ## The rate that is reported -/

/-- What an operation does to the reported rate: it stays, or it is the one that a granted switch
has asked for. -/
theorem rate_perform (s : Session n) (operation : Operation) :
    (∀ rate, ¬ s.Switches operation rate) ∧ (s.perform operation).2.rate = s.rate
      ∨ s.Switches operation (s.perform operation).2.rate
        ∧ (s.perform operation).2.rate ≤ maxRate := by
  generalize hnext : (s.perform operation).2 = next
  have hchange := hnext ▸ change_perform s operation
  cases hchange with
  | switch hswitch hdivider =>
    right
    rw [switchTo_session hdivider]
    have hle := (Option.filter_eq_some_iff.mp hdivider).2
    exact ⟨hswitch, of_decide_eq_true hle⟩
  | halt => exact Or.inl ⟨not_switches_of_rate? rfl, rfl⟩
  | install table => exact Or.inl ⟨not_switches_of_rate? rfl, rfl⟩
  | play hrate htable hstream hcourse => exact Or.inl ⟨not_switches_of_rate? hrate, rfl⟩
  | flush hstream => exact Or.inl ⟨not_switches_of_rate? rfl, rfl⟩
  | keep hnone htable => exact Or.inl ⟨hnone, rfl⟩

/-- The reported rate is written as the operation has chosen, if it has. -/
theorem encode_rate_perform (s : Session n) (operation : Operation) :
    SamplingFrequency.encode (s.perform operation).2.rate
      = (operation.choice? (s.perform operation).1).getD (SamplingFrequency.encode s.rate) := by
  rcases rate_perform s operation with ⟨hnone, hrate⟩ | ⟨hswitch, -⟩
  · rw [choice?_of_not_switches hnone, hrate]
    rfl
  · rw [choice?_of_switches hswitch]
    rfl

theorem choices_cons (s : Session n) (operation : Operation) (rest : List Operation) :
    s.choices (operation :: rest)
      = (operation.choice? (s.perform operation).1).toList
        ++ (s.perform operation).2.choices rest := by
  rw [choices, run_cons, List.zip_cons_cons, List.filterMap_cons]
  cases operation.choice? (s.perform operation).1 <;> rfl

/-- After a run the reported rate is written as it was chosen last, or as before if it was not. -/
theorem encode_rate_after (s : Session n) (operations : List Operation) :
    SamplingFrequency.encode (s.after operations).rate
      = (s.choices operations).getLast?.getD (SamplingFrequency.encode s.rate) := by
  induction operations generalizing s with
  | nil => rfl
  | cons operation rest ih =>
    rw [after_cons, ih, encode_rate_perform, choices_cons, List.getLast?_append]
    -- A later choice wins; without one it is that of the first operation, if it has chosen.
    cases ((s.perform operation).2.choices rest).getLast? with
    | some chosen => rfl
    | none => cases operation.choice? (s.perform operation).1 <;> rfl

/-- No rate above the highest one is ever reported. -/
theorem rate_after_le (h : s.rate ≤ maxRate) (operations : List Operation) :
    (s.after operations).rate ≤ maxRate := by
  have hstep : ∀ (t : Session n) (operation : Operation), t.rate ≤ maxRate →
      (t.perform operation).2.rate ≤ maxRate := by
    intro t operation hle
    rcases rate_perform t operation with ⟨-, hrate⟩ | ⟨-, hmax⟩
    · rw [hrate]
      exact hle
    · exact hmax
  exact run_invariant hstep h operations

/-- Three bytes are enough for every rate up to the highest one. -/
theorem value_encode_of_le {rate : UInt32} (h : rate ≤ maxRate) :
    LittleEndian.value (SamplingFrequency.encode rate) = rate.toNat := by
  have hle : rate.toNat ≤ maxRate.toNat := UInt32.le_iff_toNat_le.mp h
  rw [SamplingFrequency.encode, LittleEndian.value_digits]
  exact Nat.mod_eq_of_lt (Nat.lt_of_le_of_lt hle (by decide))

/-! ## Reading it back -/

/-- A request for the current rate puts the rate over the first three bytes. -/
theorem perform_getCurrent {data : List UInt8} (h : SamplingFrequency.byteCount ≤ data.length) :
    s.perform (.ask .getCurrent (some data))
      = (⟨.answered (.ok SamplingFrequency.byteCount)
            (some (SamplingFrequency.encode s.rate ++ data.drop SamplingFrequency.byteCount)), []⟩,
          s) := by
  simp only [perform, answer, getCurrent, if_neg (Nat.not_lt.mpr h), List.map_nil]

/-- If there is no place for them, it leaves the data alone. -/
theorem perform_getCurrent_of_short {data : List UInt8}
    (h : data.length < SamplingFrequency.byteCount) :
    s.perform (.ask .getCurrent (some data))
      = (⟨.answered (.error .malformedRequest) (some data), []⟩, s) := by
  simp only [perform, answer, getCurrent, if_pos h, List.map_nil]

/-- After any run a request for the current rate changes nothing but its data. With three bytes or
more it is granted and puts the bytes of the last choice over the first three; with less it is
malformed. The bytes of the last choice are three, and they are the rate in full.

They can be relied on because reading and writing a rate undo each other, up to the top byte of
a rate that is written and to what follows the third byte of data that is read. -/
theorem reads_back_last_choice (table : RateTable) (h : 0 < n) (operations : List Operation) :
    (∀ data : List UInt8, 3 ≤ data.length →
      ((idle table n h).after operations).perform (.ask .getCurrent (some data))
        = (⟨.answered (.ok 3) (some ((idle table n h).lastChoice operations ++ data.drop 3)), []⟩,
            (idle table n h).after operations))
    ∧ (∀ data : List UInt8, data.length < 3 →
      ((idle table n h).after operations).perform (.ask .getCurrent (some data))
        = (⟨.answered (.error .malformedRequest) (some data), []⟩,
            (idle table n h).after operations))
    ∧ ((idle table n h).lastChoice operations).length = 3
    ∧ LittleEndian.value ((idle table n h).lastChoice operations)
      = ((idle table n h).after operations).rate.toNat
    ∧ (∀ rate : UInt32, SamplingFrequency.decode (SamplingFrequency.encode rate)
      = .ok (UInt32.ofNat (rate.toNat % Word.bound 24)))
    ∧ (∀ data : List UInt8, 3 ≤ data.length →
      ∃ rate, SamplingFrequency.decode data = .ok rate
        ∧ SamplingFrequency.encode rate = data.take 3)
    ∧ ∀ data : List UInt8, data.length < 3 →
      SamplingFrequency.decode data = .error .malformedRequest := by
  have hdefault : SamplingFrequency.encode (idle table n h).rate = [0x80, 0xBB, 0x00] := by
    show SamplingFrequency.encode defaultRate = _
    decide
  have hlast : SamplingFrequency.encode ((idle table n h).after operations).rate
      = (idle table n h).lastChoice operations := by
    rw [encode_rate_after, hdefault]
    rfl
  have hrate : ((idle table n h).after operations).rate ≤ maxRate :=
    rate_after_le (UInt32.le_refl _) operations
  refine ⟨?_, fun _ => perform_getCurrent_of_short, ?_, ?_, ?_,
    fun _ => SamplingFrequency.decode_of_length, fun _ => SamplingFrequency.decode_of_short⟩
  · intro data hlength
    rw [← hlast]
    exact perform_getCurrent hlength
  · rw [← hlast]
    exact SamplingFrequency.length_encode _
  · rw [← hlast]
    exact value_encode_of_le hrate
  · exact SamplingFrequency.decode_encode

/-- A rate that is set with a byte too many, while a later one is refused, the stream is halted and
the table replaced. -/
theorem reads_back_last_choice_refused :
    let operations : List Operation :=
      [.switchTo 8000, .ask .setCurrent (some [0x44, 0xAC, 0x00, 0xFF]),
        .ask .setCurrent (some [0x00, 0x7D, 0x00]), .ask .setCurrent none, .halt,
        .install RateTable.empty, .switchTo 48000]
    0 < 64
      ∧ (idle RateTable.lpc18xx 64 (Nat.succ_pos 63)).lastChoice operations = [0x44, 0xAC, 0x00]
      ∧ 3 ≤ [1, 2, 3, 4, 5].length
      ∧ ((idle RateTable.lpc18xx 64 (Nat.succ_pos 63)).after operations).perform
          (.ask .getCurrent (some [1, 2, 3, 4, 5]))
        = (⟨.answered (.ok 3) (some [0x44, 0xAC, 0x00, 4, 5]), []⟩,
            (idle RateTable.lpc18xx 64 (Nat.succ_pos 63)).after operations) := by
  intro operations
  have hlast : (idle RateTable.lpc18xx 64 (Nat.succ_pos 63)).lastChoice operations
      = [0x44, 0xAC, 0x00] := by decide
  obtain ⟨hread, -⟩ := reads_back_last_choice RateTable.lpc18xx (Nat.succ_pos 63) operations
  have hdata := hread [1, 2, 3, 4, 5] (by decide)
  rw [hlast] at hdata
  exact ⟨by decide, hlast, by decide, hdata⟩

end Session

end PacedAudio
