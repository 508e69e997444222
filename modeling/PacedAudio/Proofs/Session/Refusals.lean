/-
# PacedAudio.Proofs.Session.Refusals — what is turned down leaves no trace

A session looks up the divider of a rate before it touches anything. So an operation that is turned
down, in whatever state, makes no call and leaves the session as it was, and everything that comes
after it comes as if it had not been (`Traceless`). A request without data, which only asks whether
the control exists, is granted and leaves no trace either.

What is turned down is known exactly: with a table as a device makes it, the rates that the table
has no divider for, and of the host's requests also those whose data is too short
(`refused_requests_leave_no_trace`).
-/

import PacedAudio.Proofs.RateTable.Entries
import PacedAudio.Proofs.Session.Course

namespace PacedAudio.Session

variable {n : Nat} {s : Session n}

/-! ## No trace -/

/-- An operation changes nothing and is not noticed by anything that comes later. -/
structure Traceless (s : Session n) (operation : Operation) : Prop where
  session : (s.perform operation).2 = s
  events : (s.perform operation).1.events = []
  later : ∀ operations, run perform s (operation :: operations)
    = ((s.perform operation).1 :: (run perform s operations).1, (run perform s operations).2)

theorem traceless_of_eq {operation : Operation} (hsession : (s.perform operation).2 = s)
    (hevents : (s.perform operation).1.events = []) : s.Traceless operation where
  session := hsession
  events := hevents
  later := by
    intro operations
    rw [run_cons, hsession]

/-! ## Requests that are turned down -/

theorem switchTo_of_error {rate : UInt32} {refusal : Refusal}
    (h : (s.switchTo rate).result = .error refusal) :
    s.switchTo rate = ⟨.error refusal, s, []⟩ := by
  cases hdivider : s.dividerFor? rate with
  | none =>
    rw [switchTo_of_none hdivider] at h ⊢
    cases h
    rfl
  | some divider =>
    rw [(switchTo_of_some hdivider).1] at h
    cases h

theorem setCurrent_of_error {data : List UInt8} {refusal : Refusal}
    (h : (s.setCurrent data).result = .error refusal) :
    s.setCurrent data = ⟨⟨.error refusal, s, []⟩, some data⟩ := by
  rw [setCurrent] at h ⊢
  cases hdecode : SamplingFrequency.decode data with
  | error e =>
    rw [hdecode] at h
    cases h
    rfl
  | ok rate =>
    rw [hdecode] at h
    -- The request is turned down for the rate, so the switch to it was.
    cases hresult : (s.switchTo rate).result with
    | error e =>
      simp only [hresult] at h
      cases h
      simp only [switchTo_of_error hresult]
      rfl
    | ok _ =>
      simp only [hresult] at h
      cases h

theorem getCurrent_of_error {data : List UInt8} {refusal : Refusal}
    (h : (s.getCurrent data).result = .error refusal) :
    s.getCurrent data = ⟨⟨.error refusal, s, []⟩, some data⟩ := by
  rw [getCurrent] at h ⊢
  split at h
  · next hshort =>
    cases h
    rw [if_pos hshort]
  · cases h

/-- Whatever the host asks for in vain, its data and the session stay. -/
theorem answer_of_error {request : HostRequest} {data : Option (List UInt8)} {refusal : Refusal}
    (h : (s.answer request data).result = .error refusal) :
    s.answer request data = ⟨⟨.error refusal, s, []⟩, data⟩ := by
  cases data with
  | none => cases h
  | some bytes =>
    cases request with
    | setCurrent => exact setCurrent_of_error h
    | getCurrent => exact getCurrent_of_error h

theorem traceless_of_refusal {operation : Operation} {refusal : Refusal}
    (h : (s.perform operation).1.result.refusal? = some refusal) : s.Traceless operation := by
  cases operation with
  | switchTo rate =>
    cases hresult : (s.switchTo rate).result with
    | error e =>
      have hresponse := switchTo_of_error hresult
      apply traceless_of_eq
      · simp only [perform, hresponse]
      · simp only [perform, hresponse, List.map_nil]
    | ok _ =>
      simp only [perform, hresult] at h
      cases h
  | halt => cases h
  | install table => cases h
  | ask request data =>
    cases hresult : (s.answer request data).result with
    | error e =>
      have hresponse := answer_of_error hresult
      apply traceless_of_eq
      · simp only [perform, hresponse]
      · simp only [perform, hresponse, List.map_nil]
    | ok count =>
      simp only [perform, hresult] at h
      cases h
  | arrive arrival => cases h
  | transmit level due => cases h

/-! ## Which rates are turned down -/

theorem le_maxRate_of_mem {rate : UInt32} (h : rate ∈ RateTable.playedRates) : rate ≤ maxRate := by
  have hall : RateTable.playedRates.all (· ≤ maxRate) = true := by decide
  exact of_decide_eq_true (List.all_eq_true.mp hall rate h)

/-- A table as a device makes it has no divider above the highest rate. -/
theorem dividerFor?_of_made (h : s.table.Made) (rate : UInt32) :
    s.dividerFor? rate = s.table.find? rate := by
  rw [dividerFor?]
  cases hfind : s.table.find? rate with
  | none => rfl
  | some divider =>
    have hrate := le_maxRate_of_mem (h.mem_playedRates hfind)
    simp [hrate]

theorem switchTo_result (h : s.table.Made) (rate : UInt32) :
    (s.switchTo rate).result
      = if (s.table.find? rate).isSome then .ok () else .error (.unsupportedRate rate) := by
  rw [← dividerFor?_of_made h]
  cases hdivider : s.dividerFor? rate with
  | none =>
    rw [switchTo_of_none hdivider]
    rfl
  | some divider => exact (switchTo_of_some hdivider).1

/-- The rate that the data of a request begins with. -/
def requestedRate (data : List UInt8) : UInt32 :=
  UInt32.ofNat (LittleEndian.value (data.take SamplingFrequency.byteCount))

theorem setCurrent_result (h : s.table.Made) (data : List UInt8) :
    (s.setCurrent data).result
      = if data.length < SamplingFrequency.byteCount then .error .malformedRequest
        else if (s.table.find? (requestedRate data)).isSome then
          .ok SamplingFrequency.byteCount
        else .error (.unsupportedRate (requestedRate data)) := by
  rcases Nat.lt_or_ge data.length SamplingFrequency.byteCount with hshort | hlong
  · rw [setCurrent, SamplingFrequency.decode_of_short hshort, if_pos hshort]
  · have hresult : (s.setCurrent data).result
        = (s.switchTo (requestedRate data)).result.map fun _ => SamplingFrequency.byteCount := by
      rw [setCurrent, SamplingFrequency.decode_of_long hlong]
      rfl
    rw [hresult, switchTo_result h, if_neg (Nat.not_lt.mpr hlong)]
    cases (s.table.find? (requestedRate data)).isSome with
    | true => rfl
    | false => rfl

/-! ## Refused requests -/

/-- Whatever state a session is in:

* an operation that is turned down leaves no trace, and the host's data stays as it was;
* a request without data is granted, with no byte used, and leaves no trace either;
* with a table as a device makes it, a switch to a rate is granted exactly if the table has a
  divider for it;
* with such a table, a request to set the rate is malformed exactly if its data is too short, and
  otherwise granted exactly if the table has a divider for the rate that its first three bytes
  stand for. -/
theorem refused_requests_leave_no_trace (s : Session n) :
    (∀ operation refusal, (s.perform operation).1.result.refusal? = some refusal →
      s.Traceless operation)
    ∧ (∀ request data refusal, (s.answer request data).result = .error refusal →
      (s.answer request data).data = data)
    ∧ (∀ request, (s.answer request none).result = .ok 0 ∧ s.Traceless (.ask request none))
    ∧ (s.table.Made → ∀ rate, (s.switchTo rate).result
      = if (s.table.find? rate).isSome then .ok () else .error (.unsupportedRate rate))
    ∧ (s.table.Made → ∀ data, (s.answer .setCurrent (some data)).result
      = if data.length < SamplingFrequency.byteCount then .error .malformedRequest
        else if (s.table.find? (requestedRate data)).isSome then
          .ok SamplingFrequency.byteCount
        else .error (.unsupportedRate (requestedRate data))) := by
  refine ⟨fun _ _ => traceless_of_refusal, ?_, ?_, switchTo_result, setCurrent_result⟩
  · intro request data refusal h
    rw [answer_of_error h]
  · intro request
    exact ⟨rfl, traceless_of_eq rfl rfl⟩

/-- A stream with a packet waiting, of which the host wants the unplayed rate 32000, and a rate in
two bytes. -/
theorem refused_requests_leave_no_trace_midstream :
    let s := (idle RateTable.lpc18xx 64 (Nat.succ_pos 63)).after
      [.switchTo 44100, .arrive (.packet [1, 2, 3, 4, 5, 6, 7, 8]), .transmit 4 []]
    s.table.Made
      ∧ (s.perform (.ask .setCurrent (some [0x00, 0x7D, 0x00]))).1.result.refusal?
        = some (.unsupportedRate 32000)
      ∧ s.Traceless (.ask .setCurrent (some [0x00, 0x7D, 0x00]))
      ∧ (s.perform (.ask .setCurrent (some [0x44, 0xAC]))).1.result.refusal?
        = some .malformedRequest
      ∧ s.Traceless (.ask .setCurrent (some [0x44, 0xAC]))
      ∧ (s.switchTo 48000).result = .ok () := by
  intro s
  have htable : s.table = RateTable.lpc18xx := by decide
  have hmade : s.table.Made := htable ▸ RateTable.made_lpc18xx
  obtain ⟨htraceless, -, -, hswitch, -⟩ := refused_requests_leave_no_trace s
  have hunsupported : (s.perform (.ask .setCurrent (some [0x00, 0x7D, 0x00]))).1.result.refusal?
      = some (.unsupportedRate 32000) := by decide
  have hshort : (s.perform (.ask .setCurrent (some [0x44, 0xAC]))).1.result.refusal?
      = some .malformedRequest := by decide
  refine ⟨hmade, hunsupported, htraceless _ _ hunsupported, hshort, htraceless _ _ hshort, ?_⟩
  rw [hswitch hmade, htable]
  rfl

end PacedAudio.Session
