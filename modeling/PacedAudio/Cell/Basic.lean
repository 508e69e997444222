/-
# PacedAudio.Cell.Basic — who may use the session

Interrupts share the session, and a rate change needs it to itself. A cell holds the session with
two marks of who is using it: the number of readers, and whether there is an owner. A borrow that
would break the rule "either one owner or any number of readers" is refused, and its body is not
run.

A body is given the whole cell, because what it does may borrow again, and a record that the
caller keeps beside it; a refusal leaves both as they are.
-/

import PacedAudio.Session.Basic

namespace PacedAudio

/-- A session with the marks of its borrows. -/
structure Cell (n : Nat) where
  session : Session n
  /-- Whether an exclusive borrow is live. -/
  owned : Bool
  /-- Shared borrows that are live. -/
  readers : Nat

namespace Cell

variable {n : Nat} {α σ : Type}

/-- A cell that nobody uses. -/
def ofSession (session : Session n) : Cell n := ⟨session, false, 0⟩

/-- Runs a body with the session shared, or refuses while there is an owner. A reader registers
before it looks for an owner, and leaves again if there is one. -/
def share (c : Cell n) (record : σ) (body : Cell n → σ → α × Cell n × σ) :
    Option α × Cell n × σ :=
  let entered := { c with readers := c.readers + 1 }
  if entered.owned then (none, { entered with readers := entered.readers - 1 }, record)
  else
    let (result, after, record) := body entered record
    (some result, { after with readers := after.readers - 1 }, record)

/-- Runs a body with the session to itself, or refuses while anybody uses it. -/
def own (c : Cell n) (record : σ) (body : Cell n → σ → α × Cell n × σ) :
    Option α × Cell n × σ :=
  if c.readers ≠ 0 ∨ c.owned then (none, c, record)
  else
    let (result, after, record) := body { c with owned := true } record
    (some result, { after with owned := false }, record)

/-- Runs a request with the session to itself; a refusal is answered as busy. -/
def request (c : Cell n) (record : σ) (body : Cell n → σ → Except Refusal α × Cell n × σ) :
    Except Refusal α × Cell n × σ :=
  let (result, after, record) := c.own record body
  (result.getD (.error .busy), after, record)

/-! ## Refusals -/

theorem share_of_owned {c : Cell n} (h : c.owned = true) (record : σ)
    (body : Cell n → σ → α × Cell n × σ) : c.share record body = (none, c, record) := by
  obtain ⟨session, owned, readers⟩ := c
  cases h
  simp [share]

theorem own_of_readers {c : Cell n} (h : c.readers ≠ 0) (record : σ)
    (body : Cell n → σ → α × Cell n × σ) : c.own record body = (none, c, record) := by
  simp [own, h]

theorem own_of_owned {c : Cell n} (h : c.owned = true) (record : σ)
    (body : Cell n → σ → α × Cell n × σ) : c.own record body = (none, c, record) := by
  simp [own, h]

/-- Somebody uses the cell. -/
def Used (c : Cell n) : Prop := c.readers ≠ 0 ∨ c.owned = true

theorem not_used_iff {c : Cell n} : ¬ c.Used ↔ c.readers = 0 ∧ c.owned = false := by
  rw [Used, not_or, Decidable.not_not, Bool.not_eq_true]

theorem own_of_used {c : Cell n} (h : c.Used) (record : σ)
    (body : Cell n → σ → α × Cell n × σ) : c.own record body = (none, c, record) :=
  h.elim (own_of_readers · record body) (own_of_owned · record body)

/-! ## Borrows that are granted -/

/-- A reader joins the readers and leaves them again. -/
theorem share_of_not_owned {c : Cell n} (h : c.owned = false) (record : σ)
    (body : Cell n → σ → α × Cell n × σ) :
    c.share record body
      = (let (result, after, record) := body { c with readers := c.readers + 1 } record
        (some result, { after with readers := after.readers - 1 }, record)) := by
  obtain ⟨session, owned, readers⟩ := c
  cases h
  rfl

/-- An owner of an unused cell leaves it unowned. -/
theorem own_of_unused {c : Cell n} (hr : c.readers = 0) (ho : c.owned = false) (record : σ)
    (body : Cell n → σ → α × Cell n × σ) :
    c.own record body
      = (let (result, after, record) := body { c with owned := true } record
        (some result, { after with owned := false }, record)) := by
  obtain ⟨session, owned, readers⟩ := c
  cases hr
  cases ho
  rfl

end Cell

end PacedAudio
