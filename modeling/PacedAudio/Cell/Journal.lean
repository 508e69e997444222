/-
# PacedAudio.Cell.Journal — nestings that are watched

The marks of a cell only count the borrows that are live. A *journal* keeps the borrows
themselves, and notes every call for one with the borrows that were live at the time, and every
operation that is performed. `Nesting.watch` carries a nesting out as `Nesting.perform` does, with
a journal beside the cell. Nothing that happens depends on it (`Nesting.watch_eq_perform`).
-/

import PacedAudio.Cell.Nesting

namespace PacedAudio.Cell

open Session (Operation Answer)

/-- A borrow. -/
inductive Hold where
  | shared
  | exclusive
deriving DecidableEq, Repr

/-- The rule of borrowing: an exclusive borrow bars every other, and a shared one bars the exclusive
ones. -/
def Hold.Barred (live : List Hold) : Hold → Prop
  | .shared => .exclusive ∈ live
  | .exclusive => live ≠ []

/-- How a borrow is called for. -/
inductive Manner where
  | share
  | own
  | request (verdict : List Report → Except Refusal Unit)

/-- The borrow that is called for. -/
def Manner.hold : Manner → Hold
  | .share => .shared
  | .own | .request _ => .exclusive

/-- What is due for a call, by what its body reports, or none if the body is not run. -/
def Manner.due : Manner → Option (List Report) → Report
  | .share, none | .own, none => .refused
  | .share, some body | .own, some body => .granted body
  | .request _, none => .requested (.error .busy) []
  | .request verdict, some body => .requested (verdict body) body

/-- A call for a borrow, as it is noted. -/
structure Call where
  /-- The borrows that were live, the innermost first. -/
  live : List Hold
  manner : Manner
  /-- What the body reported, if it was run. -/
  body : Option (List Report)
  /-- What was reported of the call. -/
  report : Report

/-- What is kept beside a cell. -/
structure Journal where
  /-- The borrows that are live, the innermost first. -/
  live : List Hold
  /-- The calls that have ended, in that order. -/
  calls : List Call
  /-- The operations that were performed, in that order. -/
  operations : List Operation

namespace Journal

/-- Nothing was noted yet, and no borrow is live. -/
def blank : Journal := ⟨[], [], []⟩

/-- A body begins. -/
def enter (j : Journal) (hold : Hold) : Journal := { j with live := hold :: j.live }

/-- A body ends. -/
def leave (j : Journal) : Journal := { j with live := j.live.tail }

/-- An operation is performed. -/
def perform (j : Journal) (operation : Operation) : Journal :=
  { j with operations := j.operations ++ [operation] }

/-- A call ends. -/
def note (j : Journal) (manner : Manner) (body : Option (List Report)) (report : Report) :
    Journal :=
  { j with calls := j.calls ++ [⟨j.live, manner, body, report⟩] }

end Journal

variable {n : Nat}

mutual

/-- Carries out a nesting and notes what happens. -/
def Nesting.watch : Nesting → Cell n → Journal → Report × Cell n × Journal
  | .operate operation, c, journal =>
    let (answer, session) := c.session.perform operation
    (.operated answer, { c with session := session }, journal.perform operation)
  | .share body, c, journal =>
    let (reports, after, journal) := c.share journal fun c journal =>
      let (reports, after, journal) := Nesting.watchAll body c (journal.enter .shared)
      (reports, after, journal.leave)
    let report := match reports with
      | some reports => .granted reports
      | none => .refused
    (report, after, journal.note .share reports report)
  | .own body, c, journal =>
    let (reports, after, journal) := c.own journal fun c journal =>
      let (reports, after, journal) := Nesting.watchAll body c (journal.enter .exclusive)
      (reports, after, journal.leave)
    let report := match reports with
      | some reports => .granted reports
      | none => .refused
    (report, after, journal.note .own reports report)
  | .request body verdict, c, journal =>
    let (result, after, reports, journal) := c.request (none, journal) fun c (_, journal) =>
      let (reports, after, journal) := Nesting.watchAll body c (journal.enter .exclusive)
      (verdict reports, after, some reports, journal.leave)
    let report := .requested result (reports.getD [])
    (report, after, journal.note (.request verdict) reports report)

/-- Carries out the nestings of a body in turn and notes what happens. -/
def Nesting.watchAll : List Nesting → Cell n → Journal → List Report × Cell n × Journal
  | [], c, journal => ([], c, journal)
  | nesting :: rest, c, journal =>
    let (report, next, journal) := nesting.watch c journal
    let (reports, last, journal) := Nesting.watchAll rest next journal
    (report :: reports, last, journal)

end

/-! ## What is reported within a report -/

mutual

/-- A report with the reports of its body, in the order in which they were made. -/
def Report.flatten : Report → List Report
  | .operated answer => [.operated answer]
  | .refused => [.refused]
  | .granted body => Report.flattenAll body ++ [.granted body]
  | .requested result body => Report.flattenAll body ++ [.requested result body]

/-- The reports of a body with those within them. -/
def Report.flattenAll : List Report → List Report
  | [] => []
  | report :: rest => report.flatten ++ Report.flattenAll rest

end

/-- The answer that is reported, if it is of an operation. -/
def Report.answer? : Report → Option Answer
  | .operated answer => some answer
  | _ => none

/-- The answers of all operations, in order. -/
def Report.answers (reports : List Report) : List Answer :=
  (Report.flattenAll reports).filterMap Report.answer?

/-- The reports of all calls, in the order in which they ended. -/
def Report.calls (reports : List Report) : List Report :=
  (Report.flattenAll reports).filter fun report => report.answer?.isNone

/-! ## Watching changes nothing -/

mutual

theorem Nesting.watch_eq_perform : ∀ (nesting : Nesting) (c : Cell n) (journal : Journal),
    ((nesting.watch c journal).1, (nesting.watch c journal).2.1) = nesting.perform c
  | .operate operation, c, journal => rfl
  | .share body, c, journal => by
    have hbody := Nesting.watchAll_eq_performAll body { c with readers := c.readers + 1 }
      (journal.enter .shared)
    cases howned : c.owned with
    | true => simp only [Nesting.watch, Nesting.perform, share_of_owned howned]
    | false => simp only [Nesting.watch, Nesting.perform, share_of_not_owned howned, ← hbody]
  | .own body, c, journal => by
    have hbody := Nesting.watchAll_eq_performAll body { c with owned := true }
      (journal.enter .exclusive)
    by_cases hused : c.Used
    · simp only [Nesting.watch, Nesting.perform, own_of_used hused]
    · obtain ⟨hreaders, howned⟩ := not_used_iff.mp hused
      simp only [Nesting.watch, Nesting.perform,
        own_of_unused hreaders howned, ← hbody]
  | .request body verdict, c, journal => by
    have hbody := Nesting.watchAll_eq_performAll body { c with owned := true }
      (journal.enter .exclusive)
    by_cases hused : c.Used
    · simp only [Nesting.watch, Nesting.perform, Cell.request, own_of_used hused, Option.getD_none]
    · obtain ⟨hreaders, howned⟩ := not_used_iff.mp hused
      simp only [Nesting.watch, Nesting.perform, Cell.request, Option.getD_some,
        own_of_unused hreaders howned, ← hbody]

theorem Nesting.watchAll_eq_performAll : ∀ (nestings : List Nesting) (c : Cell n)
    (journal : Journal),
    ((Nesting.watchAll nestings c journal).1, (Nesting.watchAll nestings c journal).2.1)
      = Nesting.performAll nestings c
  | [], c, journal => rfl
  | nesting :: rest, c, journal => by
    have hfirst := nesting.watch_eq_perform c journal
    have hrest := Nesting.watchAll_eq_performAll rest (nesting.watch c journal).2.1
      (nesting.watch c journal).2.2
    simp only [Nesting.watchAll, Nesting.performAll, ← hfirst, ← hrest]

end

end PacedAudio.Cell
