/-
# PacedAudio.Cell.Nesting — borrows within borrows

A *nesting* is a tree of borrows with session operations in their bodies. `Nesting.performAll`
carries it out on a cell, where each borrow is granted or refused by the cell's marks.
`Nesting.admitted` says which operations the rule of borrowing lets through, from nothing but the
kind of borrow that is live: a shared borrow is refused under an owner, and an exclusive one under
any borrow.
-/

import PacedAudio.Cell.Basic
import PacedAudio.Session.Operation

namespace PacedAudio.Cell

open Session (Operation Answer)

/-- What is observed of a nesting. -/
inductive Report where
  /-- The answer of an operation. -/
  | operated (answer : Answer)
  /-- A borrow was refused, and its body not run. -/
  | refused
  /-- A borrow was granted. -/
  | granted (body : List Report)
  /-- What became of a request, with the reports of its body if it was run. -/
  | requested (result : Except Refusal Unit) (body : List Report)

/-- A tree of borrows. -/
inductive Nesting where
  /-- An operation on the session, in the innermost borrow. -/
  | operate (operation : Operation)
  /-- A shared borrow. -/
  | share (body : List Nesting)
  /-- An exclusive borrow. -/
  | own (body : List Nesting)
  /-- A request that needs the session to itself; its body comes to a verdict. -/
  | request (body : List Nesting) (verdict : List Report → Except Refusal Unit)

variable {n : Nat}

mutual

/-- Carries out a nesting. -/
def Nesting.perform : Nesting → Cell n → Report × Cell n
  | .operate operation, c =>
    let (answer, session) := c.session.perform operation
    (.operated answer, { c with session := session })
  | .share body, c =>
    let (reports, after, _) := c.share () fun c _ =>
      let (reports, after) := Nesting.performAll body c
      (reports, after, ())
    (match reports with
      | some reports => .granted reports
      | none => .refused, after)
  | .own body, c =>
    let (reports, after, _) := c.own () fun c _ =>
      let (reports, after) := Nesting.performAll body c
      (reports, after, ())
    (match reports with
      | some reports => .granted reports
      | none => .refused, after)
  | .request body verdict, c =>
    let (result, after, reports) := c.request [] fun c _ =>
      let (reports, after) := Nesting.performAll body c
      (verdict reports, after, reports)
    (.requested result reports, after)

/-- Carries out the nestings of a body in turn. -/
def Nesting.performAll : List Nesting → Cell n → List Report × Cell n
  | [], c => ([], c)
  | nesting :: rest, c =>
    let (report, next) := nesting.perform c
    let (reports, last) := Nesting.performAll rest next
    (report :: reports, last)

end

/-- The borrow that is live. -/
inductive Borrow where
  | free
  | shared
  | owned
deriving DecidableEq, Repr

mutual

/-- The operations of a nesting that the rule of borrowing lets through, in order. -/
def Nesting.admitted : Borrow → Nesting → List Operation
  | _, .operate operation => [operation]
  | .owned, .share _ => []
  | _, .share body => Nesting.admittedAll .shared body
  | .free, .own body => Nesting.admittedAll .owned body
  | _, .own _ => []
  | .free, .request body _ => Nesting.admittedAll .owned body
  | _, .request _ _ => []

/-- The operations of a body that are let through. -/
def Nesting.admittedAll : Borrow → List Nesting → List Operation
  | _, [] => []
  | borrow, nesting :: rest => nesting.admitted borrow ++ Nesting.admittedAll borrow rest

end

end PacedAudio.Cell
