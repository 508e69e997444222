/-
# PacedAudio.Proofs.Cell.Borrowing — every nesting keeps the rule of borrowing

A journal knows which borrows are live, and a cell has only its two marks to decide by. `Marked`
says that the marks fit the live borrows, of which an exclusive one is always alone. Then a call is
refused exactly if the rule bars it, and what is carried out leaves the marks as it has found
them, so they fit again. By induction over the tree of calls, the rule is kept throughout, and a
cell behaves as a session does that is given the operations of the bodies that are run, one after
the other (`borrows_disciplined`).
-/

import PacedAudio.Cell.Journal

namespace PacedAudio.Cell

open Session (Operation Answer)

variable {n : Nat}

/-! ## Marks -/

/-- An exclusive borrow has no other beside it. -/
def Alone (live : List Hold) : Prop := .exclusive ∈ live → live = [.exclusive]

/-- The marks of a cell fit the borrows that are live. -/
structure Marked (c : Cell n) (live : List Hold) : Prop where
  owned_iff : c.owned = true ↔ .exclusive ∈ live
  readers_eq : c.readers = live.count .shared
  alone : Alone live

theorem eq_ofSession {c : Cell n} {s : Session n} (hsession : c.session = s)
    (howned : c.owned = false) (hreaders : c.readers = 0) : c = ofSession s := by
  obtain ⟨session, owned, readers⟩ := c
  cases hsession
  cases howned
  cases hreaders
  rfl

theorem marked_ofSession (s : Session n) : Marked (ofSession s) [] :=
  ⟨by simp [ofSession], rfl, nofun⟩

namespace Marked

variable {c : Cell n} {live : List Hold}

/-- A borrow that is not barred leaves an exclusive one alone. -/
theorem alone_cons {hold : Hold} (h : ¬ hold.Barred live) : Alone (hold :: live) := by
  intro hmem
  cases hold with
  | shared =>
    cases hmem with
    | tail _ hmem => exact absurd hmem h
  | exclusive =>
    rw [show live = [] from Decidable.not_not.mp h]

theorem not_mem_of_not_owned (h : Marked c live) (howned : c.owned = false) :
    Hold.exclusive ∉ live := by
  rw [← h.owned_iff, howned]
  nofun

/-- A shared borrow joins others of its kind. -/
theorem enter_shared (h : Marked c live) (howned : c.owned = false) :
    Marked { c with readers := c.readers + 1 } (.shared :: live) := by
  have hnone : Hold.exclusive ∉ live := h.not_mem_of_not_owned howned
  refine ⟨?_, ?_, alone_cons hnone⟩
  · simp [howned, hnone]
  · simp [h.readers_eq]

/-- A mark is set exactly if a borrow is live. -/
theorem used_iff (h : Marked c live) : c.Used ↔ live ≠ [] := by
  rw [Used, h.readers_eq, h.owned_iff]
  constructor
  · rintro (hshared | hexclusive) rfl
    · exact hshared rfl
    · cases hexclusive
  · intro hlive
    obtain ⟨hold, hmem⟩ := List.exists_mem_of_ne_nil live hlive
    cases hold with
    | shared => exact Or.inl (Nat.ne_of_gt (List.count_pos_iff.mpr hmem))
    | exclusive => exact Or.inr hmem

/-- An exclusive borrow is alone. -/
theorem enter_exclusive (hlive : live = []) (hreaders : c.readers = 0) :
    Marked { c with owned := true } (.exclusive :: live) := by
  subst hlive
  exact ⟨by simp, hreaders, fun _ => rfl⟩

end Marked

/-! ## Calls leave the marks as they find them -/

mutual

/-- Whatever a nesting does, it leaves the marks as it has found them. -/
theorem Nesting.perform_marks : ∀ (nesting : Nesting) (c : Cell n),
    (nesting.perform c).2.owned = c.owned ∧ (nesting.perform c).2.readers = c.readers
  | .operate operation, c => ⟨rfl, rfl⟩
  | .share body, c => by
    have hbody := Nesting.performAll_marks body { c with readers := c.readers + 1 }
    cases howned : c.owned with
    | true => simp only [Nesting.perform, share_of_owned howned, howned, and_self]
    | false =>
      simp only [Nesting.perform, share_of_not_owned howned]
      exact ⟨hbody.1.trans howned, by rw [hbody.2, Nat.add_sub_cancel]⟩
  | .own body, c => by
    have hbody := Nesting.performAll_marks body { c with owned := true }
    by_cases hused : c.Used
    · simp only [Nesting.perform, own_of_used hused, and_self]
    · obtain ⟨hreaders, howned⟩ := not_used_iff.mp hused
      simp only [Nesting.perform, own_of_unused hreaders howned, hbody, howned, and_self]
  | .request body verdict, c => by
    have hbody := Nesting.performAll_marks body { c with owned := true }
    by_cases hused : c.Used
    · simp only [Nesting.perform, Cell.request, own_of_used hused, and_self]
    · obtain ⟨hreaders, howned⟩ := not_used_iff.mp hused
      simp only [Nesting.perform, Cell.request, own_of_unused hreaders howned, hbody, howned,
        and_self]

theorem Nesting.performAll_marks : ∀ (nestings : List Nesting) (c : Cell n),
    (Nesting.performAll nestings c).2.owned = c.owned
      ∧ (Nesting.performAll nestings c).2.readers = c.readers
  | [], c => ⟨rfl, rfl⟩
  | nesting :: rest, c => by
    obtain ⟨howned, hreaders⟩ := nesting.perform_marks c
    obtain ⟨howned', hreaders'⟩ := Nesting.performAll_marks rest (nesting.perform c).2
    exact ⟨howned'.trans howned, hreaders'.trans hreaders⟩

end

/-! ## What a watched nesting does -/

/-- The call was refused exactly if the rule bars it, reported what is due for that, and came and
began its body with no other borrow beside an exclusive one. -/
structure Call.Lawful (call : Call) : Prop where
  refused_iff : call.body = none ↔ call.manner.hold.Barred call.live
  report_eq : call.report = call.manner.due call.body
  alone_before : Alone call.live
  alone_within : call.body ≠ none → Alone (call.manner.hold :: call.live)

/-- What lies between one cell with its journal and the next: the operations that were performed,
and what was reported. -/
structure Conduct (c : Cell n) (j : Journal) (operations : List Operation)
    (reports : List Report) (c' : Cell n) (j' : Journal) : Prop where
  live_eq : j'.live = j.live
  session_eq : c'.session = c.session.after operations
  operations_eq : j'.operations = j.operations ++ operations
  answers_eq : Report.answers reports = (run Session.perform c.session operations).1
  calls_lawful : ∃ calls, j'.calls = j.calls ++ calls ∧ calls.map Call.report = Report.calls reports
    ∧ ∀ call ∈ calls, call.Lawful

theorem Report.answers_append (reports more : List Report) :
    Report.answers (reports ++ more) = Report.answers reports ++ Report.answers more := by
  induction reports with
  | nil => rfl
  | cons report rest ih =>
    simp only [Report.answers, List.cons_append, Report.flattenAll, List.filterMap_append] at ih ⊢
    rw [ih, List.append_assoc]

theorem Report.calls_append (reports more : List Report) :
    Report.calls (reports ++ more) = Report.calls reports ++ Report.calls more := by
  induction reports with
  | nil => rfl
  | cons report rest ih =>
    simp only [Report.calls, List.cons_append, Report.flattenAll, List.filter_append] at ih ⊢
    rw [ih, List.append_assoc]

namespace Conduct

variable {c c' c'' : Cell n} {j j' j'' : Journal} {operations more : List Operation}
  {reports others : List Report}

theorem refl (c : Cell n) (j : Journal) : Conduct c j [] [] c j :=
  ⟨rfl, rfl, (List.append_nil _).symm, rfl, [], (List.append_nil _).symm, rfl, nofun⟩

theorem trans (h : Conduct c j operations reports c' j') (h' : Conduct c' j' more others c'' j'') :
    Conduct c j (operations ++ more) (reports ++ others) c'' j'' := by
  obtain ⟨calls, hcalls, hreports, hlawful⟩ := h.calls_lawful
  obtain ⟨calls', hcalls', hreports', hlawful'⟩ := h'.calls_lawful
  refine ⟨h'.live_eq.trans h.live_eq, ?_, ?_, ?_, calls ++ calls', ?_, ?_, ?_⟩
  · rw [h'.session_eq, h.session_eq, Session.after_append]
  · rw [h'.operations_eq, h.operations_eq, List.append_assoc]
  · rw [Report.answers_append, h.answers_eq, h'.answers_eq, h.session_eq, run_append]
    rfl
  · rw [hcalls', hcalls, List.append_assoc]
  · rw [List.map_append, hreports, hreports', Report.calls_append]
  · exact fun call hcall => (List.mem_append.mp hcall).elim (hlawful call) (hlawful' call)

/-- An operation is performed, whatever is live. -/
theorem operate (c : Cell n) (j : Journal) (operation : Operation) :
    Conduct c j [operation] [.operated (c.session.perform operation).1]
      { c with session := (c.session.perform operation).2 } (j.perform operation) :=
  ⟨rfl, rfl, rfl, rfl, [], (List.append_nil _).symm, rfl, nofun⟩

/-- A call that the rule bars is refused, and nothing happens. -/
theorem refused (manner : Manner) (hmarked : Marked c j.live) (hbarred : manner.hold.Barred j.live) :
    Conduct c j [] [manner.due none] c (j.note manner none (manner.due none)) := by
  refine ⟨rfl, rfl, (List.append_nil _).symm, ?_, [⟨j.live, manner, none, manner.due none⟩], rfl,
    ?_, ?_⟩
  · cases manner <;> rfl
  · cases manner <;> rfl
  · intro call hcall
    rw [List.mem_singleton.mp hcall]
    exact ⟨iff_of_true rfl hbarred, rfl, hmarked.alone, absurd rfl⟩

/-- A call that the rule does not bar is granted, and does what its body does. -/
theorem granted (manner : Manner) {entered left : Cell n} (hmarked : Marked c j.live)
    (hallowed : ¬ manner.hold.Barred j.live)
    (hbody : Conduct entered (j.enter manner.hold) operations reports left j')
    (hentered : entered.session = c.session) (hleft : c'.session = left.session) :
    Conduct c j operations [manner.due (some reports)] c'
      (j'.leave.note manner (some reports) (manner.due (some reports))) := by
  obtain ⟨calls, hcalls, hreports, hlawful⟩ := hbody.calls_lawful
  have hlive : j'.leave.live = j.live := congrArg List.tail hbody.live_eq
  have hanswers : Report.answers [manner.due (some reports)] = Report.answers reports := by
    cases manner <;> simp [Report.answers, Report.flattenAll, Report.flatten, Manner.due,
      Report.answer?]
  have hdue : Report.calls [manner.due (some reports)]
      = Report.calls reports ++ [manner.due (some reports)] := by
    cases manner <;> simp [Report.calls, Report.flattenAll, Report.flatten, Manner.due,
      Report.answer?]
  refine ⟨hlive, ?_, hbody.operations_eq, ?_,
    calls ++ [⟨j.live, manner, some reports, manner.due (some reports)⟩], ?_, ?_, ?_⟩
  · rw [hleft, hbody.session_eq, hentered]
  · rw [hanswers, hbody.answers_eq, hentered]
  · rw [Journal.note, hlive, ← List.append_assoc]
    exact congrArg (· ++ _) hcalls
  · rw [List.map_append, hreports, hdue]
    rfl
  · intro call hcall
    rcases List.mem_append.mp hcall with hcall | hcall
    · exact hlawful call hcall
    · rw [List.mem_singleton.mp hcall]
      exact ⟨iff_of_false nofun hallowed, rfl, hmarked.alone, fun _ => Marked.alone_cons hallowed⟩

end Conduct

/-! ## Nestings -/

/-- The borrow that decides what is let through. -/
def Borrow.ofLive (live : List Hold) : Borrow :=
  if .exclusive ∈ live then .owned else if live = [] then .free else .shared

section Admitted

variable {live : List Hold} (body : List Nesting)
  (verdict : List Report → Except Refusal Unit)

theorem admitted_share_of_barred (h : Hold.exclusive ∈ live) :
    (Nesting.share body).admitted (Borrow.ofLive live) = [] := by
  rw [Borrow.ofLive, if_pos h]
  rfl

theorem admitted_share_of_allowed (h : Hold.exclusive ∉ live) :
    (Nesting.share body).admitted (Borrow.ofLive live)
      = Nesting.admittedAll (Borrow.ofLive (.shared :: live)) body := by
  have hbody : Borrow.ofLive (.shared :: live) = .shared := by simp [Borrow.ofLive, h]
  rw [Borrow.ofLive, if_neg h, hbody]
  split <;> rfl

theorem admitted_exclusive_of_barred (h : live ≠ []) :
    (Nesting.own body).admitted (Borrow.ofLive live) = []
      ∧ (Nesting.request body verdict).admitted (Borrow.ofLive live) = [] := by
  rw [Borrow.ofLive, if_neg h]
  split <;> exact ⟨rfl, rfl⟩

theorem admitted_exclusive_of_free (h : live = []) :
    (Nesting.own body).admitted (Borrow.ofLive live)
        = Nesting.admittedAll (Borrow.ofLive (.exclusive :: live)) body
      ∧ (Nesting.request body verdict).admitted (Borrow.ofLive live)
        = Nesting.admittedAll (Borrow.ofLive (.exclusive :: live)) body := by
  subst h
  exact ⟨rfl, rfl⟩

end Admitted

/-- Watching leaves the marks as carrying out does. -/
theorem Nesting.watch_marked {c : Cell n} {j : Journal} (nesting : Nesting)
    (hmarked : Marked c j.live) : Marked (nesting.watch c j).2.1 j.live := by
  obtain ⟨howned, hreaders⟩ := nesting.perform_marks c
  have hcell : (nesting.watch c j).2.1 = (nesting.perform c).2 :=
    congrArg Prod.snd (nesting.watch_eq_perform c j)
  refine ⟨?_, ?_, hmarked.alone⟩
  · rw [hcell, howned]
    exact hmarked.owned_iff
  · rw [hcell, hreaders]
    exact hmarked.readers_eq

mutual

/-- What a nesting does when the marks fit the live borrows. -/
theorem Nesting.watch_conduct : ∀ (nesting : Nesting) (c : Cell n) (j : Journal),
    Marked c j.live →
      Conduct c j (nesting.admitted (Borrow.ofLive j.live)) [(nesting.watch c j).1]
        (nesting.watch c j).2.1 (nesting.watch c j).2.2
  | .operate operation, c, j, _ => Conduct.operate c j operation
  | .share body, c, j, hmarked => by
    cases howned : c.owned with
    | true =>
      have hbarred : Hold.exclusive ∈ j.live := hmarked.owned_iff.mp howned
      rw [admitted_share_of_barred body hbarred]
      simp only [Nesting.watch, share_of_owned howned]
      exact Conduct.refused .share hmarked hbarred
    | false =>
      have hallowed := hmarked.not_mem_of_not_owned howned
      have hbody := Nesting.watchAll_conduct body { c with readers := c.readers + 1 }
        (j.enter .shared) (hmarked.enter_shared howned)
      rw [admitted_share_of_allowed body hallowed]
      simp only [Nesting.watch, share_of_not_owned howned]
      exact Conduct.granted .share hmarked hallowed hbody rfl rfl
  | .own body, c, j, hmarked => by
    by_cases hused : c.Used
    · have hbarred := hmarked.used_iff.mp hused
      rw [(admitted_exclusive_of_barred body (fun _ => .ok ()) hbarred).1]
      simp only [Nesting.watch, own_of_used hused]
      exact Conduct.refused .own hmarked hbarred
    · obtain ⟨hreaders, howned⟩ := not_used_iff.mp hused
      have hfree : j.live = [] := Decidable.not_not.mp (mt hmarked.used_iff.mpr hused)
      have hbody := Nesting.watchAll_conduct body { c with owned := true } (j.enter .exclusive)
        (Marked.enter_exclusive hfree hreaders)
      rw [admitted_exclusive_of_free body (fun _ => .ok ()) hfree |>.1]
      simp only [Nesting.watch, own_of_unused hreaders howned]
      exact Conduct.granted .own hmarked (fun hbarred => hbarred hfree) hbody rfl rfl
  | .request body verdict, c, j, hmarked => by
    by_cases hused : c.Used
    · have hbarred := hmarked.used_iff.mp hused
      rw [(admitted_exclusive_of_barred body verdict hbarred).2]
      simp only [Nesting.watch, Cell.request, own_of_used hused]
      exact Conduct.refused (.request verdict) hmarked hbarred
    · obtain ⟨hreaders, howned⟩ := not_used_iff.mp hused
      have hfree : j.live = [] := Decidable.not_not.mp (mt hmarked.used_iff.mpr hused)
      have hbody := Nesting.watchAll_conduct body { c with owned := true } (j.enter .exclusive)
        (Marked.enter_exclusive hfree hreaders)
      rw [admitted_exclusive_of_free body verdict hfree |>.2]
      simp only [Nesting.watch, Cell.request, own_of_unused hreaders howned]
      exact Conduct.granted (.request verdict) hmarked (fun hbarred => hbarred hfree) hbody rfl rfl

theorem Nesting.watchAll_conduct : ∀ (nestings : List Nesting) (c : Cell n) (j : Journal),
    Marked c j.live →
      Conduct c j (Nesting.admittedAll (Borrow.ofLive j.live) nestings)
        (Nesting.watchAll nestings c j).1 (Nesting.watchAll nestings c j).2.1
        (Nesting.watchAll nestings c j).2.2
  | [], c, j, _ => Conduct.refl c j
  | nesting :: rest, c, j, hmarked => by
    have hfirst := nesting.watch_conduct c j hmarked
    have hrest := Nesting.watchAll_conduct rest (nesting.watch c j).2.1 (nesting.watch c j).2.2
    rw [hfirst.live_eq] at hrest
    exact hfirst.trans (hrest (nesting.watch_marked hmarked))

end

/-- The borrows of every nesting keep the rule. From a cell that nobody uses, watched from the
beginning:

* a call is refused exactly if a borrow is live that bars it, its body is then not run, and what it
  reports is due for that; an exclusive borrow is never live beside another;
* the operations that are performed are those of the bodies that are run, and they are answered, and
  leave the session, as on a session alone; afterwards nobody uses the cell.

Every call leaves the marks of any cell as it has found them. -/
theorem borrows_disciplined (s : Session n) (nestings : List Nesting) :
    let (reports, c, journal) := Nesting.watchAll nestings (ofSession s) .blank
    (reports, c) = Nesting.performAll nestings (ofSession s)
      ∧ journal.calls.map Call.report = Report.calls reports
      ∧ (∀ call ∈ journal.calls, call.Lawful)
      ∧ journal.operations = Nesting.admittedAll .free nestings
      ∧ Report.answers reports = (run Session.perform s journal.operations).1
      ∧ c = ofSession (s.after journal.operations)
      ∧ ∀ (nesting : Nesting) (c : Cell n),
          (nesting.perform c).2.owned = c.owned ∧ (nesting.perform c).2.readers = c.readers := by
  have hconduct := Nesting.watchAll_conduct nestings (ofSession s) .blank (marked_ofSession s)
  obtain ⟨calls, hcalls, hreports, hlawful⟩ := hconduct.calls_lawful
  have hperform := Nesting.watchAll_eq_performAll nestings (ofSession s) .blank
  have hmarks := Nesting.performAll_marks nestings (ofSession s)
  rw [← hperform] at hmarks
  have hoperations : (Nesting.watchAll nestings (ofSession s) .blank).2.2.operations
      = Nesting.admittedAll .free nestings := hconduct.operations_eq
  refine ⟨hperform, ?_, ?_, hoperations, ?_, ?_, Nesting.perform_marks⟩
  · rw [hcalls]
    exact hreports
  · rw [hcalls]
    exact hlawful
  · rw [hoperations]
    exact hconduct.answers_eq
  · rw [hoperations]
    exact eq_ofSession hconduct.session_eq hmarks.1 hmarks.2

/-- Readers nest, an owner among them is refused, and an owner's request finds the cell busy. -/
example (s : Session n) :
    (Nesting.performAll
      [.share [.share [.own []], .share []], .own [.share [], .request [] fun _ => .ok ()]]
      (ofSession s)).1
      = [.granted [.granted [.refused], .granted []],
          .granted [.refused, .requested (.error .busy) []]] :=
  rfl

end PacedAudio.Cell
