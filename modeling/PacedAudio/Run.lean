/-
# PacedAudio.Run — operations performed one after the other

A step takes a state and an operation to an answer and the next state. `run` performs a list of
operations and lists their answers.
-/

namespace PacedAudio

variable {σ ι α : Type}

/-- Performs operations in turn: their answers, and the state afterwards. -/
def run (step : σ → ι → α × σ) : σ → List ι → List α × σ
  | state, [] => ([], state)
  | state, operation :: rest =>
    let (answer, next) := step state operation
    let (answers, last) := run step next rest
    (answer :: answers, last)

@[simp] theorem run_nil (step : σ → ι → α × σ) (state : σ) : run step state [] = ([], state) := rfl

@[simp] theorem run_cons (step : σ → ι → α × σ) (state : σ) (operation : ι) (rest : List ι) :
    run step state (operation :: rest)
      = ((step state operation).1 :: (run step (step state operation).2 rest).1,
          (run step (step state operation).2 rest).2) :=
  rfl

/-- A run of two lists goes on where the first one ended. -/
theorem run_append (step : σ → ι → α × σ) (state : σ) (first second : List ι) :
    run step state (first ++ second)
      = ((run step state first).1 ++ (run step (run step state first).2 second).1,
          (run step (run step state first).2 second).2) := by
  induction first generalizing state with
  | nil => rfl
  | cons operation rest ih => simp only [List.cons_append, run_cons, ih]

@[simp] theorem length_run (step : σ → ι → α × σ) (state : σ) (operations : List ι) :
    (run step state operations).1.length = operations.length := by
  induction operations generalizing state with
  | nil => rfl
  | cons operation rest ih => simp [ih]

/-- What every step keeps, a run keeps. -/
theorem run_invariant {step : σ → ι → α × σ} {Holds : σ → Prop}
    (h : ∀ state operation, Holds state → Holds (step state operation).2) {state : σ}
    (hstart : Holds state) (operations : List ι) : Holds (run step state operations).2 := by
  induction operations generalizing state with
  | nil => exact hstart
  | cons operation rest ih => exact ih (h state operation hstart)

end PacedAudio
