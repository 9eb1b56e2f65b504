import EffectFibers.Machine.Launch

/-!
# Running a program to its end

The way for a caller that only wants the outcome: a runtime with a configuration starts the
program and waits for its exit.  It refuses to come up with a configuration that is not valid.
-/

namespace EffectFibers.Machine

variable {σ : Type}

/-- How long a caller waits. -/
def longWait : Duration := .ofSecs 1000000000

/-- Run a program to its end.  There is no exit if the program never ends. -/
def runBlocking (config : Config) (m : Machine σ) (e : Effect σ) :
    Except RunError (Option Exit) × Machine σ :=
  match config.validate with
  | .error error => (.error (.config error), m)
  | .ok () =>
    match m.launch e with
    | .error error => (.error error, m)
    | .ok (f, m) =>
      let (exit, m) := (m.waitUntil longWait (·.isFinished f)).takeResult f
      (.ok exit, m)

/-- The notes in the record, in order. -/
def notes (m : Machine σ) : List Value :=
  m.record.toList.filterMap fun
    | .note v => some v
    | _ => none

end EffectFibers.Machine
