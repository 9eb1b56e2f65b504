import EffectFibers.Effect.Sequential

/-!
# Concurrent combinators

Racing effects, running many of them at once, time limits, and fibers that are started and then
joined, awaited or interrupted.  Every child fiber is supervised by the fiber that started it.
-/

namespace EffectFibers.Effect

variable {σ : Type}

/-! ## Races -/

/-- Run all the effects; the first one to end decides, and the others are interrupted and waited
for.  Racing nothing is a defect. -/
def raceAll (es : List (Effect σ)) : Effect σ :=
  { node := .race (es.map (·.node)), requires := .unionAll (es.map (·.requires)) }

/-- Run both effects; the first one to end decides. -/
def race (e f : Effect σ) : Effect σ := raceAll [e, f]

/-- Die of a timeout unless the effect ends within the limit. -/
def timeout (e : Effect σ) (limit : Duration) : Effect σ :=
  e.race ((sleep limit).zipRight (die (.timeout limit)))

/-- Fail in the given way unless the effect ends within the limit. -/
def timeoutFail (e : Effect σ) (limit : Duration) (failure : Failure) : Effect σ :=
  e.race ((sleep limit).zipRight (fail failure))

/-! ## Many at once -/

/-- The node that runs all the effects; its value lists their results in order. -/
def allNode (es : List (Effect σ)) (options : AllOptions) : Effect σ :=
  { node := .all (es.map (·.node)) options, requires := .unionAll (es.map (·.requires)) }

/-- The values among results, in order, unless one of the results is a failure.  Of the alien
values and the failures the earliest counts. -/
def collectValues : List Value → Except (Cause Failure) (List Value)
  | [] => .ok []
  | .result (.error failure) :: _ => .error (.fail failure)
  | .result (.ok v) :: rest =>
    match v with
    | .alien => .error (.die .typeMismatch)
    | v => (collectValues rest).map (v :: ·)
  | _ :: _ => .error (.die .typeMismatch)

/-- The results themselves, in order, unless one of them is of an alien type. -/
def collectResults : List Value → Except (Cause Failure) (List Value)
  | [] => .ok []
  | .result (.error .alien) :: _ => .error (.die .typeMismatch)
  | .result (.ok .alien) :: _ => .error (.die .typeMismatch)
  | .result r :: rest => (collectResults rest).map (.result r :: ·)
  | _ :: _ => .error (.die .typeMismatch)

/-- Go on with what is collected from the results of many effects. -/
def collecting (collect : List Value → Except (Cause Failure) (List Value)) (v : Value) :
    Action σ (Node σ) :=
  match v with
  | .list results =>
    match collect results with
    | .ok values => Node.given (.ok (.list values))
    | .error cause => Node.given (.error cause)
  | _ => pure (.die .typeMismatch)

/-- Run all the effects with the given options; the values come in the order of the effects. -/
def allWith (es : List (Effect σ)) (options : AllOptions) : Effect σ :=
  let all := allNode es options
  { node := .flatMap all.node (collecting collectValues), requires := all.requires }

/-- Run all the effects at once, and stop at the first failure. -/
def all (es : List (Effect σ)) : Effect σ := allWith es {}

/-- Run all the effects to their ends, and report each outcome. -/
def allSettled (es : List (Effect σ)) (concurrency : Concurrency) : Effect σ :=
  let all := allNode es { concurrency, mode := .collectAll }
  { node := .flatMap all.node (collecting collectResults), requires := all.requires }

/-! ## Fibers -/

/-- Start the effect in a supervised child fiber; the value is its handle. -/
def fork (e : Effect σ) : Effect σ :=
  { node := .flatMap (.fork e.node) fun v => (Node.given (.ok v) : Action σ (Node σ))
    requires := e.requires }

/-- Wait for a fiber, and adopt its exit.  Only one reader gets the exit. -/
def join (f : FiberId) : Effect σ := { node := .watch f .join }

/-- Wait for a fiber, and take its exit as a value. -/
def awaitExit (f : FiberId) : Effect σ := { node := .watch f .await }

/-- Interrupt a fiber, and wait for its end. -/
def interrupt (f : FiberId) : Effect σ := { node := .watch f .interrupt }

end EffectFibers.Effect
