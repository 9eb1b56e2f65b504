import EffectFibers.Effect.Concurrent
import EffectFibers.Machine.Blocking

/-!
# A first demonstration

A small program is built without running anything, and is then run: steps in sequence, failures
that are retried, a finalizer, and messages inside a span.  After it come a failure that is
recovered, and a defect that passes the handler.  The world is the number of calls of a function
that fails twice.
-/

namespace EffectFibers.Demo.Basic

/-- Fails twice, and then has ten times the number of calls as its value. -/
def flaky : Effect Nat := .trySync do
  let n := (← Action.get) + 1
  Action.modify fun _ => n
  if n < 3 then return .error (.plain s!"attempt {n} refused")
  else return .ok (.int (n * 10))

/-- At most five more attempts, after delays that double. -/
def policy : Schedule Failure :=
  (Schedule.recurs 5).intersect (.exponential (.ofMillis 5) 2.0)

/-- A function on numbers. -/
def onInt (f : Int → Int) (v : Value) : Action Nat Value :=
  match v with
  | .int n => pure (.int (f n))
  | _ => Action.panic (.text "not a number")

/-- Fetch a number, double it and add two. -/
def fetchAndDouble : Effect Nat :=
  (Effect.log "starting").flatMap fun _ => pure <|
    (flaky.retry policy).flatMap fun fetched => do
      let shown := match fetched with
        | .int n => toString n
        | _ => ""
      return (Effect.log ("fetched " ++ shown)).flatMap fun _ => pure <|
        ((Effect.succeed fetched).map (onInt (· * 2))).flatMap fun doubled => do
          return .succeed (← onInt (· + 2) doubled)

/-- The program, with a finalizer that leaves a note. -/
def program : Effect Nat :=
  (fetchAndDouble.withLogSpan "basic").ensuring (.sync do
    Action.request (.note (.str "finalizer ran"))
    return .null)

/-- A failure that is recovered with the length of its text. -/
def recovered : Effect Nat :=
  (Effect.fail (.plain "no such user")).catchAll fun failure =>
    pure (.sync (pure (.int failure.text.utf8ByteSize)))

/-- A defect under a handler. -/
def guarded : Effect Nat :=
  (Effect.sync (Action.panic (.text "bug"))).catchAll fun _ => pure (.succeed (.int 0))

/-- A number, or nothing. -/
def number : Value → String
  | .int n => toString n
  | _ => ""

/-- The text of a note. -/
def noteText : Value → String
  | .str s => s
  | _ => ""

/-- What happened to the program. -/
def resultLine (calls : Nat) : Except RunError (Option Exit) → List String
  | .ok (some (.ok v)) => [s!"Result: {number v} after {calls} calls"]
  | .ok (some (.error cause)) => ["Program " ++ cause.text Failure.text]
  | .ok none => []
  | .error e => ["Could not start: " ++ e.text]

/-- A failure in detailed output. -/
def debugFailure (f : Failure) : String := Text.quoted f.text

/-- An outcome in detailed output. -/
def debugOutcome : Except RunError (Option Exit) → String
  | .ok (some (.ok v)) => "Ok(Ok(" ++ number v ++ "))"
  | .ok (some (.error cause)) => "Ok(Err(" ++ cause.debug debugFailure ++ "))"
  | .ok none => ""
  | .error (.config e) => "Err(Config(" ++ e.debug ++ "))"
  | .error e => "Err(" ++ e.name ++ ")"

/-- What happened to the defect. -/
def defectLine : Except RunError (Option Exit) → String
  | .ok (some (.error (.die d))) => "Defect passed the handler: " ++ d.text
  | outcome => "Unexpected: " ++ debugOutcome outcome

/-- What the demonstration prints. -/
def output (config : Config) : List String :=
  let start : Machine Nat := .start { host := 0 }
  let (result, m) := start.runBlocking config program
  let (second, m) := m.runBlocking config recovered
  let (third, m) := m.runBlocking config guarded
  ["=== effex Basic Example ===", "", "Program built; calls so far: 0"]
    ++ m.notes.map noteText ++ resultLine m.world.host result
    ++ ["Recovered: " ++ debugOutcome second, defectLine third, "",
        "=== Example Complete ==="]

end EffectFibers.Demo.Basic
