import EffectFibers.Machine.Blocking
import EffectFibers.Program.Build
import EffectFibers.Program.Transcript

/-!
# Running programs

A session declares tags, cells and layers, builds a program once, and runs it on a machine, as
often as asked.  While a run is under way a script may look at it, open gates, cancel it or shut
the machine down.  Every step of the script waits until nothing more can happen without time
passing.

## Main definitions

* `Setup.declare` – the scope and the world in which programs are built.
* `ScriptStep` – what a script can do, with `ScriptStep.perform`.
* `runOnce` – one run with its script.
* `Setup.runs` – the reports of several runs.
-/

namespace EffectFibers.Program

/-! ## Declarations -/

/-- What programs may refer to. -/
structure Setup where
  style : FailureStyle := .tagged
  threadName : String
  /-- The tags by their keys, with their names. -/
  tags : List (String × String) := []
  layers : List (String × LayerExpr) := []
  /-- The named cells with what they hold at first. -/
  refs : List (String × Value) := []

/-- Tags with identifiers, in order. -/
def makeTags (supply : Supply .tag) : List (String × String) → List (String × Tag)
  | [] => []
  | (key, name) :: rest =>
    let (id, supply) := supply.next
    (key, { id, name }) :: makeTags supply rest

/-- Build layers in order; each one may refer to those before it. -/
def declareLayers (s : Scope) : List (String × LayerExpr) → Code Scope
  | [] => return s
  | (name, e) :: rest => do
    let layer ← e.build s
    declareLayers (s.nameLayer name layer) rest

/-- The declarations, given the layers that the continuations in them can name. -/
def Setup.declareWith (setup : Setup) (laterLayer? : String → Option (Layer Host)) :
    Except Panic (Scope × World Host) :=
  let scope : Scope := {
    style := setup.style
    threadName := setup.threadName
    tags := (makeTags {} setup.tags).reverse
    laterLayer? }
  let host := setup.refs.foldl (fun h cell => h.nameCell cell.1 cell.2) ({} : Host)
  (declareLayers scope setup.layers).alone { host }

/-- The layer of a name, with declarations that can be looked up through so many continuations,
each inside the one before.  Declaring draws the same identifiers every time, so all these copies
of a layer are the same layer. -/
def Setup.layerWithin (setup : Setup) : Nat → String → Option (Layer Host)
  | 0, _ => none
  | depth + 1, name =>
    match setup.declareWith (setup.layerWithin depth) with
    | .ok (scope, _) => scope.layer? name
    | .error _ => none

/-- A depth that no run reaches, because every look-up of a layer takes a step of its own. -/
def lookupDepth : Nat := 1 <<< 32

/-- The scope and the world in which programs are built. -/
def Setup.declare (setup : Setup) : Except Panic (Scope × World Host) := do
  let (scope, world) ← setup.declareWith (setup.layerWithin lookupDepth)
  return ({ scope with laterLayer? := scope.layer? }, world)

/-- The effect of a program, with the world after building it. -/
def Setup.build (setup : Setup) (e : Expr) : Except Panic (Effect Host × World Host) := do
  let (scope, world) ← setup.declare
  (e.build scope).alone world

/-! ## Scripts -/

/-- What a script does while a run is under way. -/
inductive ScriptStep
  | cancel
  | openGate (name : String) (x : Value)
  | status
  /-- Wait for the result for a moment, and take it. -/
  | poll
  | mark (v : Value)
  | ref (name : String)
  | counter (name : String)
  | debug
  /-- See whether the machine would start another program. -/
  | tryRun
  | shutdown

/-- How long a script waits when it polls. -/
def pollTime : Duration := .ofMillis 2

/-- How long the end of a run is waited for. -/
def patienceTime : Duration := .ofSecs 3

/-- Wait for the end of a run, but no longer than that. -/
def waitFor (m : Machine Host) (f : FiberId) (d : Duration) : Machine Host :=
  m.waitUntil d (·.isFinished f)

/-- Run user code on the worker.  A machine that was told to shut down does not. -/
def visit (m : Machine Host) (code : Code Unit) : Machine Host :=
  if m.stopping then m else (m.perform code).2

/-- The handle of a run in detailed output, without the number of its root. -/
def debugHandle (status : FiberStatus) : String :=
  Text.record "RunHandle" [("fiber", "FiberId(_)"), ("status", status.debug)]

/-- One step of a script: its answer, and the machine after it. -/
def ScriptStep.perform (style : FailureStyle) (m : Machine Host) (f : FiberId) :
    ScriptStep → Value × Machine Host
  | .cancel => (.null, visit m (Action.request (.interrupt f)))
  | .openGate name x =>
    match exitOfValue? style x with
    | some exit => (.null, visit m (EffectFibers.Program.openGate name exit))
    | none => (.null, m)
  | .status => (.list [.str (m.status f).text, .bool (m.isFinished f)], m)
  | .poll =>
    match (waitFor m f pollTime).takeResult f with
    | (some exit, m) => (Exit.shown exit, m)
    | (none, m) => (.str "pending", m)
  | .mark v => (.null, m.write (.note (.list [.str "mark", v])))
  | .ref name => ((m.world.host.namedCells.lookup name).getD .null |>.shown, m)
  | .counter name => ((m.world.host.counter? name).elim .null fun n => .int n, m)
  | .debug => (.str (debugHandle (m.status f)), m)
  | .tryRun =>
    match m.vet Effect.unit with
    | .ok () => (.str "ok", m)
    | .error e => (.str e.text, m)
  | .shutdown => (.bool true, m.shutDown)

/-- Perform the steps of a script, each of them when the machine has settled. -/
def script (style : FailureStyle) (m : Machine Host) (f : FiberId) :
    List ScriptStep → List Value × Machine Host
  | [] => ([], m)
  | step :: rest =>
    let (answer, m) := step.perform style m.settle f
    let (answers, m) := script style m f rest
    (answer :: answers, m)

/-! ## Runs -/

/-- What came of a run. -/
inductive RunReport
  | rejected (error : RunError)
  | ran (exit : Option Exit) (status : FiberStatus) (record : List Line) (answers : List Value)

/-- Run an effect with a script. -/
def runOnce (style : FailureStyle) (m : Machine Host) (e : Effect Host) (traced : Bool)
    (steps : List ScriptStep) : RunReport × Machine Host :=
  match { m with record := #[] }.launch e with
  | .error error => (.rejected error, m)
  | .ok (f, m) =>
    let m := { m with world := { m.world with host := { m.world.host with root := some f } } }
    let (answers, m) := script style m f steps
    let (exit, m) := (waitFor m f patienceTime).takeResult f
    let m := m.settle
    (.ran exit (m.status f) (transcript f traced m.record.toList) answers, m)

/-- Run an effect a number of times, one run after the other. -/
def runMany (style : FailureStyle) (e : Effect Host) (traced : Bool) (steps : List ScriptStep) :
    Nat → Machine Host → List RunReport × Machine Host
  | 0, m => ([], m)
  | n + 1, m =>
    let (report, m) := runOnce style m e traced steps
    let (reports, m) := runMany style e traced steps n m
    (report :: reports, m)

/-- The reports of some runs of one program, and the world after them. -/
def Setup.runs (setup : Setup) (program : Expr) (traced : Bool) (steps : List ScriptStep)
    (times : Nat) : Except Panic (List RunReport × Host) := do
  let (e, world) ← setup.build program
  let (reports, m) := runMany setup.style e traced steps times (Machine.start world)
  return (reports, m.world.host)

end EffectFibers.Program
