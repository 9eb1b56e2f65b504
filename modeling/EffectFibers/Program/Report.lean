import EffectFibers.Program.Session

/-!
# Reports as plain data

What came of a program, and what a layer looks like, as plain data with named fields.
-/

namespace EffectFibers.Program

/-! ## Runs -/

def LineField.report : LineField → Value
  | .number n => .int n
  | .text s => .str s

/-- A line: its kind, its level, its message and its fields. -/
def Line.report : Line → Value
  | .note v => v.shown
  | .log level message fiber spans =>
    .list [.str "log", .str level, .str message,
      .object [("fiber", .int fiber), ("spans", .str spans)]]
  | .trace level message fields =>
    .list [.str "trace", .str level, .str message,
      .object (fields.map fun entry => (entry.1, entry.2.report))]

/-- An error as its name and its text. -/
def errorReport (e : RunError) : List (String × Value) :=
  [("error", .str e.name), ("message", .str e.text)]

/-- The exit of a run that may still go on. -/
def exitReport : Option Exit → Value
  | some exit => Exit.shown exit
  | none => .str "pending"

/-- What came of a run.  The answers to a script are left out if there was no script. -/
def RunReport.report (scripted : Bool) : RunReport → Value
  | .rejected e => .object (errorReport e)
  | .ran exit status record answers =>
    .object ([("exit", exitReport exit), ("status", .str status.text),
      ("log", .list (record.map Line.report))]
      ++ if scripted then [("steps", .list (answers.map Value.shown))] else [])

/-- What came of several runs, with the counters that were used and the named cells. -/
def Setup.report (setup : Setup) (program : Expr) (traced : Bool) (steps : List ScriptStep)
    (times : Nat) : Except Panic Value := do
  let (reports, host) ← setup.runs program traced steps times
  let counters := host.counters.map fun entry => (entry.1, Value.int entry.2)
  let cells := host.namedCells.map fun entry => (entry.1, entry.2.shown)
  return .object ([("runs", .list (reports.map (RunReport.report !steps.isEmpty)))]
    ++ (if counters.isEmpty then [] else [("counters", .object counters)])
    ++ (if cells.isEmpty then [] else [("refs", .object cells)]))

/-- What came of a program that a caller waits for. -/
def Setup.blockingReport (setup : Setup) (config : Config) (program : Expr) :
    Except Panic Value := do
  let (e, world) ← setup.build program
  match ((Machine.start world).runBlocking config e).1 with
  | .error error => return .object (errorReport error)
  | .ok exit => return .object [("exit", exitReport exit), ("workers", .int config.workers)]

/-! ## Trees and layers -/

mutual

/-- The shape of a tree: the name of a leaf, or a name and the shapes of its parts. -/
def outlineReport : Outline → Value
  | .node name [] => .str name
  | .node name (first :: rest) =>
    .list (.str name :: outlineReport first :: outlineReports rest)

def outlineReports : List Outline → List Value
  | [] => []
  | first :: rest => outlineReport first :: outlineReports rest

end

/-- What can be seen of a program without running it. -/
def Setup.description (setup : Setup) (program : Expr) : Except Panic Value := do
  let (e, world) ← setup.build program
  return .object [("debug", .str e.debug), ("requires", .list (e.requires.names.map .str)),
    ("tree", outlineReport e.node.outline), ("log", .list []),
    ("counters", .object (world.host.counters.map fun entry => (entry.1, .int entry.2)))]

/-- Tags as their names and their places in the order of declaration. -/
def tagReport (r : Requirements) : Value :=
  .list (r.tags.entries.map fun entry => .list [.str entry.2, .int (entry.1.raw - 1)])

def layerNodeReport (n : LayerNode Host) : Value :=
  .object [("id", .int n.id.raw), ("name", .str n.name), ("in", tagReport n.inputs),
    ("out", tagReport n.outputs), ("build", .str n.build.name),
    ("debug", .str (n.debug "LayerId(_)"))]

/-- A plan, or the reason why there is none. -/
def planReport : LayerPlan Host → Value
  | .ok nodes => .list (nodes.map fun n => .list [.str n.name, .int n.id.raw])
  | .error e => .object [("error", .str e.name), ("message", .str e.text)]

/-- The number of planned layers. -/
def planSize : LayerPlan Host → Value
  | .ok nodes => .int nodes.length
  | .error _ => .null

/-- What a layer is made of, and how it is planned. -/
def layerReport (l : Layer Host) : Value :=
  .object [("debug", .str l.debug), ("exports", tagReport l.exports),
    ("requires", tagReport l.requirements), ("nodes", .list (l.nodes.map layerNodeReport)),
    ("plan", planReport l.plan), ("provide", .list [planSize l.plan, .int l.exports.size])]

/-- Some of the declared layers, by name. -/
def Setup.layerReports (setup : Setup) (shown : List String) : Except Panic Value := do
  let (scope, _) ← setup.declare
  return .object [("layers", .object (← shown.mapM fun name => do
    return (name, layerReport (← scope.layer name))))]

end EffectFibers.Program
