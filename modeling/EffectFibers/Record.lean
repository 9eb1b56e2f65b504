import EffectFibers.Node

/-!
# The record

Everything that can be observed while programs run goes into one record, in the order in which it
happens: the notes of user code, the messages of the log with the spans around them, and the
events of the machine itself.

## Main definitions

* `LogSpan` – an open span of the log, and `renderSpans`, which writes several of them.
* `TraceEvent` – what the machine reports, with its message and its fields.
* `Entry` – one line of the record.
-/

namespace EffectFibers

/-! ## Spans -/

/-- An open span: its label, and when it was entered. -/
structure LogSpan where
  label : String
  started : Int
  deriving DecidableEq, Repr

/-- The whole milliseconds since a span was entered, or zero before that. -/
def LogSpan.elapsedMillis (s : LogSpan) (now : Int) : Nat := (now - s.started).toNat / 1000000

/-- Spans with their ages, the outermost one first. -/
def renderSpans (spans : List LogSpan) (now : Int) : String :=
  " ".intercalate (spans.map fun s => s.label ++ "=" ++ toString (s.elapsedMillis now) ++ "ms")

/-! ## Events of the machine -/

/-- A cause as it can be shown without knowing the type of a failure. -/
def Cause.describe : Cause Failure → String
  | .fail (.plain text) => "failed: " ++ text
  | .fail _ => "failed with a typed error"
  | .die defect => "died: " ++ defect.text
  | .interrupt => "interrupted"

/-- How a build ended that is forgotten. -/
inductive BuildOutcome
  | failed | abandoned
  deriving DecidableEq, Repr

def BuildOutcome.text : BuildOutcome → String
  | .failed => "failed"
  | .abandoned => "abandoned"

/-- What the machine reports. -/
inductive TraceEvent
  | rootSpawned (fiber : FiberId)
  | spawned (fiber parent : FiberId)
  | interrupting (fiber : FiberId) (children : Nat)
  | waitingForChildren (fiber : FiberId) (children : Nat)
  | exited (fiber : FiberId) (exit : Exit)
  | cleanupPanicked (fiber : FiberId)
  | finalizerFailed (fiber : FiberId) (cause : Cause Failure)
  | retrying (fiber : FiberId) (attempt : Nat) (delay : Duration)
  | retryExhausted (fiber : FiberId) (attempts : Nat)
  | building (layer : String) (fiber : FiberId)
  | built (layer : String) (waiters : Nat)
  | buildFailed (layer : String) (cause : Cause Failure)
  | buildForgotten (layer : String) (fiber : FiberId) (waiters : Nat) (outcome : BuildOutcome)
  | raceSettled (fiber : FiberId) (losers : Nat)
  | allFailed (fiber : FiberId) (siblings : Nat)

/-- A field of an event: a fiber, or a text. -/
inductive TraceField
  | fiber (id : FiberId)
  | text (s : String)

namespace TraceEvent

def level : TraceEvent → Level
  | .rootSpawned _ | .spawned .. | .interrupting .. | .waitingForChildren .. | .exited ..
  | .raceSettled .. | .allFailed .. => .trace
  | .retrying .. | .retryExhausted .. | .building .. | .built .. | .buildFailed ..
  | .buildForgotten .. => .debug
  | .finalizerFailed .. => .warn
  | .cleanupPanicked _ => .error

def message : TraceEvent → String
  | .rootSpawned _ => "root fiber spawned"
  | .spawned .. => "fiber spawned"
  | .interrupting .. => "interrupting"
  | .waitingForChildren .. => "waiting for children before exit"
  | .exited .. => "fiber exited"
  | .cleanupPanicked _ => "async canceler panicked"
  | .finalizerFailed .. => "finalizer failed"
  | .retrying .. => "retrying"
  | .retryExhausted .. => "retry schedule exhausted"
  | .building .. => "building layer"
  | .built .. => "layer built"
  | .buildFailed .. => "layer build failed"
  | .buildForgotten .. => "layer build forgotten"
  | .raceSettled .. => "race settled"
  | .allFailed .. => "all failed, interrupting siblings"

/-- The fields of an event, in order. -/
def fields : TraceEvent → List (String × TraceField)
  | .rootSpawned fiber => [("fiber", .fiber fiber)]
  | .spawned fiber parent => [("fiber", .fiber fiber), ("parent", .fiber parent)]
  | .interrupting fiber children | .waitingForChildren fiber children =>
    [("fiber", .fiber fiber), ("children", .text (toString children))]
  | .exited fiber exit => [("fiber", .fiber fiber), ("status", .text (Exit.status exit).text)]
  | .cleanupPanicked fiber => [("fiber", .fiber fiber)]
  | .finalizerFailed fiber cause =>
    [("fiber", .fiber fiber), ("cause", .text cause.describe)]
  | .retrying fiber attempt delay =>
    [("fiber", .fiber fiber), ("attempt", .text (toString attempt)), ("delay", .text delay.debug)]
  | .retryExhausted fiber attempts =>
    [("fiber", .fiber fiber), ("attempts", .text (toString attempts))]
  | .building layer fiber => [("layer", .text layer), ("fiber", .fiber fiber)]
  | .built layer waiters => [("layer", .text layer), ("waiters", .text (toString waiters))]
  | .buildFailed layer cause => [("layer", .text layer), ("cause", .text cause.describe)]
  | .buildForgotten layer fiber waiters outcome =>
    [("layer", .text layer), ("fiber", .fiber fiber), ("waiters", .text (toString waiters)),
     ("outcome", .text outcome.text)]
  | .raceSettled fiber losers => [("fiber", .fiber fiber), ("losers", .text (toString losers))]
  | .allFailed fiber siblings =>
    [("fiber", .fiber fiber), ("siblings", .text (toString siblings))]

end TraceEvent

/-! ## Lines of the record -/

/-- One line of the record. -/
inductive Entry
  | note (v : Value)
  | log (level : Level) (message : String) (fiber : FiberId) (spans : String)
  | trace (event : TraceEvent)

end EffectFibers
