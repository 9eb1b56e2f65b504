import EffectFibers.Concurrency
import EffectFibers.Node
import EffectFibers.Program.Function
import EffectFibers.Program.Template

/-!
# The language of programs

A program is an expression whose meaning is an effect.  Every combinator of effects has a form;
besides there are forms for user code with effects that can be observed: notes, counters, gates
that callbacks wait at, and cells.

A continuation is written as a variable and a body.  The body becomes an effect only when the
continuation is reached.

Values, functions on values, failures, exits and results of native code are written as templates.
Each of them is filled, and read as what it stands for, when the effect around it is built.

## Main definitions

* `Expr` – effects.
* `LayerExpr` – layers.
* `Stmt` – the steps of a sequence.
-/

namespace EffectFibers.Program

/-- What happens when the wait at a gate is given up. -/
inductive GateCleanup
  /-- A note is left. -/
  | note
  /-- There is no cleanup. -/
  | none
  /-- The cleanup breaks off. -/
  | panic
  deriving DecidableEq, Repr

/-- The combinators that can be put around an effect many times. -/
inductive Wrapper
  | map | flatMap | mapError | catchAll | ensuring | uninterruptible | span | retry | tap
  | zipRight | race | all | fork
  deriving DecidableEq, Repr

mutual

/-- An effect. -/
inductive Expr
  | succeed (v : Template)
  | var (x : String)
  | unit
  | fail (failure : Template)
  | die (d : Defect)
  | sync (f : Template)
  | emit (v : Template)
  /-- Count up a counter, and produce the new count. -/
  | tick (counter : String)
  | trySync (r : Template) (tag : String)
  /-- Count up a counter, and fail while the count is below a number. -/
  | flaky (counter : String) (n : Nat) (tag : String)
  | tryBlocking (r : Template) (tag : String)
  | async (x : Template)
  /-- Another thread makes the callback. -/
  | asyncThread (x : Template)
  /-- Registering the callback breaks off, perhaps after making it. -/
  | asyncPanic (x : Option Template) (message : String)
  /-- Wait at a gate until it is opened. -/
  | gate (name : String) (cleanup : GateCleanup)
  | openGate (name : String) (x : Template)
  | never
  | yieldNow
  | sleep (d : Duration)
  | context
  | service (tag : String)
  | withService (tag x : String) (body : Expr)
  | log (message : Template)
  | logAt (level : Level) (message : String)
  /-- Whether the clock has a plausible time. -/
  | clock
  /-- On which thread and worker the code runs, and whether outside every fiber. -/
  | whereAmI
  | cancel
  | shutdown
  /-- Count up to a number, one step at a time. -/
  | countUp (n : Nat)
  | nest (w : Wrapper) (n : Nat) (e : Expr)
  /-- Building this effect breaks off. -/
  | buildPanic (message : String)
  /-- A value of a type that no combinator expects. -/
  | alienValue
  /-- A failure of a type that no combinator expects. -/
  | alienFailure
  | once (v : Template)
  | map (e : Expr) (f : Template)
  | flatMap (e : Expr) (x : String) (body : Expr)
  | zipRight (e next : Expr)
  | tap (e : Expr) (x : String) (body : Expr)
  | asUnit (e : Expr)
  | mapError (e : Expr) (f : FailureFun)
  | catchAll (e : Expr) (x : String) (body : Expr)
  | catchTag (e : Expr) (tag x : String) (body : Expr)
  | catchTags (e : Expr) (handlers : List (String × String × Expr))
  | either (e : Expr)
  | ensuring (e finalizer : Expr)
  | uninterruptible (e : Expr)
  | acquireUseRelease (acquire : Expr) (x : String) (use release : Expr)
  | provide (e : Expr) (l : LayerExpr)
  | provideService (e : Expr) (tag : String) (v : Template)
  | requiring (e : Expr) (tag : String)
  | retry (e : Expr) (s : ScheduleExpr FailurePred)
  | retryN (e : Expr) (n : Nat)
  | repeating (e : Expr) (s : ScheduleExpr Pred)
  | delay (e : Expr) (d : Duration)
  | span (e : Expr) (label : String)
  | sequence (steps : List Stmt) (last : Expr)
  /-- Decide while the effect is built. -/
  | ifThenElse (v : Template) (p : Pred) (yes no : Expr)
  | race (e f : Expr)
  | raceAll (es : List Expr)
  | all (es : List Expr)
  | allWith (es : List Expr) (options : AllOptions)
  | allSettled (es : List Expr) (concurrency : Concurrency)
  | forEach (items : Template) (x : String) (body : Expr) (options : AllOptions)
  | timeout (e : Expr) (d : Duration)
  | timeoutFail (e : Expr) (d : Duration) (failure : Template)
  | fork (e : Expr)
  | join (x : String)
  | await (x : String)
  | interrupt (x : String)
  | fiberStatus (x : String)
  | fiberDebug (x : String)
  | refMake (v : Template)
  | refGet (r : String)
  | refSet (r : String) (v : Template)
  | refGetAndSet (r : String) (v : Template)
  | refUpdate (r : String) (f : Template)
  | refUpdateAndGet (r : String) (f : Template)
  | refModify (r : String) (result next : Template)

/-- A layer. -/
inductive LayerExpr
  /-- A layer that has a name, with the identity that it has. -/
  | name (n : String)
  | succeed (tag : String) (v : Template)
  | effect (tag : String) (e : Expr)
  | named (l : LayerExpr) (name : String)
  | merge (l m : LayerExpr)
  | provide (l dependency : LayerExpr)
  | provideMerge (l dependency : LayerExpr)
  | mapError (l : LayerExpr) (f : FailureFun)

/-- A step of a sequence. -/
inductive Stmt
  /-- Run an effect, and name its value. -/
  | bind (x : String) (e : Expr)
  /-- Run an effect. -/
  | run (e : Expr)
  /-- Name a value. -/
  | define (x : String) (v : Template)

end

end EffectFibers.Program
