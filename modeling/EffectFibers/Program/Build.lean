import EffectFibers.Effect.Concurrent
import EffectFibers.Program.Host
import EffectFibers.Program.Outcome
import EffectFibers.Program.Syntax

/-!
# From programs to effects

An expression is built into an effect by user code: building draws identifiers for layers, may
break off, and changes nothing else in the world.  The body of a continuation is built when the
continuation is reached, with its variable bound, so a failing build is a panic of the fiber that
reached it.

Layers are declared one after the other.  What is built at once can name the layers declared
before it; a continuation is reached after all declarations, so in it a name means the layer that
was declared last under that name, and a layer may even name itself.

## Main definitions

* `Scope` – what the names of an expression mean, now and in continuations.
* `Expr.build`, `LayerExpr.build` – the meaning of expressions.
-/

namespace EffectFibers.Program

/-- User code over the world of programs. -/
abbrev Code (α : Type) := Action Host α

/-- What the names of an expression mean. -/
structure Scope where
  style : FailureStyle := .tagged
  /-- The name of the thread that programs run on. -/
  threadName : String
  tags : List (String × Tag) := []
  /-- The layers that can be named now. -/
  layer? : String → Option (Layer Host) := fun _ => none
  /-- The layers that continuations can name. -/
  laterLayer? : String → Option (Layer Host) := fun _ => none
  vars : Bindings := []

namespace Scope

/-- Bind a variable. -/
def bind (s : Scope) (x : String) (v : Value) : Scope := { s with vars := (x, v) :: s.vars }

/-- The scope of a continuation. -/
def continued (s : Scope) : Scope := { s with layer? := s.laterLayer? }

/-- The scope of a continuation that gets a value. -/
def resume (s : Scope) (x : String) (v : Value) : Scope := s.continued.bind x v

/-- Give a name to a layer. -/
def nameLayer (s : Scope) (name : String) (l : Layer Host) : Scope :=
  { s with layer? := fun other => if other = name then some l else s.layer? other }

/-- What a name means; break off if it means nothing. -/
def known {α : Type} (what name : String) : Option α → Except Panic α
  | some a => .ok a
  | none => .error (.text ("unknown " ++ what ++ " " ++ name))

def tag (s : Scope) (name : String) : Except Panic Tag := known "tag" name (s.tags.lookup name)

def layer (s : Scope) (name : String) : Except Panic (Layer Host) :=
  known "layer" name (s.layer? name)

def fiber (s : Scope) (x : String) : Except Panic FiberId := do
  match ← s.vars.get x with
  | .fiber f => return f
  | _ => known "fiber" x none

/-- What a filled template stands for; break off if it stands for nothing. -/
def read {α : Type} (s : Scope) (what : String) (ofValue? : Value → Option α) (t : Template) :
    Except Panic α := do
  (ofValue? (← t.fill s.vars)).elim (.error (.text ("not a " ++ what))) .ok

def function (s : Scope) : Template → Except Panic Fun := s.read "function" Fun.ofValue?

def failure (s : Scope) : Template → Except Panic Failure :=
  s.read "failure" (failureOfValue? s.style)

def exit (s : Scope) : Template → Except Panic Exit := s.read "exit" (exitOfValue? s.style)

/-- The result of native code; its error becomes a failure with the given tag. -/
def native (s : Scope) (tag : String) (t : Template) :
    Except Panic (Except Panic (Except Failure Value)) :=
  s.read "result" (resultOfValue? s.style tag) t

/-- The cell that a name means: a variable that holds one, or else a named cell. -/
def cell (s : Scope) (name : String) : Code Nat := do
  match s.vars.find? name with
  | some (.cell i) => return i
  | _ => Action.ofExcept (known "ref" name ((← Action.get).names.lookup name))

end Scope

/-! ## User code of the forms -/

/-- Count a counter up. -/
def countUp (name : String) : Code Nat := do
  let (count, h) := (← Action.get).countUp name
  Action.modify fun _ => h
  return count

/-- What tidies up after the wait at a gate. -/
def gateCleanup (name : String) : GateCleanup → Option (Cleanup Host)
  | .note => some (Action.request (.note (.list [.str "canceled", .str name])))
  | .none => none
  | .panic => some (Action.panic (.text "canceler panicked"))

/-- Wait at a gate. -/
def waitAtGate (name : String) (cleanup : GateCleanup) (w : WaitId) :
    Code (Option (Cleanup Host)) := do
  let (exit, h) := (← Action.get).register name w
  Action.modify fun _ => h
  if let some exit := exit then Action.request (.resume w exit)
  return gateCleanup name cleanup

/-- Open a gate for all who wait at it. -/
def openGate (name : String) (exit : Exit) : Code Unit := do
  let (waiters, h) := (← Action.get).openGate name exit
  Action.modify fun _ => h
  waiters.forM fun w => Action.request (.resume w exit)

/-- Interrupt the run that is under way. -/
def cancelRun : Code Unit := do
  if let some root := (← Action.get).root then Action.request (.interrupt root)

/-- A number that is one larger. -/
def increment (v : Value) : Except Panic Value := do
  match v with
  | .int n => return .int (n + 1)
  | _ => misapplied "increment"

/-- Run user code that has no value. -/
def doing (code : Code Unit) : Effect Host := .sync do
  code
  return .null

/-- Change a cell to what code makes of its value.  The cell changes only if the code ends well. -/
def changeCell (i : Nat) (f : Value → Code Value) : Code Value := do
  let v ← f ((← Action.get).cell i)
  Action.modify (·.setCell i v)
  return v

/-! ## Derived effects -/

/-- Forget the value. -/
def quiet (e : Effect Host) : Effect Host := e.map fun _ => pure .null

/-- The value in its plain form. -/
def plainly (e : Effect Host) : Effect Host := e.map fun v => pure v.shown

/-- The value as it is. -/
def same (e : Effect Host) : Effect Host := e.map pure

/-- Count up from a number, so many steps. -/
def countFrom : Nat → Nat → Effect Host
  | 0, i => .succeed (.int i)
  | steps + 1, i => Effect.unit.flatMap fun _ => pure (countFrom steps (i + 1))

/-- The first item of the value. -/
def first (e : Effect Host) : Effect Host :=
  e.map fun v => Action.ofExcept (item 0 v)

/-- Put one of the combinators around an effect. -/
def Wrapper.apply (w : Wrapper) (e : Effect Host) : Effect Host :=
  match w with
  | .map => e.map fun v => Action.ofExcept (increment v)
  | .flatMap => e.flatMap fun v => do return .succeed (← Action.ofExcept (increment v))
  | .mapError => e.mapError pure
  | .catchAll => e.catchAll fun f => pure (.fail f)
  | .ensuring => e.ensuring .unit
  | .uninterruptible => e.uninterruptible
  | .span => e.withLogSpan "s"
  | .retry => e.retryN 0
  | .tap => e.tap fun _ => pure .unit
  | .zipRight => Effect.unit.zipRight e
  | .race => .raceAll [e]
  | .all => first (.all [e])
  | .fork => e.fork.flatMap fun v =>
    match v with
    | .fiber f => pure (.join f)
    | _ => Action.ofExcept (misapplied "join")

/-- Put a combinator around an effect a number of times. -/
def nest (w : Wrapper) (n : Nat) (e : Effect Host) : Effect Host := n.repeat w.apply e

/-- The items of a list. -/
def itemsOf : Value → Except Panic (List Value)
  | .list items => .ok items
  | _ => misapplied "for_each"

mutual

/-- The effect of an expression. -/
def Expr.build (s : Scope) : Expr → Code (Effect Host)
  | .succeed v => do return .succeed (← Action.ofExcept (v.fill s.vars))
  | .var x => do return .succeed (← Action.ofExcept (s.vars.get x))
  | .unit => return quiet .unit
  | .fail f => do return .fail (← Action.ofExcept (s.failure f))
  | .die d => return .die d
  | .sync f => do
    let f ← Action.ofExcept (s.function f)
    return .sync (f.apply .null)
  | .emit v => do
    let v ← Action.ofExcept (v.fill s.vars)
    return .sync do
      Action.request (.note (.list [.str "emit", v]))
      return v
  | .tick counter => return .sync do return .int (← countUp counter)
  | .trySync r tag => do
    let result ← Action.ofExcept (s.native tag r)
    return .trySync (Action.ofExcept result)
  | .flaky counter n tag => return .trySync do
      let k ← countUp counter
      if k < n then return .error (.make s.style tag s!"try {k}") else return .ok (.int k)
  | .tryBlocking r tag => do return .tryBlocking (← Action.ofExcept (s.native tag r))
  | .async x => do
    let exit ← Action.ofExcept (s.exit x)
    return .asyncOp fun w => do
      Action.request (.resume w exit)
      return none
  | .asyncThread x => do
    let exit ← Action.ofExcept (s.exit x)
    return .asyncOp fun w => do
      Action.request (.resumeLater w exit)
      return none
  | .asyncPanic x message => do
    let exit ← Action.ofExcept (x.mapM s.exit)
    return .asyncOp fun w => do
      if let some exit := exit then Action.request (.resume w exit)
      Action.panic (.text message)
  | .gate name cleanup => return .asyncOp (waitAtGate name cleanup)
  | .openGate name x => do
    let exit ← Action.ofExcept (s.exit x)
    return quiet (doing (openGate name exit))
  | .never => return .never
  | .yieldNow => return quiet .yieldNow
  | .sleep d => return quiet (.sleep d)
  | .context => return same .context
  | .service tag => do return same (.service (← Action.ofExcept (s.tag tag)))
  | .withService tag x body => do
    return .withService (← Action.ofExcept (s.tag tag)) fun v => body.build (s.resume x v)
  | .log message => do
    let text ← Action.ofExcept (do asText "log" (← message.fill s.vars))
    return quiet (.log text)
  | .logAt level message => return quiet (.logAt level message)
  | .clock => return (Effect.sync (pure .null)).map fun _ => pure (.bool true)
  | .whereAmI => return .sync (pure (.list [.str s.threadName, .int 0, .bool true, .bool false]))
  | .cancel => return doing cancelRun
  | .shutdown => return doing (Action.request .shutdown)
  | .countUp n => return countFrom n 0
  | .nest w n e => do return nest w n (← e.build s)
  | .buildPanic message => Action.panic (.text message)
  | .alienValue => return .succeed .alien
  | .alienFailure => return .fail .alien
  | .once v => do
    let v ← Action.ofExcept (v.fill s.vars)
    return { node := ← Node.given (.ok v) }
  | .map e f => do
    let source ← e.build s
    return source.map (← Action.ofExcept (s.function f)).apply
  | .flatMap e x body => do return (← e.build s).flatMap fun v => body.build (s.resume x v)
  | .zipRight e next => do
    let first ← e.build s
    return first.zipRight (← next.build s)
  | .tap e x body => do return (← e.build s).tap fun v => body.build (s.resume x v)
  | .asUnit e => do return quiet (← e.build s).asUnit
  | .mapError e f => do
    return (← e.build s).mapError fun failure => Action.ofExcept (f.apply s.style failure)
  | .catchAll e x body => do
    return (← e.build s).catchAll fun failure => body.build (s.resume x failure.shown)
  | .catchTag e tag x body => do
    return (← e.build s).catchTag tag fun failure => body.build (s.resume x failure.shown)
  | .catchTags e handlers => do return (← e.build s).catchTags (Expr.buildHandlers s handlers)
  | .either e => do return plainly (← e.build s).either
  | .ensuring e finalizer => do
    let source ← e.build s
    return source.ensuring (← finalizer.build s)
  | .uninterruptible e => do return (← e.build s).uninterruptible
  | .acquireUseRelease acquire x use release => do
    return .acquireUseRelease (← acquire.build s) (fun v => use.build (s.resume x v))
      fun v => release.build (s.resume x v)
  | .provide e l => do
    let source ← e.build s
    return source.provide (← l.build s)
  | .provideService e tag v => do
    let source ← e.build s
    let tag ← Action.ofExcept (s.tag tag)
    source.provideService tag (← Action.ofExcept (v.fill s.vars))
  | .requiring e tag => do
    let source ← e.build s
    return source.requiring (← Action.ofExcept (s.tag tag))
  | .retry e schedule => do return (← e.build s).retry (schedule.schedule FailurePred.holds)
  | .retryN e n => do return (← e.build s).retryN n
  | .repeating e schedule => do return (← e.build s).repeating (schedule.schedule Pred.holds)
  | .delay e d => do return (← e.build s).delay d
  | .span e label => do return (← e.build s).withLogSpan label
  | .sequence steps last => Expr.buildSequence (fun s => last.build s) s steps
  | .ifThenElse v p yes no => do
    if ← Action.ofExcept (do p.holds (← v.fill s.vars)) then yes.build s else no.build s
  | .race e f => do
    let first ← e.build s
    return first.race (← f.build s)
  | .raceAll es => do return .raceAll (← Expr.buildAll s es)
  | .all es => do return same (.all (← Expr.buildAll s es))
  | .allWith es options => do return same (.allWith (← Expr.buildAll s es) options)
  | .allSettled es concurrency => do
    return plainly (.allSettled (← Expr.buildAll s es) concurrency)
  | .forEach items x body options => do
    let items ← Action.ofExcept (do itemsOf (← items.fill s.vars))
    let effects ← items.mapM fun v => body.build (s.bind x v)
    return same (.allWith effects options)
  | .timeout e d => do return (← e.build s).timeout d
  | .timeoutFail e d f => do
    let source ← e.build s
    return source.timeoutFail d (← Action.ofExcept (s.failure f))
  | .fork e => do return same (← e.build s).fork
  | .join x => do return .join (← Action.ofExcept (s.fiber x))
  | .await x => do return plainly (.awaitExit (← Action.ofExcept (s.fiber x)))
  | .interrupt x => do return quiet (.interrupt (← Action.ofExcept (s.fiber x)))
  | .fiberStatus x => do
    let f ← Action.ofExcept (s.fiber x)
    return .sync do return .str (← Action.statusOf f).text
  | .fiberDebug x => do
    let f ← Action.ofExcept (s.fiber x)
    return .sync do
      let status ← Action.statusOf f
      return .str (Text.record "Fiber" [("id", "FiberId(_)"), ("status", status.debug)])
  | .refMake v => do
    let v ← Action.ofExcept (v.fill s.vars)
    return same (.sync do
      let (i, h) := (← Action.get).newCell v
      Action.modify fun _ => h
      return .cell i)
  | .refGet r => do
    let i ← s.cell r
    return .sync do return (← Action.get).cell i
  | .refSet r v => do
    let v ← Action.ofExcept (v.fill s.vars)
    let i ← s.cell r
    return quiet (doing (Action.modify (·.setCell i v)))
  | .refGetAndSet r v => do
    let v ← Action.ofExcept (v.fill s.vars)
    let i ← s.cell r
    return .sync do
      let old := (← Action.get).cell i
      Action.modify (·.setCell i v)
      return old
  | .refUpdate r f => do
    let f ← Action.ofExcept (s.function f)
    let i ← s.cell r
    return quiet (doing do discard (changeCell i f.apply))
  | .refUpdateAndGet r f => do
    let f ← Action.ofExcept (s.function f)
    let i ← s.cell r
    return .sync (changeCell i f.apply)
  | .refModify r result next => do
    let result ← Action.ofExcept (s.function result)
    let next ← Action.ofExcept (s.function next)
    let i ← s.cell r
    return .sync do
      let old := (← Action.get).cell i
      let answer ← result.apply old
      let _ ← changeCell i next.apply
      return answer

/-- The effects of several expressions, in order. -/
def Expr.buildAll (s : Scope) : List Expr → Code (List (Effect Host))
  | [] => return []
  | e :: rest => do
    let effect ← e.build s
    return effect :: (← Expr.buildAll s rest)

/-- The handlers of several tags. -/
def Expr.buildHandlers (s : Scope) :
    List (String × String × Expr) → List (String × (Failure → Code (Effect Host)))
  | [] => []
  | (tag, x, body) :: rest =>
    (tag, fun failure => body.build (s.resume x failure.shown)) :: Expr.buildHandlers s rest

/-- A sequence of steps: each one that runs an effect goes on with the others in a
continuation. -/
def Expr.buildSequence (last : Scope → Code (Effect Host)) (s : Scope) :
    List Stmt → Code (Effect Host)
  | [] => last s
  | .bind x e :: rest => do
    return (← e.build s).flatMap fun v => Expr.buildSequence last (s.resume x v) rest
  | .run e :: rest => do
    return (← e.build s).flatMap fun _ => Expr.buildSequence last s.continued rest
  | .define x v :: rest => do
    let v ← Action.ofExcept (v.fill s.vars)
    Expr.buildSequence last (s.bind x v) rest

/-- The layer of an expression. -/
def LayerExpr.build (s : Scope) : LayerExpr → Code (Layer Host)
  | .name n => Action.ofExcept (s.layer n)
  | .succeed tag v => do
    let tag ← Action.ofExcept (s.tag tag)
    Layer.succeed tag (← Action.ofExcept (v.fill s.vars))
  | .effect tag e => do
    let tag ← Action.ofExcept (s.tag tag)
    let source := same (← e.build s)
    Layer.ofNode tag source.node source.requires
  | .named l name => do return (← l.build s).named name
  | .merge l m => do
    let first ← l.build s
    return first.merge (← m.build s)
  | .provide l dependency => do
    let layer ← l.build s
    return layer.provide (← dependency.build s)
  | .provideMerge l dependency => do
    let layer ← l.build s
    return layer.provideMerge (← dependency.build s)
  | .mapError l f => do
    (← l.build s).mapError fun failure => Action.ofExcept (f.apply s.style failure)

end

end EffectFibers.Program
