import EffectFibers.Machine.Resume

/-!
# What a tree means

A tree that starts no fibers and provides no layers has a meaning by itself, by recursion on what
it is made of: it gives an exit after it has run some user code and has had some answers.  User code
depends on what it sees of the world when it runs, so this is noted as well, in the order in which
things happen.

The meaning knows neither frames nor slices.  It only counts the steps: one for each leaf, for each
piece of user code, and for each time that something is entered or left.

## Main definitions

* `Deed` – a piece of user code that is run, or an answer that comes in.
* `Evaluates` – the exit of a tree, what is done for it, and in how many steps.
* `Node.Sequential` – the trees that have a meaning by themselves.
-/

namespace EffectFibers

variable {σ : Type}

/-- What user code sees of the world. -/
structure Sight (σ : Type) where
  roster : Roster
  world : World σ

/-- What is done for a tree: a piece of user code is run at some sight, a ticket is used, or an
answer comes in. -/
inductive Deed (σ : Type)
  | ran (thunk : Action σ Exit) (sight : Sight σ)
  | built (code : Action σ (Node σ)) (sight : Sight σ)
  | asked (register : WaitId → Action σ (Option (Cleanup σ))) (wait : WaitId) (sight : Sight σ)
  | used (ticket : Ticket) (sight : Sight σ)
  | answered (exit : Exit)

/-- The result of user code at a sight, and what it requests. -/
def Action.resultAt {α : Type} (code : Action σ α) (sight : Sight σ) : Except Panic α :=
  (code sight.roster sight.world).result

def Action.requestsAt {α : Type} (code : Action σ α) (sight : Sight σ) : List Request :=
  (code sight.roster sight.world).requests

/-- A wait, and then a tree; no time at all is no wait. -/
def Node.afterDelay (d : Duration) (source : Node σ) : Node σ :=
  if d.isZero then source else .flatMap (.sleep d) fun _ => (pure source : Action σ (Node σ))

/-- What has a meaning: a tree, user code that builds one, and a source that is tried again, with
what is run at this attempt. -/
inductive Phrase (σ : Type)
  | node (node : Node σ)
  | code (code : Action σ (Node σ))
  | attempt (source : Node σ) (schedule : Schedule Failure) (number : Nat) (body : Node σ)

/-- In a context, a phrase gives an exit after some deeds and in some number of steps. -/
inductive Evaluates (context : Context Value) :
    Phrase σ → List (Deed σ) → Exit → Nat → Prop
  | succeed (v) : Evaluates context (.node (.succeed v)) [] (.ok v) 1
  | fail (cause) : Evaluates context (.node (.fail cause)) [] (.error cause) 1
  | log (level message) : Evaluates context (.node (.log level message)) [] (.ok .null) 1
  | yield : Evaluates context (.node .yield) [] (.ok .null) 1
  -- User code may give a result or panic.
  | sync {thunk : Action σ Exit} {sight x} : thunk.resultAt sight = .ok x →
      Evaluates context (.node (.sync thunk)) [.ran thunk sight] x 1
  | syncPanics {thunk : Action σ Exit} {sight p} : thunk.resultAt sight = .error p →
      Evaluates context (.node (.sync thunk)) [.ran thunk sight] (Exit.died (.ofPanic p)) 1
  | built {code : Action σ (Node σ)} {sight node deeds x k} : code.resultAt sight = .ok node →
      Evaluates context (.node node) deeds x k →
      Evaluates context (.code code) (.built code sight :: deeds) x (k + 1)
  | panics {code : Action σ (Node σ)} {sight p} : code.resultAt sight = .error p →
      Evaluates context (.code code) [.built code sight] (Exit.died (.ofPanic p)) 1
  | access {reader : Context Value → Action σ (Node σ)} {deeds x k} :
      Evaluates context (.code (reader context)) deeds x k →
      Evaluates context (.node (.access reader)) deeds x k
  | once {ticket x} {sight : Sight σ} : ticket ∈ sight.world.unused →
      Evaluates context (.node (.once ticket x)) [.used ticket sight] x 1
  | onceAgain {ticket x} {sight : Sight σ} : ticket ∉ sight.world.unused →
      Evaluates context (.node (.once ticket x)) [.used ticket sight]
        (Exit.died (.internal "one-shot node evaluated twice")) 1
  -- Whoever asks stands for the answer; a panic while asking counts unless the answer has come by
  -- then.
  | async {register : WaitId → Action σ (Option (Cleanup σ))} {w sight x} :
      (∀ p, (register w).resultAt sight = .error p →
        .resume w x ∈ (register w).requestsAt sight) →
      Evaluates context (.node (.async register)) [.asked register w sight, .answered x] x 1
  | asyncPanics {register : WaitId → Action σ (Option (Cleanup σ))} {w sight p} :
      (register w).resultAt sight = .error p →
      (∀ x, .resume w x ∉ (register w).requestsAt sight) →
      Evaluates context (.node (.async register)) [.asked register w sight]
        (Exit.died (.ofPanic p)) 1
  | watch {target how} (x) : Evaluates context (.node (.watch target how)) [.answered x] x 1
  | sleep {d : Duration} : d.isZero = false →
      Evaluates context (.node (.sleep d)) [.answered (.ok .null)] (.ok .null) 1
  | sleepNot {d : Duration} : d.isZero = true →
      Evaluates context (.node (.sleep d)) [] (.ok .null) 1
  -- Values go to continuations and failures to handlers; everything else passes.
  | flatMap {source : Node σ} {next : Value → Action σ (Node σ)} {first v k rest x k'} :
      Evaluates context (.node source) first (.ok v) k →
      Evaluates context (.code (next v)) rest x k' →
      Evaluates context (.node (.flatMap source next)) (first ++ rest) x (k + k' + 1)
  | flatMapFails {source : Node σ} {next : Value → Action σ (Node σ)} {deeds cause k} :
      Evaluates context (.node source) deeds (.error cause) k →
      Evaluates context (.node (.flatMap source next)) deeds (.error cause) (k + 2)
  | recover {source : Node σ} {handler : Failure → Action σ (Node σ)} {first φ k rest x k'} :
      Evaluates context (.node source) first (.error (.fail φ)) k →
      Evaluates context (.code (handler φ)) rest x k' →
      Evaluates context (.node (.recover source handler)) (first ++ rest) x (k + k' + 1)
  | recoverNot {source : Node σ} {handler : Failure → Action σ (Node σ)} {deeds x k} :
      Evaluates context (.node source) deeds x k → (∀ φ, x ≠ .error (.fail φ)) →
      Evaluates context (.node (.recover source handler)) deeds x (k + 2)
  | ensuring {source finalizer : Node σ} {first x k rest y k'} :
      Evaluates context (.node source) first x k →
      Evaluates context (.node finalizer) rest y k' →
      Evaluates context (.node (.ensuring source finalizer)) (first ++ rest) (x.afterFinalizer y)
        (k + k' + 3)
  | uninterruptible {source : Node σ} {deeds x k} : Evaluates context (.node source) deeds x k →
      Evaluates context (.node (.uninterruptible source)) deeds x (k + 2)
  | span {label} {source : Node σ} {deeds x k} : Evaluates context (.node source) deeds x k →
      Evaluates context (.node (.span label source)) deeds x (k + 2)
  -- A failed attempt is followed by another one if the schedule says so.
  | retry {source : Node σ} {schedule deeds x k} :
      Evaluates context (.attempt source schedule 0 source) deeds x k →
      Evaluates context (.node (.retry source schedule)) deeds x (k + 1)
  | attemptEnds {source body : Node σ} {schedule number deeds x k} :
      Evaluates context (.node body) deeds x k → (∀ φ, x ≠ .error (.fail φ)) →
      Evaluates context (.attempt source schedule number body) deeds x (k + 1)
  | attemptStops {source body : Node σ} {schedule number deeds φ k} :
      Evaluates context (.node body) deeds (.error (.fail φ)) k →
      schedule.decide? number φ.known? = .ok .stop →
      Evaluates context (.attempt source schedule number body) deeds (.error (.fail φ)) (k + 1)
  | attemptPanics {source body : Node σ} {schedule number deeds φ k p} :
      Evaluates context (.node body) deeds (.error (.fail φ)) k →
      schedule.decide? number φ.known? = .error p →
      Evaluates context (.attempt source schedule number body) deeds (Exit.died (.ofPanic p))
        (k + 1)
  | attemptAgain {source body : Node σ} {schedule number first φ k d rest x k'} :
      Evaluates context (.node body) first (.error (.fail φ)) k →
      schedule.decide? number φ.known? = .ok (.again d) →
      Evaluates context (.attempt source schedule (Schedule.nextAttempt number)
        (source.afterDelay d)) rest x k' →
      Evaluates context (.attempt source schedule number body) (first ++ rest) x
        (k + k' + if d.isZero then 1 else 0)
  -- A value is followed by another round in the same way.
  | repeated {source : Node σ} {schedule number first v k rest x k'} :
      Evaluates context (.node source) first (.ok v) k →
      Evaluates context (.code (Machine.repeatAfter source schedule number v)) rest x k' →
      Evaluates context (.node (.repeated source schedule number)) (first ++ rest) x (k + k' + 1)
  | repeatedFails {source : Node σ} {schedule number deeds cause k} :
      Evaluates context (.node source) deeds (.error cause) k →
      Evaluates context (.node (.repeated source schedule number)) deeds (.error cause) (k + 2)

/-- A tree that starts no fibers and provides no layers, whatever its user code answers. -/
inductive Node.Sequential : Node σ → Prop
  | succeed (v) : Sequential (.succeed v)
  | fail (cause) : Sequential (.fail cause)
  | sync (thunk) : Sequential (.sync thunk)
  | once (ticket x) : Sequential (.once ticket x)
  | async (register) : Sequential (.async register)
  | watch (target how) : Sequential (.watch target how)
  | sleep (d) : Sequential (.sleep d)
  | log (level message) : Sequential (.log level message)
  | yield : Sequential .yield
  | access {reader} : (∀ context sight node, Action.resultAt (reader context) sight = .ok node →
      Sequential node) → Sequential (.access reader)
  | flatMap {source next} : Sequential source →
      (∀ v sight node, Action.resultAt (next v) sight = .ok node → Sequential node) →
      Sequential (.flatMap source next)
  | recover {source handler} : Sequential source →
      (∀ φ sight node, Action.resultAt (handler φ) sight = .ok node → Sequential node) →
      Sequential (.recover source handler)
  | ensuring {source finalizer} : Sequential source → Sequential finalizer →
      Sequential (.ensuring source finalizer)
  | uninterruptible {source} : Sequential source → Sequential (.uninterruptible source)
  | span {label source} : Sequential source → Sequential (.span label source)
  | retry {source schedule} : Sequential source → Sequential (.retry source schedule)
  | repeated {source schedule number} : Sequential source →
      Sequential (.repeated source schedule number)

end EffectFibers
