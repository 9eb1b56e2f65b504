import EffectFibers.Machine.State
import Mathlib.Logic.Function.Basic

/-!
# Open waits

Every open wait belongs to a fiber that sleeps on it, or to the fiber on the worker that has just
asked.  In the latter case the answer may come before the fiber sleeps, and then it is kept as the
fiber's input; so a wait is open exactly as long as its fiber has no answer.

## Main definitions

* `Wait.openOwner` – whose wait it is, while nobody has claimed it.
* `Fiber.sleepsOn` – the wait that a fiber sleeps on.
* `Waiting` – open waits and sleeping fibers belong together.
-/

namespace EffectFibers

variable {σ : Type}

/-- The owner of a wait that nobody has claimed. -/
def Wait.openOwner (wait : Wait) : Option FiberId :=
  if wait.claimed then none else some wait.owner

/-- The wait whose end is awaited, if it is not that of a group. -/
def Pending.wait? : Pending σ → Option WaitId
  | .wait w _ => some w
  | .group _ => none

/-- The wait that a fiber sleeps on. -/
def Fiber.sleepsOn (fiber : Fiber σ) : Option WaitId := fiber.pending.bind Pending.wait?

/-- A wait is open as long as its fiber sleeps on it, or has just asked and has no answer yet.
An answer that is `kept` is still there. -/
structure Waiting (owner : WaitId → Option FiberId) (sleeps : FiberId → Option WaitId)
    (input : FiberId → Option Exit) (held : Option FiberId) (asking : Option WaitId)
    (kept : Option (FiberId × Exit)) : Prop where
  of_owner : ∀ {w f}, owner w = some f →
    sleeps f = some w ∨ (held = some f ∧ asking = some w ∧ input f = none)
  owner_of_sleeps : ∀ {w f}, sleeps f = some w → owner w = some f
  owner_of_asking : ∀ {w f}, held = some f → asking = some w → input f = none → owner w = some f
  asker_owns : ∀ {w f f'}, held = some f → asking = some w → owner w = some f' → f' = f
  held_input : ∀ {f}, held = some f → input f ≠ none → asking ≠ none
  held_awake : ∀ {f}, held = some f → sleeps f = none
  asleep_input : ∀ {f w}, sleeps f = some w → input f = none
  input_kept : ∀ {f x}, kept = some (f, x) → input f = some x

namespace Waiting

variable {owner : WaitId → Option FiberId} {sleeps : FiberId → Option WaitId}
  {input : FiberId → Option Exit} {held : Option FiberId} {asking : Option WaitId}
  {kept : Option (FiberId × Exit)} {f : FiberId} {w : WaitId} {x : Exit}

/-- A fiber that sleeps on no wait gets an answer. -/
theorem answerOther (waiting : Waiting owner sleeps input held asking kept) (free : held ≠ some f)
    (awake : sleeps f = none) (silent : input f = none) :
    Waiting owner sleeps (Function.update input f (some x)) held asking kept := by
  cases waiting
  constructor <;> grind [Function.update_apply]

/-- A fiber that sleeps on a wait gets its answer. -/
theorem answerSleeper (waiting : Waiting owner sleeps input held asking kept)
    (asleep : sleeps f = some w) :
    Waiting (Function.update owner w none) (Function.update sleeps f none)
      (Function.update input f (some x)) held asking kept := by
  cases waiting
  constructor <;> grind [Function.update_apply]

/-- The fiber on the worker gets an answer before it sleeps. -/
theorem answerAsker (waiting : Waiting owner sleeps input (some f) (some w) kept)
    (early : input f = none) :
    Waiting (Function.update owner w none) sleeps (Function.update input f (some x)) (some f)
      (some w) kept := by
  cases waiting
  constructor <;> grind [Function.update_apply]

/-- The fiber on the worker asks. -/
theorem openWait (waiting : Waiting owner sleeps input (some f) none kept)
    (fresh : owner w = none) :
    Waiting (Function.update owner w (some f)) sleeps input (some f) (some w) kept := by
  cases waiting
  constructor <;> grind [Function.update_apply]

/-- The fiber on the worker claims the wait that it has asked for. -/
theorem giveUp (waiting : Waiting owner sleeps input (some f) (some w) kept)
    (early : input f = none) :
    Waiting (Function.update owner w none) sleeps input (some f) none kept := by
  cases waiting
  constructor <;> grind [Function.update_apply]

/-- The fiber on the worker goes to sleep on the wait that it has asked for. -/
theorem sleep (waiting : Waiting owner sleeps input (some f) (some w) kept)
    (early : input f = none) :
    Waiting owner (Function.update sleeps f (some w)) input none none kept := by
  cases waiting
  constructor <;> grind [Function.update_apply]

/-- The fiber on the worker finds its answer. -/
theorem take (waiting : Waiting owner sleeps input (some f) asking kept)
    (answered : input f ≠ none) (other : ∀ y, kept ≠ some (f, y)) :
    Waiting owner sleeps (Function.update input f none) (some f) none kept := by
  cases waiting
  constructor <;> grind [Function.update_apply]

/-- A fiber goes to the worker. -/
theorem dispatch (waiting : Waiting owner sleeps input none asking kept) (awake : sleeps f = none)
    (other : ∀ y, kept ≠ some (f, y)) :
    Waiting owner sleeps (Function.update input f none) (some f) none kept := by
  cases waiting
  constructor <;> grind [Function.update_apply]

/-- The fiber on the worker, which has not asked, leaves it. -/
theorem release (waiting : Waiting owner sleeps input held none kept) :
    Waiting owner sleeps input none none kept := by
  cases waiting
  constructor <;> grind

/-- An answer that is there is kept. -/
theorem keep (waiting : Waiting owner sleeps input held asking kept)
    (answered : input f = some x) :
    Waiting owner sleeps input held asking (some (f, x)) :=
  { waiting with
    input_kept := fun same => by
      obtain ⟨rfl, rfl⟩ := Prod.mk.inj (Option.some.inj same)
      exact answered }

end Waiting

end EffectFibers
