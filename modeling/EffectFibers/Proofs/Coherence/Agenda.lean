import EffectFibers.Machine.State
import Mathlib.Logic.Function.Basic
import Mathlib.Data.List.Nodup
import Mathlib.Data.List.Perm.Basic

/-!
# What there is to do

A fiber that can go on is in the ready queue, once; the fiber on the worker is not.  Between two
steps of one operation a fiber may be on its way to the queue: it can go on already, and will be
queued before the operation is over.

## Main definitions

* `Task` – what there is to do for a fiber.
* `Agenda` – exactly the fibers that can go on are queued or on their way.
-/

namespace EffectFibers

variable {σ : Type}

/-- What there is to do for a fiber. -/
inductive Task
  /-- It can go on. -/
  | runnable
  /-- Somebody steps it. -/
  | working
  /-- It waits, or its program has ended. -/
  | resting
  deriving DecidableEq

def Fiber.task (fiber : Fiber σ) : Task :=
  if fiber.status = .running then
    if fiber.run.isSome then .runnable
    else if fiber.closing.isSome then .resting
    else .working
  else .resting

theorem Fiber.task_eq_runnable_iff {fiber : Fiber σ} :
    fiber.task = .runnable ↔ fiber.status = .running ∧ fiber.run.isSome := by
  unfold Fiber.task
  grind

theorem Fiber.task_eq_working_iff {fiber : Fiber σ} :
    fiber.task = .working ↔
      fiber.status = .running ∧ fiber.run = none ∧ fiber.closing = none := by
  by_cases running : fiber.status = .running
  · cases run : fiber.run <;> cases closing : fiber.closing <;>
      simp [Fiber.task, running, run, closing]
  · simp [Fiber.task, running]

/-- Exactly the fibers that can go on are queued or `waking`, and exactly the one that is held or
`leaving` is being stepped. -/
structure Agenda (task : FiberId → Option Task) (ready waking : List FiberId)
    (held leaving : Option FiberId) : Prop where
  nodup : (ready ++ waking).Nodup
  mem_iff : ∀ {f}, f ∈ ready ++ waking ↔ task f = some .runnable
  held_works : ∀ {f}, held = some f → task f = some .working
  working : ∀ {f}, task f = some .working → held = some f ∨ leaving = some f

namespace Agenda

variable {task : FiberId → Option Task} {ready waking : List FiberId}
  {held leaving : Option FiberId} {f : FiberId}

/-- It does not matter in which order fibers are on their way. -/
theorem perm {waking' : List FiberId} (agenda : Agenda task ready waking held leaving)
    (order : waking.Perm waking') : Agenda task ready waking' held leaving := by
  obtain ⟨nodup, mem, held', working⟩ := agenda
  have same := order.append_left ready
  exact ⟨same.nodup_iff.1 nodup, fun {_} => same.mem_iff.symm.trans mem, held', working⟩

/-- A fiber that had nothing to do can go on. -/
theorem wake (agenda : Agenda task ready waking held leaving) (idle : task f ≠ some .runnable)
    (free : held ≠ some f) :
    Agenda (Function.update task f (some .runnable)) ready (f :: waking) held leaving := by
  obtain ⟨nodup, mem, held', working⟩ := agenda
  constructor <;> grind [Function.update_apply]

/-- A fiber on its way is queued. -/
theorem enqueue (agenda : Agenda task ready (f :: waking) held leaving) :
    Agenda task (ready ++ [f]) waking held leaving := by
  obtain ⟨nodup, mem, held', working⟩ := agenda
  constructor <;> grind

/-- The first fiber of the queue goes to the worker. -/
theorem dispatch (agenda : Agenda task (f :: ready) waking none leaving) :
    Agenda (Function.update task f (some .working)) ready waking (some f) leaving := by
  obtain ⟨nodup, mem, held', working⟩ := agenda
  constructor <;> grind [Function.update_apply]

/-- The fiber on the worker goes to sleep, or its program has ended. -/
theorem rest (agenda : Agenda task ready waking (some f) leaving) :
    Agenda (Function.update task f (some .resting)) ready waking none leaving := by
  obtain ⟨nodup, mem, held', working⟩ := agenda
  constructor <;> grind [Function.update_apply]

/-- The fiber on the worker leaves it and can still go on. -/
theorem requeue (agenda : Agenda task ready waking (some f) leaving) :
    Agenda (Function.update task f (some .runnable)) ready (f :: waking) none leaving := by
  obtain ⟨nodup, mem, held', working⟩ := agenda
  constructor <;> grind [Function.update_apply]

/-- The fiber on the worker is about to end. -/
theorem leave (agenda : Agenda task ready waking (some f) none) :
    Agenda task ready waking none (some f) := by
  obtain ⟨nodup, mem, held', working⟩ := agenda
  constructor <;> grind

/-- A fiber has ended. -/
theorem retire (agenda : Agenda task ready waking held (some f)) (busy : task f ≠ some .runnable)
    (free : held ≠ some f) :
    Agenda (Function.update task f (some .resting)) ready waking held none := by
  obtain ⟨nodup, mem, held', working⟩ := agenda
  constructor <;> grind [Function.update_apply]

end Agenda

end EffectFibers
