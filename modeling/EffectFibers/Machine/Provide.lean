import EffectFibers.Machine.Control
import EffectFibers.Machine.Memo

/-!
# Providing layers

The layers of a plan are made ready one after the other.  Those that the run has built already
are used as they are; the first one that nobody has claimed is built by this fiber, in the outer
context with everything built before; for one that another fiber is building this fiber waits and
then looks again.  When all are ready, the body runs in the outer context with the exported
services.

## Main definitions

* `Machine.advanceLayers` – go on with a plan.
* `Machine.resumeLayers` – a build, or the wait for one, has ended.
-/

namespace EffectFibers.Machine

variable {σ : Type}

/-- Go on with the layers that are still to come: reuse those that are built, build or wait for
the first one that is not, or run the body. -/
def advanceLayers (m : Machine σ) (f : FiberId) (scope : ScopeId) (run : RunState σ)
    (build : LayerBuild σ) : List (LayerNode σ) → StepResult σ
  | [] =>
    let context := build.outer.merge (build.built.restrict build.exports)
    { control := .eval build.body, run := { run with context }, machine := m }
  | layer :: rest =>
    match m.lookUpLayer scope layer f with
    | (.built context, m) =>
      m.advanceLayers f scope run { build with built := build.built.merge context } rest
    | (.claimed, m) =>
      let frame := Frame.layers { build with todo := layer :: rest, owning := true }
      { control := .eval layer.build
        run := { run.push frame with context := build.outer.merge build.built }
        machine := m }
    | (.busy, m) =>
      let frame := Frame.layers { build with todo := layer :: rest, owning := false }
      { control := .eval (.awaitBuild layer.id), run := run.push frame, machine := m }

/-- Start to provide layers to a body. -/
def provide (m : Machine σ) (f : FiberId) (scope : ScopeId) (run : RunState σ) (body : Node σ)
    (plan : LayerPlan σ) (exports : List TagId) : StepResult σ :=
  match plan with
  | .error e => { control := .die (.layer e.text), run, machine := m }
  | .ok layers =>
    let build : LayerBuild σ :=
      { body, exports, todo := layers, outer := run.context, built := .empty, owning := false }
    m.advanceLayers f scope (run.push (.restore run.context)) build layers

/-- The build of this fiber's own layer has an exit. -/
def endBuild (m : Machine σ) (f : FiberId) (scope : ScopeId) (run : RunState σ)
    (build : LayerBuild σ) (layer : LayerNode σ) (rest : List (LayerNode σ)) (exit : Exit) :
    StepResult σ :=
  match exit with
  | .ok (.context context) =>
    let m := m.completeBuild scope layer context
    m.advanceLayers f scope run { build with built := build.built.merge context } rest
  | .ok _ =>
    let cause := Cause.die .typeMismatch
    { control := .done (.error cause), run, machine := m.failBuild scope layer cause }
  | .error .interrupt =>
    { control := .done .interrupted, run, machine := m.abandonBuild scope layer }
  | .error cause =>
    let m := m.trace (.buildFailed layer.name cause)
    { control := .done (.error cause), run, machine := m.failBuild scope layer cause }

/-- An exit reaches the layers that a fiber builds or waits for. -/
def resumeLayers (m : Machine σ) (f : FiberId) (scope : ScopeId) (run : RunState σ)
    (build : LayerBuild σ) (exit : Exit) : StepResult σ :=
  if build.owning then
    match build.todo with
    | [] =>
      { control := .die (.internal "layer build frame out of range"), run, machine := m }
    | layer :: rest =>
      m.endBuild f scope { run with context := build.outer } { build with owning := false }
        layer rest exit
  else
    match exit with
    | .ok _ => m.advanceLayers f scope run build build.todo
    | .error cause => { control := .done (.error cause), run, machine := m }

end EffectFibers.Machine
