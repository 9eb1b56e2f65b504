import EffectFibers.Proofs.Coherence.Reachable
import EffectFibers.Proofs.Veil.Children

/-!
# Steps under the veil

A fiber looks at its own mark only outside of its uninterruptible regions: before it waits, when a
wait of it ends, when it is about to sleep and when its slice is used up.  So as long as a region is
open and the fiber starts no children, two machines that differ in its mark take the same steps, and
after any sequence of events they still differ in nothing else.

## Main definitions

* `Node.startsFibers` – the nodes that start fibers.
* `Moment.shield` – the number of open regions of a fiber.

## Main statements

* `Moment.Veiled.apply` – an event keeps two moments the same under the veil.
-/

namespace EffectFibers

variable {σ : Type}

/-- Whether the evaluation of a node starts fibers. -/
def Node.startsFibers : Node σ → Bool
  | .race children | .all children _ => !children.isEmpty
  | .fork _ => true
  | _ => false

/-- Two steps that come to the same under the veil. -/
structure VeiledStep (f : FiberId) (result result' : StepResult σ) : Prop where
  control : result'.control = result.control
  run : result'.run = result.run
  machine : Veiled f result.machine result'.machine

namespace Veiled

variable {f g : FiberId} {scope : ScopeId} {m m' : Machine σ} {run : RunState σ}

theorem interruptPending_eq (veiled : Veiled f m m') (shielded : g = f → 0 < run.shield) :
    m'.interruptPending g run = m.interruptPending g run := by
  unfold Machine.interruptPending
  by_cases same : g = f
  · have open' : (run.shield == 0) = false := beq_false_of_ne (Nat.ne_of_gt (shielded same))
    rw [open', Bool.false_and, Bool.false_and]
  · rw [veiled.isInterrupted_eq same]

/-! ## Frames -/

theorem build (veiled : Veiled f m m') (run : RunState σ) (code : Action σ (Node σ)) :
    VeiledStep f (m.build run code) (m'.build run code) := by
  obtain ⟨built, performed⟩ := veiled.perform code
  exact ⟨congrArg Control.ofBuilt built, rfl, performed⟩

theorem advanceLayers (veiled : Veiled f m m') (run : RunState σ) (build : LayerBuild σ)
    (layers : List (LayerNode σ)) :
    VeiledStep f (m.advanceLayers g scope run build layers)
      (m'.advanceLayers g scope run build layers) := by
  induction layers generalizing m m' build with
  | nil => exact ⟨rfl, rfl, veiled⟩
  | cons layer rest ih =>
      obtain ⟨state, looked⟩ := veiled.lookUpLayer scope layer g
      unfold Machine.advanceLayers
      generalize m.lookUpLayer scope layer g = result at state looked ⊢
      generalize m'.lookUpLayer scope layer g = result' at state looked ⊢
      obtain ⟨state₁, m₁⟩ := result
      obtain ⟨state₂, m₂⟩ := result'
      simp only at state
      subst state
      cases state₂ with
      | built context => exact ih looked _
      | claimed => exact ⟨rfl, rfl, looked⟩
      | busy => exact ⟨rfl, rfl, looked⟩

theorem provide (veiled : Veiled f m m') (run : RunState σ) (body : Node σ) (plan : LayerPlan σ)
    (exports : List TagId) :
    VeiledStep f (m.provide g scope run body plan exports)
      (m'.provide g scope run body plan exports) := by
  cases plan with
  | error e => exact ⟨rfl, rfl, veiled⟩
  | ok layers => exact veiled.advanceLayers _ _ layers

theorem endBuild (veiled : Veiled f m m') (run : RunState σ) (build : LayerBuild σ)
    (layer : LayerNode σ) (rest : List (LayerNode σ)) (x : Exit) :
    VeiledStep f (m.endBuild g scope run build layer rest x)
      (m'.endBuild g scope run build layer rest x) := by
  unfold Machine.endBuild
  split
  · exact (veiled.completeBuild scope layer _).advanceLayers _ _ rest
  · exact ⟨rfl, rfl, veiled.forgetBuild scope layer _ _⟩
  · exact ⟨rfl, rfl, veiled.forgetBuild scope layer _ _⟩
  · exact ⟨rfl, rfl, (veiled.trace _).forgetBuild scope layer _ _⟩

theorem resumeLayers (veiled : Veiled f m m') (run : RunState σ) (build : LayerBuild σ)
    (x : Exit) :
    VeiledStep f (m.resumeLayers g scope run build x) (m'.resumeLayers g scope run build x) := by
  unfold Machine.resumeLayers
  split
  · split
    · exact ⟨rfl, rfl, veiled⟩
    · exact veiled.endBuild _ _ _ _ x
  · split
    · exact veiled.advanceLayers run build build.todo
    · exact ⟨rfl, rfl, veiled⟩

theorem resumeRetry (veiled : Veiled f m m') (run : RunState σ) (source : Node σ)
    (schedule : Schedule Failure) (attempt : Nat) (failure : Failure) :
    VeiledStep f (m.resumeRetry g run source schedule attempt failure)
      (m'.resumeRetry g run source schedule attempt failure) := by
  unfold Machine.resumeRetry
  split
  · exact ⟨rfl, rfl, veiled.trace _⟩
  · exact ⟨rfl, rfl, veiled.trace _⟩
  · exact ⟨rfl, rfl, veiled⟩

theorem resumeFinalizing (veiled : Veiled f m m') (run : RunState σ) (earlier x : Exit) :
    VeiledStep f (m.resumeFinalizing g run earlier x) (m'.resumeFinalizing g run earlier x) := by
  cases x with
  | ok v => exact ⟨rfl, rfl, veiled⟩
  | error cause => exact ⟨rfl, rfl, veiled.trace (.finalizerFailed g cause)⟩

theorem resumeFrame (veiled : Veiled f m m') (run : RunState σ) (frame : Frame σ) (x : Exit) :
    VeiledStep f (m.resumeFrame g scope run frame x) (m'.resumeFrame g scope run frame x) := by
  unfold Machine.resumeFrame
  split
  case h_1 => exact veiled.build _ _
  case h_3 => exact veiled.build _ _
  case h_6 => exact veiled.resumeFinalizing _ _ _
  case h_10 => exact veiled.resumeRetry _ _ _ _ _
  case h_12 => exact veiled.build _ _
  case h_14 => exact veiled.resumeLayers _ _ _
  all_goals exact ⟨rfl, rfl, veiled⟩

/-! ## Nodes -/

theorem evalAsync (veiled : Veiled f m m') (run : RunState σ)
    (register : WaitId → Action σ (Option (Cleanup σ))) :
    VeiledStep f (m.evalAsync g run register) (m'.evalAsync g run register) := by
  obtain ⟨wait, opened⟩ := veiled.openWait g .callback
  unfold Machine.evalAsync
  simp only [wait]
  obtain ⟨answer, performed⟩ := opened.perform (register (m.openWait g .callback).1)
  generalize (m.openWait g .callback).2.perform _ = result at answer performed ⊢
  generalize (m'.openWait g .callback).2.perform _ = result' at answer performed ⊢
  obtain ⟨answer₁, m₁⟩ := result
  obtain ⟨answer₂, m₂⟩ := result'
  simp only at answer
  subst answer
  cases answer₂ with
  | ok cleanup => exact ⟨rfl, rfl, performed⟩
  | error p =>
      obtain ⟨won, claimed⟩ := performed.claim (m.openWait g .callback).1
      refine ⟨?_, rfl, claimed⟩
      show (if _ then _ else _) = _
      rw [won]

theorem evalWatch (veiled : Veiled f m m') (run : RunState σ) (target : FiberId) (how : Watch) :
    VeiledStep f (m.evalWatch g run target how) (m'.evalWatch g run target how) := by
  obtain ⟨wait, opened⟩ := veiled.openWait g .fiber
  unfold Machine.evalWatch
  simp only [wait]
  exact ⟨rfl, rfl, watch (ite (opened.interrupt target) opened) target _ how⟩

theorem evalAwaitBuild (veiled : Veiled f m m') (run : RunState σ) (layer : LayerId) :
    VeiledStep f (m.evalAwaitBuild g scope run layer) (m'.evalAwaitBuild g scope run layer) := by
  obtain ⟨wait, opened⟩ := veiled.openWait g .build
  unfold Machine.evalAwaitBuild
  simp only [wait]
  exact ⟨rfl, rfl, opened.joinBuild scope layer _⟩

theorem evalSleep (veiled : Veiled f m m') (run : RunState σ) (d : Duration) :
    VeiledStep f (m.evalSleep g run d) (m'.evalSleep g run d) := by
  obtain ⟨fibers, record, rfl, same, hushed⟩ := veiled.exists_eq
  unfold Machine.evalSleep
  split
  · exact ⟨rfl, rfl, veiled⟩
  · exact ⟨rfl, rfl, same, hushed, rfl, veiled.lone⟩

theorem evalNode (veiled : Veiled f m m') (run : RunState σ) (node : Node σ)
    (alone : g = f → node.startsFibers = false) :
    VeiledStep f (m.evalNode g scope run node) (m'.evalNode g scope run node) := by
  cases node with
  | sync thunk =>
      obtain ⟨answer, performed⟩ := veiled.perform thunk
      simp only [Machine.evalNode]
      generalize m.perform thunk = result at answer performed ⊢
      generalize m'.perform thunk = result' at answer performed ⊢
      obtain ⟨answer₁, m₁⟩ := result
      obtain ⟨answer₂, m₂⟩ := result'
      simp only at answer
      subst answer
      cases answer₂ <;> exact ⟨rfl, rfl, performed⟩
  | once ticket exit =>
      obtain ⟨good, performed⟩ := veiled.perform (Action.useTicket ticket)
      refine ⟨?_, rfl, performed⟩
      simp only [Machine.evalNode, good]
  | async register => exact veiled.evalAsync run register
  | watch target how => exact veiled.evalWatch run target how
  | awaitBuild layer => exact veiled.evalAwaitBuild run layer
  | provide body plan exports => exact veiled.provide run body plan exports
  | race children =>
      simp only [Machine.evalNode, Machine.evalRace]
      split
      · exact ⟨rfl, rfl, veiled⟩
      · rename_i nonempty
        have other : g ≠ f := by simpa [Node.startsFibers, nonempty] using alone
        obtain ⟨group, started⟩ := veiled.startRace other run.context children
        exact ⟨congrArg (fun k => Control.suspend (.group k)) group, rfl, started⟩
  | all children options =>
      simp only [Machine.evalNode, Machine.evalAll]
      split
      · exact ⟨rfl, rfl, veiled⟩
      · rename_i nonempty
        have other : g ≠ f := by simpa [Node.startsFibers, nonempty] using alone
        obtain ⟨group, started⟩ := veiled.startAll other run.context children options
        exact ⟨congrArg (fun k => Control.suspend (.group k)) group, rfl, started⟩
  | sleep d => exact veiled.evalSleep run d
  | access reader => exact veiled.build run _
  | fork source =>
      have other : g ≠ f := by simpa [Node.startsFibers] using alone
      obtain ⟨child, forked⟩ := veiled.fork other source run.context
      exact ⟨congrArg (fun c => Control.done (.ok (.fiber c))) child, rfl, forked⟩
  | log level message =>
      have now : m'.now = m.now := by rw [veiled.rest]
      simp only [Machine.evalNode, now]
      exact ⟨rfl, rfl, veiled.write _⟩
  | span label source =>
      have now : m'.now = m.now := by rw [veiled.rest]
      simp only [Machine.evalNode, now]
      exact ⟨rfl, rfl, veiled⟩
  | _ => exact ⟨rfl, rfl, veiled⟩

/-- A step of a fiber. -/
theorem stepRun (veiled : Veiled f m m') (scope : ScopeId) (run : RunState σ)
    (shielded : g = f → 0 < run.shield)
    (alone : g = f → ∀ node, run.next = .eval node → node.startsFibers = false) :
    VeiledStep f (m.stepRun g scope run) (m'.stepRun g scope run) := by
  unfold Machine.stepRun
  split
  · rename_i node next
    unfold Machine.eval
    rw [veiled.interruptPending_eq shielded]
    split
    · exact ⟨rfl, rfl, veiled⟩
    · exact veiled.evalNode run node fun same => alone same node next
  · split
    · exact ⟨rfl, rfl, veiled⟩
    · exact veiled.resumeFrame _ _ _

/-! ## What comes of a step -/

theorem setRunning (veiled : Veiled f m m') (running : Option (Slice σ)) :
    Veiled f { m with running } { m' with running } := by
  obtain ⟨fibers, record, rfl, same, hushed⟩ := veiled.exists_eq
  exact ⟨same, hushed, rfl, veiled.lone⟩

theorem afterWait_eq (veiled : Veiled f m m') (shielded : g = f → 0 < run.shield) (x : Exit) :
    m'.afterWait g run x = m.afterWait g run x := by
  unfold Machine.afterWait
  rw [veiled.interruptPending_eq shielded]

theorem suspend (veiled : Veiled f m m') (run : RunState σ) (pending : Pending σ) :
    Veiled f (m.suspend g run pending) (m'.suspend g run pending) := by
  refine veiled.modifyFiber g ?_
  exact fun _ => ⟨fun _ => rfl, fun _ => List.Subset.refl _, fun _ => rfl⟩

theorem park (veiled : Veiled f m m') {slice : Slice σ} (pending : Pending σ)
    (shielded : slice.fiber = f → 0 < slice.run.shield) :
    Veiled f (m.park slice pending) (m'.park slice pending) := by
  have input : (m'.fiber? slice.fiber).bind (·.input) = (m.fiber? slice.fiber).bind (·.input) :=
    veiled.find slice.fiber _ fun _ _ => rfl
  simp only [Machine.park]
  rw [input]
  split
  · rw [veiled.afterWait_eq shielded]
    refine setRunning (veiled.modifyFiber slice.fiber ?_) _
    exact fun _ => ⟨fun _ => rfl, fun _ => List.Subset.refl _, fun _ => rfl⟩
  · exact veiled.suspend _ _
  · rename_i w canceler _
    rw [veiled.interruptPending_eq shielded]
    split
    · obtain ⟨won, claimed⟩ := veiled.claim w
      rw [won]
      split
      · exact (claimed.runCanceler slice.fiber canceler).setRunning _
      · exact claimed.suspend _ _
    · exact veiled.suspend _ _

theorem requeue (veiled : Veiled f m m') (run : RunState σ) :
    Veiled f (m.requeue g run) (m'.requeue g run) := by
  refine enqueue (veiled.modifyFiber g ?_) g
  exact fun _ => ⟨fun _ => rfl, fun _ => List.Subset.refl _, fun _ => rfl⟩

theorem observeAtRequeue_eq (veiled : Veiled f m m') (run : RunState σ)
    (shielded : g = f → 0 < run.shield) :
    m'.observeAtRequeue g run = m.observeAtRequeue g run := by
  unfold Machine.observeAtRequeue
  rw [veiled.interruptPending_eq shielded]

theorem follow (veiled : Veiled f m m') {slice : Slice σ} {control : Control σ}
    (coherent : Coherent m.core (control.focus slice.fiber none none))
    (shielded : slice.fiber = f → 0 < slice.run.shield) :
    Veiled f (m.follow slice control) (m'.follow slice control) := by
  cases control with
  | next step =>
      simp only [Machine.follow]
      split
      · rw [veiled.observeAtRequeue_eq { slice.run with next := step } shielded]
        exact veiled.requeue _
      · exact veiled.setRunning _
  | yield step => exact veiled.requeue _
  | suspend pending => exact veiled.park pending shielded
  | finish x => exact veiled.finish coherent x

theorem dispatch (veiled : Veiled f m m')
    (shielded : ∀ fiber run, m.fiber? f = some fiber → fiber.run = some run → 0 < run.shield) :
    Veiled f m.dispatch m'.dispatch := by
  obtain ⟨fibers, record, rfl, same, hushed⟩ := veiled.exists_eq
  unfold Machine.dispatch
  dsimp only
  split
  · exact veiled
  rename_i g rest _
  have popped : Veiled f { m with ready := rest } { m with fibers, record, ready := rest } :=
    ⟨same, hushed, rfl, veiled.lone⟩
  rcases popped.row g with ⟨none, none'⟩ | ⟨fiber, b, row, row', -⟩
  · simp only [none, none']
    exact popped
  simp only [row, row']
  split
  · exact popped
  rename_i run saved
  have taken : Veiled f
      (Machine.modifyFiber { m with ready := rest } g fun fiber =>
        { fiber with run := none, input := none })
      (Machine.modifyFiber { m with fibers, record, ready := rest } g fun fiber =>
        { fiber with run := none, input := none }) := by
    refine popped.modifyFiber g ?_
    exact fun _ => ⟨fun _ => rfl, fun _ => List.Subset.refl _, fun _ => rfl⟩
  cases fiber.input with
  | none => exact taken.setRunning _
  | some x =>
      simp only
      rw [popped.afterWait_eq fun same => shielded fiber run (same ▸ row) saved]
      exact taken.setRunning _

end Veiled

end EffectFibers
