import EffectFibers.Proofs.Progress.Events

/-!
# The stack of a fiber

A step evaluates a tree, and then the stack only grows; or it hands an exit to the frame on top, and
then this frame goes and others may come in its place.  What lies below does not move.  Between its
steps the stack of a fiber does not change at all, and a program ends with an empty stack only.  The
open regions of a program are those that its stack will close.

## Main definitions

* `Machine.Grows` – a step that puts frames on a stack.
* `RunState.Balanced` – the open regions are those that the stack will close.

## Main statements

* `Machine.stepRun_eval_grows`, `Machine.stepRun_done_grows` – what a step does to the stack.
* `Moment.Reachable.sound` – every fiber is balanced, and ends with an empty stack only.
* `Moment.Reachable.kept` – what the steps of a program keep, whatever comes next in it.
-/

namespace EffectFibers

variable {σ : Type}

/-! ## One step -/

/-- A frame that closes a region in which interrupts are held back. -/
def Frame.guards : Frame σ → Bool
  | .finalizing _ | .regionEnd => true
  | _ => false

/-- Whether a step has ended the program. -/
def Control.ends : Control σ → Bool
  | .finish _ => true
  | _ => false

theorem Control.ne_finish {control : Control σ} (goes : control.ends = false) (x : Exit) :
    control ≠ .finish x := by
  rintro rfl
  cases goes

/-- The open regions of a program are those that its stack will close. -/
def RunState.Balanced (run : RunState σ) : Prop := run.shield = run.stack.countP Frame.guards

namespace Machine

/-- A step that puts frames on a stack, opens the regions that they close, and does not end the
program. -/
structure Grows (stack : List (Frame σ)) (shield : Nat) (result : StepResult σ) : Prop where
  frames : ∃ new, result.run.stack = new ++ stack ∧
    result.run.shield = shield + new.countP Frame.guards
  goes : ∀ x, result.control ≠ .finish x

namespace Grows

variable {m : Machine σ} {f : FiberId} {scope : ScopeId} {run : RunState σ} {stack : List (Frame σ)}
  {shield : Nat} {result : StepResult σ}

/-- A step that leaves the stack alone. -/
theorem of_same (same : result.run.stack = stack) (open_ : result.run.shield = shield)
    (goes : result.control.ends = false) : Grows stack shield result :=
  ⟨⟨[], same, open_⟩, Control.ne_finish goes⟩

/-- A step that pushes a frame which closes nothing. -/
theorem of_push {frame : Frame σ} (same : result.run.stack = frame :: stack)
    (open_ : result.run.shield = shield) (plain : frame.guards = false)
    (goes : result.control.ends = false) : Grows stack shield result :=
  ⟨⟨[frame], same, by simp [open_, plain]⟩, Control.ne_finish goes⟩

/-- A step that opens a region, with the frame that closes it. -/
theorem of_guard {frame : Frame σ} (same : result.run.stack = frame :: stack)
    (open_ : result.run.shield = shield + 1) (guards : frame.guards = true)
    (goes : result.control.ends = false) : Grows stack shield result :=
  ⟨⟨[frame], same, by simp [open_, guards]⟩, Control.ne_finish goes⟩

/-- A step above a frame that closes nothing is a step above what lies below. -/
theorem below {frame : Frame σ} (grows : Grows (frame :: stack) shield result)
    (plain : frame.guards = false) : Grows stack shield result := by
  obtain ⟨⟨new, same, open_⟩, goes⟩ := grows
  exact ⟨⟨new ++ [frame], by simp [same], by simp [open_, plain]⟩, goes⟩

theorem build (code : Action σ (Node σ)) : Grows run.stack run.shield (m.build run code) := by
  refine of_same rfl rfl ?_
  unfold Machine.build Control.ofBuilt
  generalize m.perform code = performed
  obtain ⟨built, machine⟩ := performed
  cases built <;> rfl

theorem advanceLayers (run : RunState σ) (m : Machine σ) (build : LayerBuild σ)
    (todo : List (LayerNode σ)) :
    Grows run.stack run.shield (m.advanceLayers f scope run build todo) := by
  induction todo generalizing m build with
  | nil => exact of_same rfl rfl rfl
  | cons layer rest ih =>
      unfold Machine.advanceLayers
      split
      · exact ih _ _
      · exact of_push rfl rfl rfl rfl
      · exact of_push rfl rfl rfl rfl

theorem evalAsync (register : WaitId → Action σ (Option (Cleanup σ))) :
    Grows run.stack run.shield (m.evalAsync f run register) := by
  unfold Machine.evalAsync
  simp only
  split
  · exact of_same rfl rfl rfl
  · refine of_same rfl rfl ?_
    dsimp only
    split <;> rfl

/-- Evaluation puts frames on the stack. -/
theorem evalNode (node : Node σ) : Grows run.stack run.shield (m.evalNode f scope run node) := by
  cases node with
  | flatMap source next => exact of_push rfl rfl rfl rfl
  | recover source handler => exact of_push rfl rfl rfl rfl
  | ensuring source finalizer => exact of_push rfl rfl rfl rfl
  | retry source schedule => exact of_push rfl rfl rfl rfl
  | repeated source schedule attempt => exact of_push rfl rfl rfl rfl
  | span label source => exact of_push rfl rfl rfl rfl
  | uninterruptible source => exact of_guard rfl rfl rfl rfl
  | async register => exact evalAsync register
  | access reader => exact build (reader run.context)
  | sync thunk =>
      simp only [Machine.evalNode]
      split <;> exact of_same rfl rfl rfl
  | once ticket x =>
      unfold Machine.evalNode
      refine of_same rfl rfl ?_
      dsimp only
      split <;> rfl
  | provide body plan exports =>
      simp only [Machine.evalNode, Machine.provide]
      split
      · exact of_same rfl rfl rfl
      · exact (advanceLayers (run.push (.restore run.context)) m _ _).below rfl
  | race children =>
      simp only [Machine.evalNode, Machine.evalRace]
      split <;> exact of_same rfl rfl rfl
  | all children options =>
      simp only [Machine.evalNode, Machine.evalAll]
      split <;> exact of_same rfl rfl rfl
  | sleep d =>
      simp only [Machine.evalNode, Machine.evalSleep]
      split <;> exact of_same rfl rfl rfl
  | _ => exact of_same rfl rfl rfl

theorem eval (node : Node σ) : Grows run.stack run.shield (m.eval f scope run node) := by
  unfold Machine.eval
  split
  · exact of_same rfl rfl rfl
  · exact evalNode node

theorem resumeRetry (source : Node σ) (schedule : Schedule Failure) (attempt : Nat)
    (failure : Failure) :
    Grows run.stack run.shield (m.resumeRetry f run source schedule attempt failure) := by
  unfold Machine.resumeRetry
  split
  · rename_i delay _
    unfold evalAfter
    dsimp only
    split
    · exact of_push rfl rfl rfl rfl
    · refine (show Grows (.retry source schedule (Schedule.nextAttempt attempt) :: run.stack)
        run.shield _ from ?_).below rfl
      exact of_push rfl rfl rfl rfl
  · exact of_same rfl rfl rfl
  · exact of_same rfl rfl rfl

theorem resumeLayers (build : LayerBuild σ) (x : Exit) :
    Grows run.stack run.shield (m.resumeLayers f scope run build x) := by
  unfold Machine.resumeLayers
  split
  · split
    · exact of_same rfl rfl rfl
    · unfold Machine.endBuild
      split
      · exact advanceLayers { run with context := build.outer } _ _ _
      · exact of_same rfl rfl rfl
      · exact of_same rfl rfl rfl
      · exact of_same rfl rfl rfl
  · split
    · exact advanceLayers _ m _ _
    · exact of_same rfl rfl rfl

/-- The regions that are open after a frame is gone. -/
def shieldBelow (frame : Frame σ) (shield : Nat) : Nat :=
  if frame.guards then shield - 1 else shield

/-- An exit for a frame puts other frames in its place. -/
theorem resumeFrame (run : RunState σ) (frame : Frame σ) (x : Exit) :
    Grows run.stack (shieldBelow frame run.shield) (m.resumeFrame f scope run frame x) := by
  cases frame with
  | flatMap next =>
      cases x with
      | ok v => exact build (next v)
      | error cause => exact of_same rfl rfl rfl
  | recover handler =>
      rcases x with (failure | d | _) | v
      · exact build (handler failure)
      · exact of_same rfl rfl rfl
      · exact of_same rfl rfl rfl
      · exact of_same rfl rfl rfl
  | ensuring finalizer => exact of_guard rfl rfl rfl rfl
  | finalizing earlier => exact of_same rfl rfl rfl
  | retry source schedule attempt =>
      rcases x with (failure | d | _) | v
      · exact resumeRetry source schedule attempt failure
      · exact of_same rfl rfl rfl
      · exact of_same rfl rfl rfl
      · exact of_same rfl rfl rfl
  | repeated source schedule attempt =>
      cases x with
      | ok v => exact build _
      | error cause => exact of_same rfl rfl rfl
  | layers building => exact resumeLayers building x
  | _ => exact of_same rfl rfl rfl

end Grows

section

variable {m : Machine σ} {f : FiberId} {scope : ScopeId} {run : RunState σ}
  {stack : List (Frame σ)} {node : Node σ} {frame : Frame σ} {x : Exit}

theorem stepRun_eval (next : run.next = .eval node) :
    m.stepRun f scope run = m.eval f scope run node := by
  unfold stepRun
  rw [next]

theorem stepRun_done (next : run.next = .done x) (top : run.stack = frame :: stack) :
    m.stepRun f scope run = m.resumeFrame f scope { run with stack } frame x := by
  unfold stepRun
  rw [next, top]

theorem stepRun_over (next : run.next = .done x) (top : run.stack = []) :
    m.stepRun f scope run = { control := .finish x, run, machine := m } := by
  unfold stepRun
  rw [next, top]

/-- A step that evaluates a tree puts frames on the stack. -/
theorem stepRun_eval_grows (next : run.next = .eval node) :
    Grows run.stack run.shield (m.stepRun f scope run) := by
  rw [stepRun_eval next]
  exact .eval node

/-- A step that hands an exit to a frame puts other frames in its place. -/
theorem stepRun_done_grows (next : run.next = .done x) (top : run.stack = frame :: stack) :
    Grows stack (Grows.shieldBelow frame run.shield) (m.stepRun f scope run) := by
  rw [stepRun_done next top]
  exact Grows.resumeFrame { run with stack } frame x

theorem Grows.balanced {shield : Nat} {result : StepResult σ} (grows : Grows stack shield result)
    (balanced : shield = stack.countP Frame.guards) : result.run.Balanced := by
  obtain ⟨new, same, opened⟩ := grows.frames
  rw [RunState.Balanced, same, opened, List.countP_append, balanced, Nat.add_comm]

/-- A step keeps the open regions and the stack in balance, and ends a program with an empty stack
only. -/
theorem stepRun_balanced (balanced : run.Balanced) :
    (m.stepRun f scope run).run.Balanced ∧
      ∀ x, (m.stepRun f scope run).control = .finish x →
        (m.stepRun f scope run).run.stack = [] := by
  cases next : run.next with
  | eval node =>
      have grows : Grows run.stack run.shield (m.stepRun f scope run) := stepRun_eval_grows next
      exact ⟨grows.balanced balanced, fun x ends => absurd ends (grows.goes x)⟩
  | done x =>
      cases top : run.stack with
      | nil =>
          -- only here does a program end
          rw [stepRun_over next top]
          exact ⟨balanced, fun _ _ => top⟩
      | cons frame stack =>
          have grows : Grows stack _ (m.stepRun f scope run) := stepRun_done_grows next top
          refine ⟨grows.balanced ?_, fun x ends => absurd ends (grows.goes x)⟩
          rw [RunState.Balanced, top] at balanced
          unfold Grows.shieldBelow
          cases guards : frame.guards <;> simp [balanced, guards]

end

end Machine

/-! ## Every moment -/

/-- A fiber is balanced, and has an empty stack if its program has its exit. -/
structure Position.Sound (p : Position σ) : Prop where
  balanced : ∀ run, p.run? = some run → run.Balanced
  ended : ∀ run x answer, p = .stepped run (.finish x) answer → run.stack = []

namespace Position.Sound

variable {run : RunState σ}

/-- A fiber that has all of its tree left. -/
theorem of_born (node : Node σ) (context : Context Value) :
    (Position.ready { next := .eval node, context }).Sound := by
  constructor
  · intro run rest
    obtain rfl := Option.some.inj rest
    rfl
  · intro run x answer stands
    cases stands

theorem of_stepped {control : Control σ} {answer : Option Exit} (balanced : run.Balanced)
    (ends : ∀ x, control = .finish x → run.stack = []) :
    (Position.stepped run control answer).Sound := by
  constructor
  · intro run' rest
    obtain rfl := Option.some.inj rest
    exact balanced
  · intro run' x answer' stands
    obtain ⟨rfl, ended, -⟩ := Position.stepped.inj stands
    exact ends x ended

end Position.Sound

namespace Machine.Moves

variable {m m' : Machine σ} {f : FiberId} {p p' : Position σ}

/-- While a fiber takes no step, its stack stays as it is. -/
theorem stack_stays (moves : m.Moves m' f p p') {run' : RunState σ} (rest : p'.run? = some run') :
    ∃ run, p.run? = some run ∧ run' = { run with next := run'.next } := by
  cases moves with
  | stays => exact ⟨run', rest, rfl⟩
  | ends => cases rest
  | _ =>
      cases rest
      exact ⟨_, rfl, rfl⟩

theorem sound (moves : m.Moves m' f p p') (sound : p.Sound) : p'.Sound := by
  refine ⟨fun run' rest => ?_, fun run' x answer stands => ?_⟩
  · obtain ⟨run, rest', same⟩ := moves.stack_stays rest
    rw [same]
    exact sound.balanced run rest'
  · cases moves with
    | stays => exact sound.ended _ _ _ stands
    | _ => cases stands

end Machine.Moves

namespace Moment

variable {μ : Moment σ} {f : FiberId}

/-- Every fiber is balanced, and ends with an empty stack only. -/
theorem Reachable.sound (reachable : Reachable μ) {p : Position σ}
    (position : μ.position? f = some p) : p.Sound := by
  induction reachable generalizing p with
  | initial world budget => cases position?_initial.symm.trans position
  | @apply μ event reachable ih =>
      cases reachable.comes position with
      | born missing row saved => exact .of_born _ _
      | moved stood still moves => exact moves.sound (ih stood)
      | stepped stride ready =>
          have balanced := (ih ready).balanced _ rfl
          exact .of_stepped (Machine.stepRun_balanced balanced).1
            (Machine.stepRun_balanced balanced).2

/-- What holds of a program when its fiber is born, and is kept by every step whatever comes next,
holds of it always. -/
theorem Reachable.kept {P : RunState σ → Prop}
    (born : ∀ node context, P { next := .eval node, context })
    (waits : ∀ run step, P run → P { run with next := step })
    (steps : ∀ (m : Machine σ) (f : FiberId) (scope : ScopeId) (run : RunState σ),
      P run → P (m.stepRun f scope run).run)
    (reachable : Reachable μ) {p : Position σ} (position : μ.position? f = some p)
    {run : RunState σ} (rest : p.run? = some run) : P run := by
  induction reachable generalizing p run with
  | initial world budget => cases position?_initial.symm.trans position
  | @apply μ event reachable ih =>
      cases reachable.comes position with
      | born missing row saved => exact Option.some.inj rest ▸ born _ _
      | moved stood still moves =>
          obtain ⟨run₀, rest₀, same⟩ := moves.stack_stays rest
          exact same ▸ waits run₀ run.next (ih stood rest₀)
      | @stepped t _ _ ready =>
          exact Option.some.inj rest ▸
            steps t.machine t.slice.fiber t.scope _ (ih ready rfl)

end Moment

end EffectFibers
