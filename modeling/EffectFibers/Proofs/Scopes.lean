import EffectFibers.Proofs.Progress.Strides
import Mathlib.Logic.Relation

/-!
# Scopes are left as they were entered

A program opens scopes while it runs: a region or a finalizer holds interrupts back, a span joins
the log, a `provide` changes the context.  Each of them leaves a frame on the stack that closes it
again, so the frames that lie above some part of the stack tell how to get back to the scopes that
were open when there were none.  Every step keeps it so, whatever it makes of an exit and whatever
takes the place of its outcome.  When the exit of a tree reaches the frame on top of which the tree
was evaluated, all is as it was.

The layers of a `provide` change the context more than once.  They stay above the frame that
restores it, so the context between two of them does not matter.

## Main definitions

* `Scopes` – what a program has open.
* `Opened` – frames that lead back from the scopes that are open now to others.
* `RunState.Onward` – one step of a program, and anything that may come next.
* `Moment.UnderWay`, `Moment.ComesOut` – a tree is evaluated, and its exit comes out.

## Main statements

* `RunState.Within.stepRun` – a step keeps the way back.
* `Moment.scopes_are_balanced` – the exit of a tree finds everything as its evaluation found it.
-/

namespace EffectFibers

variable {σ : Type}

/-! ## The way back -/

/-- What a program has open: its context, the number of its regions, and the spans of its log. -/
structure Scopes where
  context : Context Value
  shield : Nat
  spans : List LogSpan

def RunState.scopes (run : RunState σ) : Scopes := ⟨run.context, run.shield, run.spans⟩

/-- A frame that closes nothing. -/
def Frame.isPlain : Frame σ → Bool
  | .flatMap _ | .recover _ | .ensuring _ | .retry .. | .repeated .. => true
  | _ => false

/-- Frames that were put on a stack when the outer scopes were open, and what is open now.  Handing
an exit through all of them closes what was opened since. -/
inductive Opened (outer : Scopes) : List (Frame σ) → Scopes → Prop
  | nil : Opened outer [] outer
  | plain {frame stack now} (plain : frame.isPlain = true) (below : Opened outer stack now) :
    Opened outer (frame :: stack) now
  | guard {frame stack now} (guards : frame.guards = true) (below : Opened outer stack now) :
    Opened outer (frame :: stack) { now with shield := now.shield + 1 }
  | span {stack now} (span : LogSpan) (below : Opened outer stack now) :
    Opened outer (.spanEnd :: stack) { now with spans := span :: now.spans }
  | provide {stack now} (context : Context Value) (below : Opened outer stack now) :
    Opened outer (.restore now.context :: stack) { now with context }
  /-- Layers are built or waited for, in any context. -/
  | layers {stack now restored} (build : LayerBuild σ) (context : Context Value)
    (below : Opened outer (.restore restored :: stack) now) :
    Opened outer (.layers build :: .restore restored :: stack) { now with context }

namespace Opened

variable {outer now later : Scopes} {frame : Frame σ} {stack new : List (Frame σ)}
  {restored : Context Value}

/-- Over the frame that restores the context, any context will do. -/
theorem anyContext (opened : Opened outer (.restore restored :: stack) now)
    (context : Context Value) :
    Opened outer (.restore restored :: stack) { now with context } := by
  cases opened with
  | plain plain _ => cases plain
  | guard guards _ => cases guards
  | provide _ below => exact .provide context below

theorem of_plain (plain : frame.isPlain = true) (opened : Opened outer (frame :: stack) now) :
    Opened outer stack now := by
  cases opened with
  | plain _ below => exact below
  | guard guards below => cases frame <;> cases plain <;> cases guards
  | _ => cases plain

theorem of_guard (guards : frame.guards = true) (opened : Opened outer (frame :: stack) now) :
    Opened outer stack { now with shield := now.shield - 1 } := by
  cases opened with
  | plain plain _ => cases frame <;> cases plain <;> cases guards
  | guard _ below => exact below
  | _ => cases guards

theorem of_span (opened : Opened outer (Frame.spanEnd :: stack) now) :
    Opened outer stack { now with spans := now.spans.tail } := by
  cases opened with
  | plain plain _ => cases plain
  | guard guards _ => cases guards
  | span _ below => exact below

theorem of_provide (opened : Opened outer (.restore restored :: stack) now) :
    Opened outer stack { now with context := restored } := by
  cases opened with
  | plain plain _ => cases plain
  | guard guards _ => cases guards
  | provide _ below => exact below

/-- Below layers is the frame that restores the context. -/
theorem of_layers {build : LayerBuild σ} (opened : Opened outer (.layers build :: stack) now) :
    ∃ restored rest, stack = .restore restored :: rest ∧ ∀ context,
      Opened outer stack { now with context } := by
  cases opened with
  | plain plain _ => cases plain
  | guard guards _ => cases guards
  | layers _ _ below => exact ⟨_, _, rfl, fun context => below.anyContext context⟩

end Opened

namespace RunState

/-- A program has a stack, and the frames above it lead back to the outer scopes. -/
def Within (outer : Scopes) (base : List (Frame σ)) (run : RunState σ) : Prop :=
  ∃ new, run.stack = new ++ base ∧ Opened outer new run.scopes

/-- One step of a program on some machine that hands no exit to the frame on top of a stack.  What
comes next is up to the step, or to an answer, or to an interrupt. -/
def Onward (base : List (Frame σ)) (run run' : RunState σ) : Prop :=
  (∀ x, run.next = .done x → run.stack ≠ base) ∧ ∃ (m : Machine σ) (f : FiberId) (scope : ScopeId),
    run' = { (m.stepRun f scope run).run with next := run'.next }

namespace Within

variable {outer : Scopes} {base stack new : List (Frame σ)} {run run' : RunState σ}
  {frame : Frame σ} {m : Machine σ} {f : FiberId} {scope : ScopeId}

theorem refl (run : RunState σ) : run.Within run.scopes run.stack := ⟨[], rfl, .nil⟩

/-- Nothing is left open when only the given stack is left. -/
theorem eq (within : run'.Within run.scopes run.stack) (same : run'.stack = run.stack) :
    run' = { run with next := run'.next } := by
  obtain ⟨new, split, opened⟩ := within
  obtain rfl : new = [] := by simpa using split.symm.trans same
  obtain ⟨next, stack, context, shield, spans⟩ := run'
  cases opened
  obtain rfl : stack = run.stack := same
  rfl

theorem suffix (within : run.Within outer base) : base <:+ run.stack := by
  obtain ⟨new, split, -⟩ := within
  exact split ▸ List.suffix_append new base

/-- A step that opens nothing. -/
theorem of_same (within : run.Within outer base) (same : run'.stack = run.stack)
    (scopes : run'.scopes = run.scopes) : run'.Within outer base := by
  obtain ⟨new, split, opened⟩ := within
  exact ⟨new, same.trans split, scopes ▸ opened⟩

/-- A step that pushes a frame which closes nothing. -/
theorem of_plain (within : run.Within outer base) (same : run'.stack = frame :: run.stack)
    (plain : frame.isPlain = true) (scopes : run'.scopes = run.scopes) :
    run'.Within outer base := by
  obtain ⟨new, split, opened⟩ := within
  exact ⟨frame :: new, by rw [same, split]; rfl, scopes ▸ opened.plain plain⟩

/-- A step that opens a region, and pushes the frame that closes it. -/
theorem of_guard (within : run.Within outer base) (frame : Frame σ) (guards : frame.guards = true)
    (next : Step σ) :
    ({ run with next, shield := run.shield + 1, stack := frame :: run.stack } :
      RunState σ).Within outer base := by
  obtain ⟨new, split, opened⟩ := within
  exact ⟨frame :: new, by simp [split], opened.guard guards⟩

/-- The frame on top is a frame of the base, or it is the first one that leads back. -/
theorem cons_cases (within : run.Within outer base) (top : run.stack = frame :: stack) :
    run.stack = base ∨ ∃ new, stack = new ++ base ∧ Opened outer (frame :: new) run.scopes := by
  obtain ⟨new, split, opened⟩ := within
  cases new with
  | nil => exact .inl split
  | cons first new =>
      obtain ⟨rfl, rfl⟩ := List.cons.inj (top.symm.trans split)
      exact .inr ⟨new, rfl, opened⟩

/-! ### Layers -/

/-- Going on with a plan stays above the frame that restores the context. -/
theorem advanceLayers (run : RunState σ) {restored : Context Value} {rest : List (Frame σ)}
    (split : run.stack = .restore restored :: rest ++ base)
    (opened : ∀ context, Opened outer (.restore restored :: rest) { run.scopes with context })
    (m : Machine σ) (build : LayerBuild σ) (todo : List (LayerNode σ)) :
    (m.advanceLayers f scope run build todo).run.Within outer base := by
  induction todo generalizing m build with
  | nil => exact ⟨_, split, opened _⟩
  | cons layer todo ih =>
      unfold Machine.advanceLayers
      split
      · exact ih _ _
      · exact ⟨_ :: .restore restored :: rest, congrArg (_ :: ·) split,
          .layers _ _ (opened run.context)⟩
      · exact ⟨_ :: .restore restored :: rest, congrArg (_ :: ·) split,
          .layers _ _ (opened run.context)⟩

theorem provide (within : run.Within outer base) (body : Node σ) (plan : LayerPlan σ)
    (exports : List TagId) : (m.provide f scope run body plan exports).run.Within outer base := by
  cases plan with
  | error e => exact within
  | ok layers =>
      obtain ⟨new, split, opened⟩ := within
      exact advanceLayers (run.push (.restore run.context))
        (congrArg (Frame.restore run.context :: ·) split) (fun context => opened.provide context) m
        _ _

/-- An exit reaches layers: whatever comes of it, the context is restored below. -/
theorem resumeLayers {build : LayerBuild σ} (x : Exit) (split : run.stack = new ++ base)
    (opened : Opened outer (.layers build :: new) run.scopes) :
    (m.resumeLayers f scope run build x).run.Within outer base := by
  obtain ⟨restored, rest, rfl, opened⟩ := opened.of_layers
  unfold Machine.resumeLayers
  split
  · split
    · exact ⟨_, split, opened _⟩
    · unfold Machine.endBuild
      split
      · exact advanceLayers { run with context := build.outer } split opened _ _ _
      · exact ⟨_, split, opened _⟩
      · exact ⟨_, split, opened _⟩
      · exact ⟨_, split, opened _⟩
  · split
    · exact advanceLayers run split opened m build build.todo
    · exact ⟨_, split, opened _⟩

/-! ### Steps -/

theorem evalNode (within : run.Within outer base) (node : Node σ) :
    (m.evalNode f scope run node).run.Within outer base := by
  cases node with
  | flatMap source next => exact within.of_plain rfl rfl rfl
  | recover source handler => exact within.of_plain rfl rfl rfl
  | ensuring source finalizer => exact within.of_plain rfl rfl rfl
  | retry source schedule => exact within.of_plain rfl rfl rfl
  | repeated source schedule attempt =>
      exact within.of_plain rfl rfl rfl
  | uninterruptible source => exact within.of_guard .regionEnd rfl run.next
  | provide body plan exports => exact within.provide body plan exports
  | span label source =>
      obtain ⟨new, split, opened⟩ := within
      exact ⟨.spanEnd :: new, by simp [Machine.evalNode, RunState.push, split], opened.span _⟩
  | async register =>
      simp only [Machine.evalNode, Machine.evalAsync]
      split <;> exact within
  | sync thunk =>
      simp only [Machine.evalNode]
      split <;> exact within
  | race children =>
      simp only [Machine.evalNode, Machine.evalRace]
      split <;> exact within
  | all children options =>
      simp only [Machine.evalNode, Machine.evalAll]
      split <;> exact within
  | sleep d =>
      simp only [Machine.evalNode, Machine.evalSleep]
      split <;> exact within
  | _ => exact within

theorem eval (within : run.Within outer base) (node : Node σ) :
    (m.eval f scope run node).run.Within outer base := by
  unfold Machine.eval
  split
  · exact within
  · exact within.evalNode node

theorem resumeRetry (within : run.Within outer base) (source : Node σ) (schedule : Schedule Failure)
    (attempt : Nat) (failure : Failure) :
    (m.resumeRetry f run source schedule attempt failure).run.Within outer base := by
  unfold Machine.resumeRetry
  split
  · have pushed : (run.push (.retry source schedule (Schedule.nextAttempt attempt))).Within
        outer base := within.of_plain rfl rfl rfl
    unfold Machine.evalAfter
    dsimp only
    split
    · exact pushed
    · exact pushed.of_plain rfl rfl rfl
  · exact within
  · exact within

/-- An exit is handed to a frame that leads back. -/
theorem resumeFrame (x : Exit) (split : run.stack = new ++ base)
    (opened : Opened outer (frame :: new) run.scopes) :
    (m.resumeFrame f scope run frame x).run.Within outer base := by
  have popped : frame.isPlain = true → run.Within outer base :=
    fun plain => ⟨new, split, opened.of_plain plain⟩
  cases frame with
  | flatMap next => cases x <;> exact popped rfl
  | recover handler => rcases x with (failure | d | _) | v <;> exact popped rfl
  | ensuring finalizer => exact (popped rfl).of_guard (.finalizing x) rfl run.next
  | finalizing earlier => exact ⟨new, split, opened.of_guard rfl⟩
  | regionEnd => exact ⟨new, split, opened.of_guard rfl⟩
  | restore context => exact ⟨new, split, opened.of_provide⟩
  | spanEnd => exact ⟨new, split, opened.of_span⟩
  | retry source schedule attempt =>
      rcases x with (failure | d | _) | v
      · exact (popped rfl).resumeRetry source schedule attempt failure
      · exact popped rfl
      · exact popped rfl
      · exact popped rfl
  | repeated source schedule attempt => cases x <;> exact popped rfl
  | layers build => exact resumeLayers x split opened

/-- A step keeps the way back, unless it hands an exit to the base. -/
theorem stepRun (within : run.Within outer base)
    (unreached : ∀ x, run.next = .done x → run.stack ≠ base) (m : Machine σ) (f : FiberId)
    (scope : ScopeId) : (m.stepRun f scope run).run.Within outer base := by
  cases next : run.next with
  | eval node =>
      rw [Machine.stepRun_eval next]
      exact within.eval node
  | done x =>
      cases top : run.stack with
      | nil =>
          rw [Machine.stepRun_over next top]
          exact within
      | cons frame stack =>
          rw [Machine.stepRun_done next top]
          rcases within.cons_cases top with here | ⟨new, split, opened⟩
          · exact absurd here (unreached x next)
          · exact resumeFrame x split opened

/-- What comes next does not open anything. -/
theorem next (within : run.Within outer base) (step : Step σ) :
    ({ run with next := step } : RunState σ).Within outer base := within.of_same rfl rfl

theorem onward (within : run.Within outer base) (onward : run.Onward base run') :
    run'.Within outer base := by
  obtain ⟨unreached, m, f, scope, same⟩ := onward
  rw [same]
  exact (within.stepRun unreached m f scope).next run'.next

/-- Any number of steps keep the way back. -/
theorem steps (within : run.Within outer base)
    (steps : Relation.ReflTransGen (RunState.Onward base) run run') : run'.Within outer base := by
  induction steps with
  | refl => exact within
  | tail _ step ih => exact ih.onward step

end Within

end RunState

/-! ## In a machine -/

/-- A fiber has a program that keeps the way back, and has not ended it. -/
def Position.Inside (outer : Scopes) (base : List (Frame σ)) (p : Position σ) : Prop :=
  (∃ run, p.run? = some run ∧ run.Within outer base) ∧
    ∀ run x answer, p ≠ .stepped run (.finish x) answer

theorem Position.Inside.moves {m m' : Machine σ} {f : FiberId} {p p' : Position σ} {outer : Scopes}
    {base : List (Frame σ)} (inside : p.Inside outer base) (moves : m.Moves m' f p p') :
    p'.Inside outer base := by
  obtain ⟨⟨run, rest, within⟩, going⟩ := inside
  have going' : ∀ run x answer, p' ≠ .stepped run (.finish x) answer := by
    intro run x answer stands
    cases moves with
    | stays => exact going _ _ _ stands
    | _ => cases stands
  have rest' : ∃ run', p'.run? = some run' := by
    cases moves with
    | stays => exact ⟨run, rest⟩
    | ends => exact absurd rfl (going _ _ _)
    | _ => exact ⟨_, rfl⟩
  obtain ⟨run', rest'⟩ := rest'
  obtain ⟨run'', rest'', same⟩ := moves.stack_stays rest'
  obtain rfl := Option.some.inj (rest.symm.trans rest'')
  refine ⟨⟨run', rest', ?_⟩, going'⟩
  rw [same]
  exact within.next run'.next

namespace Moment

/-- In a run that begins where a tree was evaluated, its exit has not come out: the fiber lives, its
stack is still there, and what lies above leads back to the scopes that were open. -/
structure UnderWay (f : FiberId) (start : RunState σ) (μ : Moment σ) (events : List (Event σ)) :
    Prop where
  live : ((μ.run events).machine.status f).isTerminal = false
  inside : ∀ before, before <+: events → ∃ run, (μ.run before).rest? f = some run ∧
    run.Within start.scopes start.stack
  unreached : ∀ s ∈ strides f μ events, ∀ x, ¬ s.Hands start.stack x

/-- The exit of the tree comes out, and everything but the next step is as it was. -/
def ComesOut (f : FiberId) (start : RunState σ) (μ : Moment σ) (events : List (Event σ)) : Prop :=
  ∃ (before after : List (Event σ)) (s : Stride σ) (x : Exit), events = before ++ .work :: after ∧
    UnderWay f start μ before ∧ (μ.run before).strideAt f .work = some s ∧
    s.slice.run = { start with next := .done x }

variable {μ : Moment σ} {f : FiberId} {event : Event σ} {start : RunState σ} {p : Position σ}

theorem UnderWay.nil (coherent : IsCoherent μ none none) (position : μ.position? f = some p)
    (inside : p.Inside start.scopes start.stack) : UnderWay f start μ [] := by
  obtain ⟨⟨run, rest, within⟩, -⟩ := inside
  have rest : μ.rest? f = some run := (rest?_of_position position).trans rest
  refine ⟨live_of_rest? coherent rest, fun before short => ?_, fun s taken => ?_⟩
  · rw [List.prefix_nil.1 short]
    exact ⟨run, rest, within⟩
  · cases taken

theorem UnderWay.cons {events : List (Event σ)} (position : μ.position? f = some p)
    (inside : p.Inside start.scopes start.stack)
    (unreached : ∀ s, μ.strideAt f event = some s → ∀ x, ¬ s.Hands start.stack x)
    (later : UnderWay f start (μ.apply event) events) : UnderWay f start μ (event :: events) := by
  refine ⟨?_, fun before short => ?_, fun s taken x => ?_⟩
  · rw [run_cons]
    exact later.live
  · cases before with
    | nil =>
        obtain ⟨⟨run, rest, within⟩, -⟩ := inside
        exact ⟨run, (rest?_of_position position).trans rest, within⟩
    | cons event' before =>
        obtain ⟨rfl, shorter⟩ := List.cons_prefix_cons.1 short
        exact later.inside before shorter
  · rcases List.mem_append.1 taken with now | after
    · exact unreached s (Option.mem_toList.1 now) x
    · exact later.unreached s after x

/-- A step that hands no exit to the stack keeps the fiber inside. -/
theorem Reachable.inside_of_stride (reachable : Reachable μ) {s : Stride σ}
    (stride : μ.strideAt f event = some s)
    (within : s.slice.run.Within start.scopes start.stack)
    (unreached : ∀ x, ¬ s.Hands start.stack x) :
    ∃ p, (μ.apply event).position? f = some p ∧ p.Inside start.scopes start.stack := by
  obtain ⟨-, -, answer, stepped, -⟩ := reachable.stride stride
  have unreached' : ∀ x, s.slice.run.next = .done x → s.slice.run.stack ≠ start.stack :=
    fun x next same => unreached x ⟨next, same⟩
  refine ⟨_, stepped, ⟨_, rfl, within.stepRun unreached' _ _ _⟩, ?_⟩
  rintro run x answer' stands
  obtain ⟨-, ends, -⟩ := Position.stepped.inj stands
  -- a program ends with an exit for the empty stack only
  cases next : s.slice.run.next with
  | eval node =>
      have grows : Machine.Grows s.slice.run.stack _ s.result := Machine.stepRun_eval_grows next
      exact grows.goes x ends
  | done y =>
      cases top : s.slice.run.stack with
      | nil =>
          have base := within.suffix
          rw [top, List.suffix_nil] at base
          exact unreached y ⟨next, top.trans base.symm⟩
      | cons frame stack =>
          have grows : Machine.Grows stack _ s.result := Machine.stepRun_done_grows next top
          exact grows.goes x ends

/-- A fiber stays inside until an exit comes out. -/
theorem Reachable.underWay_or_comesOut (reachable : Reachable μ) (position : μ.position? f = some p)
    (inside : p.Inside start.scopes start.stack) (events : List (Event σ)) :
    UnderWay f start μ events ∨ ComesOut f start μ events := by
  induction events generalizing μ p with
  | nil => exact .inl (.nil reachable.isCoherent position inside)
  | cons event events ih =>
      have onward : ∀ {p'}, (μ.apply event).position? f = some p' →
          p'.Inside start.scopes start.stack →
          (∀ s, μ.strideAt f event = some s → ∀ x, ¬ s.Hands start.stack x) →
          UnderWay f start μ (event :: events) ∨ ComesOut f start μ (event :: events) := by
        intro p' position' inside' unreached
        rcases ih (reachable.apply event) position' inside' with
          later | ⟨before, after, s, x, rfl, later, step, same⟩
        · exact .inl (.cons position inside unreached later)
        · refine .inr ⟨event :: before, after, s, x, rfl, ?_, ?_, same⟩
          · exact .cons position inside unreached later
          · rw [run_cons]
            exact step
      cases stride : μ.strideAt f event with
      | none =>
          obtain ⟨p', position', moves⟩ := reachable.moves position stride
          exact onward position' (inside.moves moves) fun s step => nomatch stride.symm.trans step
      | some s =>
          obtain ⟨-, ready, -⟩ := reachable.stride stride
          obtain rfl := Option.some.inj (ready.symm.trans position)
          obtain ⟨⟨run, rest, within⟩, -⟩ := id inside
          obtain rfl := Option.some.inj rest
          by_cases reached : ∃ x, s.Hands start.stack x
          · obtain ⟨x, next, same⟩ := reached
            obtain rfl := (strideAt_eq_some_iff.1 stride).1
            refine .inr ⟨[], events, s, x, rfl, ?_, stride, ?_⟩
            · exact .nil reachable.isCoherent position inside
            · rw [within.eq same, next]
          · have unreached : ∀ x, ¬ s.Hands start.stack x := fun x hands => reached ⟨x, hands⟩
            obtain ⟨p', position', inside'⟩ := reachable.inside_of_stride stride within unreached
            exact onward position' inside' fun s' step =>
              Option.some.inj (stride.symm.trans step) ▸ unreached

/-- A region that is closed was open. -/
theorem Reachable.shield_pos (reachable : Reachable μ) {s : Stride σ} {frame : Frame σ}
    {stack : List (Frame σ)} {x : Exit} (stride : μ.strideAt f event = some s)
    (hands : s.Hands (frame :: stack) x) (guards : frame.guards = true) :
    0 < s.slice.run.shield := by
  obtain ⟨-, ready, -⟩ := reachable.stride stride
  rw [(reachable.sound ready).balanced _ rfl, List.countP_pos_iff]
  exact ⟨frame, hands.2 ▸ List.mem_cons_self, guards⟩

/-- What is known about the scopes of the programs on a machine. -/
structure ScopesBalanced (μ : Moment σ) : Prop where
  /-- A tree is under way, or its exit comes out and all is as it was. -/
  restored : ∀ f event s node, μ.strideAt f event = some s → s.slice.run.next = .eval node →
    ∀ events, UnderWay f s.slice.run (μ.apply event) events ∨
      ComesOut f s.slice.run (μ.apply event) events
  /-- The open regions are those whose ends are on the stack. -/
  counted : ∀ f run, μ.rest? f = some run → run.shield = run.stack.countP Frame.guards
  /-- No region is closed that is not open. -/
  unsaturated : ∀ f event s frame stack x, μ.strideAt f event = some s →
    s.Hands (frame :: stack) x → frame.guards = true → 0 < s.slice.run.shield

/-- The scopes of a program are balanced.  Wherever a program stands, and whatever comes of its
steps, an exit that reaches its stack finds everything as it was; in particular the exit of every
tree that is evaluated in a machine does so. -/
theorem scopes_are_balanced :
    (∀ run run' : RunState σ, Relation.ReflTransGen (RunState.Onward run.stack) run run' →
      run.stack <:+ run'.stack ∧ (run'.stack = run.stack → run' = { run with next := run'.next })) ∧
    ∀ μ : Moment σ, Reachable μ → ScopesBalanced μ := by
  refine ⟨fun run run' steps => ?_, fun μ reachable => ⟨?_, ?_, ?_⟩⟩
  · have within := (RunState.Within.refl run).steps steps
    exact ⟨within.suffix, within.eq⟩
  · intro f event s node stride evaluates events
    have unreached : ∀ x, ¬ s.Hands s.slice.run.stack x := fun x hands =>
      nomatch evaluates.symm.trans hands.1
    obtain ⟨p, position, inside⟩ := reachable.inside_of_stride stride (.refl s.slice.run) unreached
    exact (reachable.apply event).underWay_or_comesOut position inside events
  · intro f run rest
    obtain ⟨p, position, left⟩ := Option.bind_eq_some_iff.1 rest
    exact (reachable.sound position).balanced run left
  · intro f event s frame stack x stride hands guards
    exact reachable.shield_pos stride hands guards

/-! ## A finalizer that fails in a region -/

/-- A region that holds a failure and a finalizer that fails too. -/
def failingRegion : Node Unit :=
  .uninterruptible (.ensuring (.fail (.fail (.plain "early"))) (.fail (.fail (.plain "late"))))

/-- That region in a span, after some operations of the worker. -/
def failingInSpan (works : Nat) : Moment Unit :=
  (initial { host := () } 10).run
    (.start (.span "load" failingRegion) :: List.replicate works .work)

theorem reachable_failingInSpan (works : Nat) : Reachable (failingInSpan works) :=
  (Reachable.initial _ _).run _

/-- The exit of the region finds the span open and the region closed.  The same region, cut off by
an interrupt before anything in it is evaluated, leaves nothing open either. -/
theorem failing_region_is_left :
    let events : List (Event Unit) := List.replicate 20 .work
    let region : RunState Unit := { next := .eval failingRegion }
    let inSpan : RunState Unit := { region with stack := [.spanEnd], spans := [⟨"load", 0⟩] }
    ((failingInSpan 4).run events).machine.status ⟨1⟩ = .failed ∧
    ComesOut ⟨1⟩ inSpan (failingInSpan 4) events ∧
    ∃ run', Relation.ReflTransGen (RunState.Onward region.stack) region run' ∧
      run' = { region with next := .done .interrupted } := by
  intro events region inSpan
  have failed : ((failingInSpan 4).run events).machine.status ⟨1⟩ = .failed := by decide
  refine ⟨failed, ?_, ?_⟩
  · obtain ⟨s, step, same⟩ : ∃ s, (failingInSpan 3).strideAt ⟨1⟩ .work = some s ∧
        s.slice.run = inSpan := ⟨_, rfl, rfl⟩
    have balanced := scopes_are_balanced.2 _ (reachable_failingInSpan 3)
    have restored := balanced.restored ⟨1⟩ .work s failingRegion step (same ▸ rfl) events
    rw [same, show (failingInSpan 3).apply .work = failingInSpan 4 from rfl] at restored
    refine restored.resolve_left fun underWay => ?_
    have live := underWay.live
    rw [failed] at live
    cases live
  · let opened : RunState Unit :=
      { next := .done .interrupted, stack := [.regionEnd], shield := 1 }
    have entered : region.Onward [] opened := ⟨nofun, (failingInSpan 0).machine, ⟨1⟩, ⟨1⟩, rfl⟩
    have left : opened.Onward [] { region with next := .done .interrupted } :=
      ⟨nofun, (failingInSpan 0).machine, ⟨1⟩, ⟨1⟩, rfl⟩
    have steps := (Relation.ReflTransGen.single entered).tail left
    exact ⟨_, steps, (scopes_are_balanced.1 region _ steps).2 rfl⟩

end Moment

end EffectFibers
