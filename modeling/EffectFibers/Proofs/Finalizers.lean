import EffectFibers.Proofs.Progress.Strides

/-!
# Finalizers run exactly once

When a source is entered over a finalizer, the finalizer waits on the stack below it.  Nothing but
an exit of the source takes it from there, and nothing comes between this exit and the start of the
finalizer: the region is open before the finalizer is evaluated, so no interrupt takes its place.
The finalizer again leaves only with its own exit, and its fiber cannot end before that.

## Main definitions

* `Moment.FinalizerCourse` – how far a finalizer has got in a run.

## Main statements

* `Moment.Reachable.finalizer_course` – the course of a finalizer from the evaluation of its node
  on.
* `Moment.Reachable.finalizer_runs_once` – the same, for every node that is evaluated or about to
  be.
-/

namespace EffectFibers

variable {σ : Type}

namespace Moment

variable {μ : Moment σ} {f : FiberId} {event : Event σ} {s : Stride σ} {stack : List (Frame σ)}
  {source finalizer : Node σ}

/-- In a run, a tree is evaluated first and then stays under way on a stack, and interrupts are held
back all the time. -/
structure RunsInRegion (f : FiberId) (node : Node σ) (stack : List (Frame σ)) (μ : Moment σ)
    (events : List (Event σ)) : Prop where
  first : ∀ s ∈ (strides f μ events).head?, s.Evaluates node stack
  under : Steady f stack μ events
  shielded : ∀ before, before <+: events → ∃ run, (μ.run before).rest? f = some run ∧ 0 < run.shield

/-- What is handed on after a finalizer: the exit of the source, but the exit of a finalizer that
has failed takes the place of a value. -/
def outcome : Exit → Exit → Exit
  | .ok _, .error cause => .error cause
  | source, _ => source

/-- How far a finalizer has got in a run that begins where its source is entered on a stack. -/
inductive FinalizerCourse (f : FiberId) (finalizer : Node σ) (stack : List (Frame σ))
    (μ : Moment σ) :
    List (Event σ) → Prop
  /-- No exit of the source is known, and the fiber lives. -/
  | source {events} (under : Steady f (.ensuring finalizer :: stack) μ events)
    (live : ((μ.run events).machine.status f).isTerminal = false) :
    FinalizerCourse f finalizer stack μ events
  /-- The source has its exit, the finalizer was started once, and the fiber lives. -/
  | running {before during s x} (under : Steady f (.ensuring finalizer :: stack) μ before)
    (step : (μ.run before).strideAt f .work = some s)
    (ended : s.Hands (.ensuring finalizer :: stack) x)
    (runs : RunsInRegion f finalizer (.finalizing x :: stack) ((μ.run before).apply .work) during)
    (live : ((μ.run (before ++ .work :: during)).machine.status f).isTerminal = false) :
    FinalizerCourse f finalizer stack μ (before ++ .work :: during)
  /-- The finalizer was started once and has its exit, and the outcome is handed on. -/
  | passed {before during after s x t y run}
    (under : Steady f (.ensuring finalizer :: stack) μ before)
    (step : (μ.run before).strideAt f .work = some s)
    (ended : s.Hands (.ensuring finalizer :: stack) x)
    (runs : RunsInRegion f finalizer (.finalizing x :: stack) ((μ.run before).apply .work) during)
    (started : strides f ((μ.run before).apply .work) during ≠ [])
    (step' : (((μ.run before).apply .work).run during).strideAt f .work = some t)
    (ended' : t.Hands (.finalizing x :: stack) y)
    (hands : ((((μ.run before).apply .work).run during).apply .work).Next f run)
    (outcome_eq : run.next = .done (outcome x y)) (below : run.stack = stack) :
    FinalizerCourse f finalizer stack μ (before ++ .work :: (during ++ .work :: after))

/-! ## The steps -/

theorem afterFinalizer_eq_outcome (x y : Exit) : x.afterFinalizer y = outcome x y := by
  cases x <;> cases y <;> rfl

/-- The step that enters a source. -/
theorem result_of_ensuring (evaluates : s.slice.run.next = .eval (.ensuring source finalizer)) :
    s.result = { control := .next (.eval source)
                 run := s.slice.run.push (.ensuring finalizer)
                 machine := s.machine } := by
  rw [Stride.result, Machine.stepRun_eval evaluates]
  rfl

/-- The step that starts a finalizer. -/
theorem result_of_hands_ensuring {x : Exit} (hands : s.Hands (.ensuring finalizer :: stack) x) :
    s.result = { control := .next (.eval finalizer)
                 run := ({ s.slice.run with stack } : RunState σ).shielded.push (.finalizing x)
                 machine := s.machine } := by
  rw [Stride.result, Machine.stepRun_done hands.1 hands.2]
  rfl

/-- The step that ends a finalizer. -/
theorem result_of_hands_finalizing {x y : Exit} (hands : s.Hands (.finalizing x :: stack) y) :
    s.result.control = .next (.done (outcome x y)) ∧ s.result.run.stack = stack := by
  rw [Stride.result, Machine.stepRun_done hands.1 hands.2, ← afterFinalizer_eq_outcome]
  exact ⟨rfl, rfl⟩

/-! ## The course -/

/-- A finalizer that was started runs in its region. -/
theorem Reachable.runs_in_region (reachable : Reachable μ) {run : RunState σ} {x : Exit}
    (next : μ.Next f run) (evaluates : run.next = .eval finalizer) (shielded : 0 < run.shield)
    (top : run.stack = .finalizing x :: stack) {events : List (Event σ)}
    (under : Steady f (.finalizing x :: stack) μ events) :
    RunsInRegion f finalizer (.finalizing x :: stack) μ events := by
  refine ⟨fun s first => ?_, under, fun before short => ?_⟩
  · have same := reachable.firm_first next (fun _ _ => .inr shielded) events s first
    exact ⟨same ▸ evaluates, same ▸ top⟩
  · exact (under.above before short).shielded (reachable.run before) rfl

/-- The course of a finalizer from the evaluation of its node on. -/
theorem Reachable.finalizer_course (reachable : Reachable μ) (step : μ.strideAt f event = some s)
    (evaluates : s.slice.run.next = .eval (.ensuring source finalizer)) (events : List (Event σ)) :
    FinalizerCourse f finalizer s.slice.run.stack (μ.apply event) events := by
  have entered := reachable.next_of_stride step
    (congrArg StepResult.control (result_of_ensuring evaluates))
  have reachable' := reachable.apply event
  rw [result_of_ensuring evaluates] at entered
  have above : (μ.apply event).Above f (.ensuring finalizer :: s.slice.run.stack) :=
    entered.above (List.suffix_refl _)
  rcases reachable'.steady_or_reached above events with
    under | ⟨before, later, t, x, rfl, under, step', hands⟩
  · exact .source under (reachable'.live_of_steady under)
  -- the source has its exit
  have reachable₂ := reachable'.run before
  have started := reachable₂.next_of_stride step'
    (congrArg StepResult.control (result_of_hands_ensuring hands))
  rw [result_of_hands_ensuring hands] at started
  have above' : (((μ.apply event).run before).apply .work).Above f
      (.finalizing x :: s.slice.run.stack) := started.above (List.suffix_refl _)
  have runs : ∀ {events}, Steady f (.finalizing x :: s.slice.run.stack)
      (((μ.apply event).run before).apply .work) events → RunsInRegion f finalizer
      (.finalizing x :: s.slice.run.stack) (((μ.apply event).run before).apply .work) events :=
    fun under => (reachable₂.apply .work).runs_in_region started rfl (Nat.succ_pos _) rfl under
  rcases (reachable₂.apply .work).steady_or_reached above' later with
    under' | ⟨during, after, u, y, rfl, under', step'', hands'⟩
  · refine .running under step' hands (runs under') ?_
    rw [run_append, run_cons]
    exact (reachable₂.apply .work).live_of_steady under'
  · -- the finalizer has its exit, and it was evaluated before
    have passes := result_of_hands_finalizing hands'
    have handed := ((reachable₂.apply .work).run during).next_of_stride step'' passes.1
    refine .passed under step' hands (runs under')
      (fun none => ?_) step'' hands' handed rfl passes.2
    have first := (reachable₂.apply .work).firm_first started (fun _ _ => .inr (Nat.succ_pos _))
      (during ++ [.work]) u
    rw [strides_append, none, strides, step''] at first
    have same := congrArg RunState.next (first rfl)
    rw [hands'.1] at same
    cases same

/-- Every evaluation of a node with a finalizer leads to one start of the finalizer, and the fiber
does not end before the finalizer has; and a node with a finalizer that comes next is the next thing
that is evaluated, whatever happens to the fiber before. -/
theorem Reachable.finalizer_runs_once (reachable : Reachable μ) :
    (∀ f event s source finalizer, μ.strideAt f event = some s →
      s.slice.run.next = .eval (.ensuring source finalizer) → ∀ events,
      FinalizerCourse f finalizer s.slice.run.stack (μ.apply event) events ∧
      ∀ t ∈ (strides f (μ.apply event) events).head?,
        t.Evaluates source (.ensuring finalizer :: s.slice.run.stack) ∨
        t.Hands (.ensuring finalizer :: s.slice.run.stack) .interrupted) ∧
    ∀ f run source finalizer, μ.Next f run → run.next = .eval (.ensuring source finalizer) →
      ∀ events : List (Event σ),
      strides f μ events = [] ∧ ((μ.run events).machine.status f).isTerminal = false ∨
      ∃ (before after : List (Event σ)) (s : Stride σ), events = before ++ .work :: after ∧
        strides f μ before = [] ∧ (μ.run before).strideAt f .work = some s ∧ s.slice.run = run := by
  refine ⟨fun f event s source finalizer step evaluates events => ⟨?_, fun t first => ?_⟩,
    fun f run source finalizer next evaluates events => ?_⟩
  · exact reachable.finalizer_course step evaluates events
  · have entered := reachable.next_of_stride step
      (congrArg StepResult.control (result_of_ensuring evaluates))
    rw [result_of_ensuring evaluates] at entered
    rcases (reachable.apply event).next_run entered events t first with same | same
    · exact .inl ⟨congrArg RunState.next same, congrArg RunState.stack same⟩
    · exact .inr ⟨congrArg RunState.next same, congrArg RunState.stack same⟩
  · have firm : run.Firm := by
      intro node here
      rw [evaluates] at here
      obtain rfl := Step.eval.inj here
      exact .inl rfl
    rcases reachable.firm_run next firm events with
      ⟨none, next'⟩ | ⟨before, after, s, split, none, -, step, same⟩
    · exact .inl ⟨none, next'.live (reachable.run events).isCoherent⟩
    · exact .inr ⟨before, after, s, split, none, step, same⟩

/-! ## A source that is interrupted -/

/-- A program that waits for ever, over a finalizer that fails. -/
def waitsForEver : Node Unit :=
  .ensuring (.async fun _ => (pure none : Action Unit (Option (Cleanup Unit))))
    (.fail (.fail (.plain "late")))

/-- That program after some operations of the worker. -/
def waitingForEver (works : Nat) : Moment Unit :=
  (initial { host := () } 10).run (.start waitsForEver :: List.replicate works .work)

/-- The wait is interrupted, the finalizer runs, and then the fiber ends with the interrupt. -/
def interrupting : List (Event Unit) :=
  [.work, .work, .work, .request (.interrupt ⟨1⟩)] ++ List.replicate 9 .work

theorem reachable_waitingForEver (works : Nat) : Reachable (waitingForEver works) :=
  (Reachable.initial _ _).run _

theorem interrupted_source_is_finalized :
    (((waitingForEver 2).run interrupting).machine.status ⟨1⟩) = .interrupted ∧
    FinalizerCourse ⟨1⟩ (.fail (.fail (.plain "late"))) [] (waitingForEver 2) interrupting ∧
    ∃ before after s, List.replicate 2 .work = before ++ .work :: after ∧
      strides ⟨1⟩ (waitingForEver 0) before = [] ∧
      ((waitingForEver 0).run before).strideAt ⟨1⟩ .work = some s ∧
      s.slice.run = { next := .eval waitsForEver } := by
  refine ⟨by decide, ?_, ?_⟩
  · exact ((reachable_waitingForEver 1).finalizer_runs_once.1 ⟨1⟩ .work _ _ _ rfl rfl _).1
  · have next : (waitingForEver 0).Next ⟨1⟩ { next := .eval waitsForEver } := .ready rfl
    rcases (reachable_waitingForEver 0).finalizer_runs_once.2 ⟨1⟩ _ _ _ next rfl
      (List.replicate 2 .work) with ⟨none, -⟩ | taken
    · cases none
    · exact taken

end Moment

end EffectFibers
