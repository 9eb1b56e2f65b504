import EffectFibers.Proofs.Results.Course

/-!
# What is left for a fiber that is not interrupted

As long as nobody interrupts a fiber, only two things happen to what is left of its program: the
fiber takes a step, or an answer ends its wait.  So a run is cut at the next step of the fiber, or
at its next answer; up to there, nothing of its program changes, and after it, it is known what is
left.

## Main definitions

* `Moment.Faces` – what is left of the program of a fiber.
* `Moment.OnItsWay` – a fiber that does not wait for others.

## Main statements

* `Moment.Reachable.faces_apply` – one event.
* `Moment.Reachable.stays_or_steps` – a fiber with something to do, in a run.
* `Moment.Reachable.stays_or_hears` – a fiber that waits, in a run.
-/

namespace EffectFibers

variable {σ : Type}

namespace Moment

variable {μ : Moment σ} {f : FiberId} {event : Event σ} {events : List (Event σ)} {l : Left σ}
  {step : Step σ} {stack : List (Frame σ)} {timer : Bool} {s : Stride σ} {x : Exit}

/-- What is left of the program of a fiber; if it waits for a timer, there is one. -/
def Faces (μ : Moment σ) (f : FiberId) (l : Left σ) : Prop :=
  ∃ p, μ.position? f = some p ∧ p.left? = some l ∧ μ.machine.Times p

/-- A fiber has a next step, and it is not interrupted when it takes it. -/
structure Steps (μ : Moment σ) (f : FiberId) (step : Step σ) (stack : List (Frame σ))
    (s : Stride σ) : Prop where
  stride : μ.strideAt f .work = some s
  next : s.slice.run.next = step
  stack : s.slice.run.stack = stack
  calm : s.machine.interruptPending f s.slice.run = false

theorem Begins.faces {node : Node σ} {context : Context Value} (begins : μ.Begins f node context) :
    μ.Faces f (.going (.eval node) []) :=
  ⟨_, begins.position.1, rfl, .of_still rfl⟩

/-- A fiber that is on its course. -/
theorem Faces.heads {n : Nat} (faces : μ.Faces f l) (ends : l.EndsIn x n) : μ.Heads f x n := by
  obtain ⟨p, position, left_eq, times⟩ := faces
  exact .going position left_eq ends times

/-- A fiber with something left to do has not ended. -/
theorem Faces.live (coherent : IsCoherent μ none none) (faces : μ.Faces f l) :
    (μ.machine.status f).isTerminal = false := by
  obtain ⟨p, position, left_eq, -⟩ := faces
  obtain ⟨run, rest⟩ : ∃ run, p.run? = some run := by
    cases p with
    | gone => cases left_eq
    | _ => exact ⟨_, rfl⟩
  exact live_of_rest? coherent ((rest?_of_position position).trans rest)

/-- A fiber lives, and it is at work or sleeps on a timer. -/
structure OnItsWay (μ : Moment σ) (f : FiberId) : Prop where
  live : (μ.machine.status f).isTerminal = false
  onward : μ.AtWork f ∨ μ.SleepsOnTimer f

/-- A fiber with something to do is at work. -/
theorem Faces.onItsWay (coherent : IsCoherent μ none none) (faces : μ.Faces f (.going step stack)) :
    μ.OnItsWay f := by
  refine ⟨faces.live coherent, .inl ?_⟩
  obtain ⟨p, position, left_eq, -⟩ := faces
  exact atWork_of_going coherent position left_eq

/-- A fiber that waits for a timer is on its way. -/
theorem Faces.onItsWay_of_timer (reachable : Reachable μ)
    (faces : μ.Faces f (.waiting true stack)) : μ.OnItsWay f := by
  refine ⟨faces.live reachable.isCoherent, ?_⟩
  obtain ⟨p, position, left_eq, times⟩ := faces
  cases p with
  | stepped run control answer =>
      obtain ⟨_, slice, -, taken, own, -⟩ := taken_of_stepped position
      exact .inl (.inl (by simp [held, taken, own]))
  | asleep run pending =>
      obtain ⟨timed, -⟩ := Left.waiting.inj (Option.some.inj left_eq)
      exact .inr (reachable.sleepsOnTimer position timed times)
  | gone => cases left_eq
  | ready run => cases left_eq
  | answered run y => cases left_eq

/-- A fiber on its course has its exit, or it is on its way. -/
theorem Heads.onItsWay {n : Nat} (reachable : Reachable μ) (heads : μ.Heads f x n) :
    μ.machine.Concluded f x ∨ μ.OnItsWay f := by
  have onward := heads.onward reachable
  cases heads with
  | concluded ends => exact .inl (ends [])
  | going position left_eq ends times =>
      have live := Faces.live reachable.isCoherent ⟨_, position, left_eq, times⟩
      rcases onward with works | sleeps | concluded
      · exact .inr ⟨live, .inl works⟩
      · exact .inr ⟨live, .inr sleeps⟩
      · exact .inl concluded

/-- The stack of a fiber. -/
theorem Faces.above (faces : μ.Faces f (.going step stack)) : μ.Above f stack := by
  obtain ⟨p, position, left_eq, -⟩ := faces
  have rest := rest?_of_position position
  cases p with
  | gone => cases left_eq
  | asleep run pending => cases left_eq
  | ready run =>
      obtain ⟨-, rfl⟩ := Left.going.inj (Option.some.inj left_eq)
      exact ⟨run, rest, List.suffix_refl _⟩
  | answered run y =>
      obtain ⟨-, rfl⟩ := Left.going.inj (Option.some.inj left_eq)
      exact ⟨run, rest, List.suffix_refl _⟩
  | stepped run control answer =>
      have same : control.left run.stack answer = .going step stack := Option.some.inj left_eq
      obtain rfl : run.stack = stack := by
        cases answer with
        | some y => exact (Left.going.inj same).2
        | none => cases control <;> simp_all [Control.left]
      exact ⟨run, rest, List.suffix_refl _⟩

/-! ## One event -/

/-- A step that waits for others says so. -/
theorem Reachable.faces_of_group (reachable : Reachable μ) {g : GroupId}
    (stride : μ.strideAt f event = some s) (waits : s.result.control = .suspend (.group g)) :
    (μ.apply event).Faces f (.waiting false s.result.run.stack) := by
  obtain ⟨-, -, answer, stepped, silent⟩ := reachable.stride stride
  obtain rfl := silent (by simp [waits])
  rw [waits] at stepped
  refine ⟨_, stepped, rfl, fun pending asks timed => ?_⟩
  obtain rfl := Option.some.inj asks
  cases timed

/-- A small step says what is left. -/
theorem Reachable.faces_of_steps {holdings : Holdings} (reachable : Reachable μ)
    (thrifty : μ.Thrifty holdings) (steps : μ.Steps f step stack s)
    (calm : (μ.apply .work).machine.isInterrupted f = false)
    (next : (Left.going step stack).next? s.machine.sight = some l) :
    (μ.apply .work).Faces f l := by
  obtain ⟨stride, rfl, rfl, -⟩ := steps
  exact reachable.left_of_stride thrifty stride calm next

/-- As long as nobody interrupts a fiber, it takes its next step, or its wait is answered, or its
program is over, or what is left stays the same. -/
theorem Reachable.faces_apply (reachable : Reachable μ) (faces : μ.Faces f l)
    (calm : (μ.apply event).machine.isInterrupted f = false) :
    (event = .work ∧ ∃ step stack s, l = .going step stack ∧ μ.Steps f step stack s) ∨
    μ.strideAt f event = none ∧ ((μ.apply event).Faces f l ∨
      (∃ timer stack x, l = .waiting timer stack ∧ (μ.apply event).answer? f = some x ∧
        (timer = true → x = .ok .null) ∧ (μ.apply event).Faces f (.going (.done x) stack)) ∨
      ∃ x, l = .gone x ∧ ∀ later, ((μ.apply event).run later).machine.Concluded f x) := by
  obtain ⟨p, position, left_eq, times⟩ := faces
  have evolves := evolves reachable.isCoherent reachable.tidy event
  cases stride : μ.strideAt f event with
  | some s =>
      obtain ⟨own, ready, -⟩ := reachable.stride stride
      obtain rfl := Option.some.inj (ready.symm.trans position)
      obtain rfl := Option.some.inj left_eq
      obtain rfl := (strideAt_eq_some_iff.1 stride).1
      refine .inl ⟨rfl, _, _, s, rfl, stride, rfl, rfl, ?_⟩
      have unmarked := Machine.unmarked_before evolves calm
      obtain ⟨before, -⟩ := machine_of_stride stride
      have marks : s.machine.isInterrupted f = μ.machine.isInterrupted f := by
        rw [before]
        rfl
      rw [Machine.interruptPending, marks, unmarked, Bool.and_false]
  | none =>
      refine .inr ⟨rfl, ?_⟩
      obtain ⟨p', position', moves⟩ := reachable.moves position stride
      obtain ⟨run, rest⟩ : ∃ run, p.run? = some run := by
        cases p with
        | gone => cases left_eq
        | _ => exact ⟨_, rfl⟩
      rcases moves.left_cases evolves calm rest left_eq times with
        ⟨y, rfl, rfl⟩ | ⟨run', -, -, times', ⟨same, -⟩ | ⟨timer, stack, y, rfl, goes, rightful, -, hears⟩⟩
      · obtain ⟨rfl, slice, taken, rfl⟩ := ending_of_gone position position'
        obtain rfl := Option.some.inj left_eq
        exact .inr (.inr ⟨y, rfl, reachable.concluded taken⟩)
      · exact .inl ⟨p', position', same, times'⟩
      · have answered := answer?_eq (reachable.apply event).isCoherent position'
        exact .inr (.inl ⟨timer, stack, y, rfl, answered.trans hears, rightful, p', position', goes,
          times'⟩)

/-! ## Runs -/

/-- A fiber with something to do has it left until it takes its next step. -/
theorem Reachable.stays_or_steps (reachable : Reachable μ) (faces : μ.Faces f (.going step stack))
    (calm : (μ.run events).machine.isInterrupted f = false) :
    strides f μ events = [] ∧ (μ.run events).Faces f (.going step stack) ∨
      ∃ (before after : List (Event σ)) (s : Stride σ), events = before ++ .work :: after ∧
        strides f μ before = [] ∧ (μ.run before).Steps f step stack s := by
  induction events generalizing μ with
  | nil => exact .inl ⟨rfl, faces⟩
  | cons event events ih =>
      rcases reachable.faces_apply faces ((reachable.apply event).calm_before calm) with
        ⟨rfl, step', stack', s, same, steps⟩ | ⟨still, same | ⟨_, _, _, waits, -⟩ | ⟨_, ended, -⟩⟩
      · obtain ⟨rfl, rfl⟩ := Left.going.inj same
        exact .inr ⟨[], events, s, rfl, rfl, steps⟩
      · rcases ih (reachable.apply event) same calm with
          ⟨none, faces'⟩ | ⟨before, after, s, rfl, none, steps⟩
        · exact .inl ⟨by simp [strides, still, none], faces'⟩
        · exact .inr ⟨event :: before, after, s, rfl, by simp [strides, still, none], steps⟩
      · cases waits
      · cases ended

/-- A fiber that waits does so until it gets an answer. -/
theorem Reachable.stays_or_hears (reachable : Reachable μ) (faces : μ.Faces f (.waiting timer stack))
    (calm : (μ.run events).machine.isInterrupted f = false) :
    strides f μ events = [] ∧ (μ.run events).Faces f (.waiting timer stack) ∨
      ∃ (before after : List (Event σ)) (x : Exit), events = before ++ after ∧
        strides f μ before = [] ∧ (timer = true → x = .ok .null) ∧
        (μ.run before).answer? f = some x ∧ (μ.run before).Faces f (.going (.done x) stack) := by
  induction events generalizing μ with
  | nil => exact .inl ⟨rfl, faces⟩
  | cons event events ih =>
      rcases reachable.faces_apply faces ((reachable.apply event).calm_before calm) with
        ⟨-, _, _, _, going, -⟩ | ⟨still, same | ⟨timer', stack', x, waits, hears⟩ | ⟨_, ended, -⟩⟩
      · cases going
      · rcases ih (reachable.apply event) same calm with
          ⟨none, faces'⟩ | ⟨before, after, x, rfl, none, hears⟩
        · exact .inl ⟨by simp [strides, still, none], faces'⟩
        · exact .inr ⟨event :: before, after, x, rfl, by simp [strides, still, none], hears⟩
      · obtain ⟨rfl, rfl⟩ := Left.waiting.inj waits
        obtain ⟨answered, rightful, faces'⟩ := hears
        exact .inr ⟨[event], events, x, rfl, by simp [strides, still], rightful, answered, faces'⟩
      · cases ended

/-- While a fiber waits, it has no answer. -/
theorem Faces.unanswered (coherent : IsCoherent μ none none)
    (faces : μ.Faces f (.waiting timer stack)) : μ.answer? f = none := by
  obtain ⟨p, position, left_eq, -⟩ := faces
  rw [answer?_eq coherent position]
  cases p with
  | stepped run control answer =>
      cases answer with
      | none => rfl
      | some y => cases left_eq
  | answered run y => cases left_eq
  | _ => rfl

/-- The number of steps is the number of strides. -/
theorem steps_eq (f : FiberId) (events : List (Event σ)) :
    μ.steps f events = (strides f μ events).length := by
  induction events generalizing μ with
  | nil => rfl
  | cons event events ih =>
      rw [steps, strides, List.length_append, ih]
      cases μ.strideAt f event <;> rfl

end Moment

end EffectFibers
