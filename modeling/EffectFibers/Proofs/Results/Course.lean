import EffectFibers.Proofs.InternalDefects
import EffectFibers.Proofs.Meaning.Run
import EffectFibers.Proofs.Waits.Course

/-!
# The course of a program

What is left of a program takes one small step after another, and as long as nobody interrupts its
fiber, what others do in between adds nothing to it.  User code sees the world when it runs, so a
step depends on that as well.  But if the steps lead to one exit whatever user code sees, then
every fiber that has this program left ends with this exit, in every run.

## Main definitions

* `Left.next?` – what is left after one step, if the step starts no fibers and asks nobody.
* `Left.EndsIn` – the steps lead to an exit, whatever user code sees.
* `Moment.Heads` – a fiber whose program leads to an exit.

## Main statements

* `Machine.left_stepRun` – the machine takes these steps.
* `Moment.Reachable.heads_run` – a fiber stays on its course.
-/

namespace EffectFibers

variable {σ : Type}

/-! ## Small steps -/

/-- What is left after a tree is evaluated, if that asks nobody but a timer. -/
def Node.next? (stack : List (Frame σ)) (sight : Sight σ) : Node σ → Option (Left σ)
  | .succeed v => some (.going (.done (.ok v)) stack)
  | .fail cause => some (.going (.done (.error cause)) stack)
  | .sync thunk =>
    let x := match Action.resultAt thunk sight with
      | .ok x => x
      | .error p => Exit.died (.ofPanic p)
    some (.going (.done x) stack)
  | .once _ x => some (.going (.done x) stack)
  | .yield => some (.going (.done (.ok .null)) stack)
  | .sleep d => some (if d.isZero then .going (.done (.ok .null)) stack else .waiting true stack)
  | .flatMap source next => some (.going (.eval source) (.flatMap next :: stack))
  | .recover source handler => some (.going (.eval source) (.recover handler :: stack))
  | .retry source schedule => some (.going (.eval source) (.retry source schedule 0 :: stack))
  | .repeated source schedule number =>
    some (.going (.eval source) (.repeated source schedule number :: stack))
  | .all [] _ => some (.going (.done (.ok (.list []))) stack)
  | _ => none

/-- What is left after an exit is handed to a frame. -/
def Frame.next? (stack : List (Frame σ)) (sight : Sight σ) (x : Exit) : Frame σ → Option (Left σ)
  | .flatMap next =>
    match x with
    | .ok v => some (.going (.ofBuilt (Action.resultAt (next v) sight)) stack)
    | x => some (.going (.done x) stack)
  | .recover handler =>
    match x with
    | .error (.fail φ) => some (.going (.ofBuilt (Action.resultAt (handler φ) sight)) stack)
    | x => some (.going (.done x) stack)
  | .retry source schedule number =>
    match x with
    | .error (.fail φ) =>
      match schedule.decide? number φ.known? with
      | .ok (.again d) =>
        let again := Frame.retry source schedule (Schedule.nextAttempt number) :: stack
        some (if d.isZero then .going (.eval source) again
          else .going (.eval (.sleep d))
            (.flatMap (fun _ => (pure source : Action σ (Node σ))) :: again))
      | .ok .stop => some (.going (.done (.error (.fail φ))) stack)
      | .error p => some (.going (.done (Exit.died (.ofPanic p))) stack)
    | x => some (.going (.done x) stack)
  | .repeated source schedule number =>
    match x with
    | .ok v =>
      let again := Machine.repeatAfter source schedule number v
      some (.going (.ofBuilt (Action.resultAt again sight)) stack)
    | x => some (.going (.done x) stack)
  | _ => none

namespace Left

/-- What is left after one step: a tree is evaluated, or an exit is handed on, or a timer ends a
wait. -/
def next? (sight : Sight σ) : Left σ → Option (Left σ)
  | going (.eval node) stack => node.next? stack sight
  | going (.done x) [] => some (gone x)
  | going (.done x) (frame :: stack) => frame.next? stack sight x
  | waiting true stack => some (going (.done (.ok .null)) stack)
  | _ => none

/-- The steps lead to an exit, whatever user code sees, and there are so many of them. -/
def EndsIn (x : Exit) : Nat → Left σ → Prop
  | 0, l => l = gone x
  | n + 1, l => ∀ sight, ∃ l', l.next? sight = some l' ∧ EndsIn x n l'

end Left

/-! ## The machine takes these steps -/

namespace Machine

variable {m : Machine σ} {f : FiberId} {scope : ScopeId} {run : RunState σ} {l : Left σ}

theorem left_build (code : Action σ (Node σ)) : (m.build run code).control.left run.stack none =
    .going (.ofBuilt (code.resultAt m.sight)) run.stack := by
  have result : (m.perform code).1 = code.resultAt m.sight := rfl
  unfold build
  generalize m.perform code = performed at result ⊢
  obtain ⟨reply, machine⟩ := performed
  obtain rfl := result
  cases code.resultAt m.sight <;> rfl

/-- The machine evaluates a tree in this way, unless it has been evaluated before. -/
theorem left_evalNode {node : Node σ} (next : node.next? run.stack m.sight = some l)
    (fresh : ∀ ticket x, node = .once ticket x →
      (m.evalNode f scope run node).control = .done x) :
    (m.evalNode f scope run node).control.left (m.evalNode f scope run node).run.stack none = l := by
  cases node with
  | sync thunk =>
      rw [Working.evalNode_sync m f scope run thunk]
      exact Option.some.inj next
  | once ticket x =>
      have same : (m.evalNode f scope run (.once ticket x)).run = run := by
        rw [Working.evalNode_once]
      rw [fresh ticket x rfl, same]
      exact Option.some.inj next
  | sleep d =>
      obtain rfl := Option.some.inj next
      simp only [evalNode, evalSleep]
      split <;> rfl
  | all children options =>
      cases children with
      | nil => exact Option.some.inj next
      | cons child children => cases next
  | succeed v => exact Option.some.inj next
  | fail cause => exact Option.some.inj next
  | yield => exact Option.some.inj next
  | flatMap source next' => exact Option.some.inj next
  | recover source handler => exact Option.some.inj next
  | retry source schedule => exact Option.some.inj next
  | repeated source schedule number => exact Option.some.inj next
  | _ => cases next

/-- The machine hands an exit to a frame in this way. -/
theorem left_resumeFrame {frame : Frame σ} {x : Exit}
    (next : frame.next? run.stack m.sight x = some l) :
    (m.resumeFrame f scope run frame x).control.left (m.resumeFrame f scope run frame x).run.stack
      none = l := by
  cases frame with
  | flatMap next' =>
      cases x with
      | ok v =>
          obtain rfl := Option.some.inj next
          exact left_build (next' v)
      | error cause => exact Option.some.inj next
  | recover handler =>
      rcases x with (φ | _ | _) | v
      · obtain rfl := Option.some.inj next
        exact left_build (handler φ)
      all_goals exact Option.some.inj next
  | retry source schedule number =>
      rcases x with (φ | _ | _) | v
      · simp only [Frame.next?] at next
        simp only [resumeFrame, resumeRetry]
        cases decision : schedule.decide? number φ.known? with
        | error p =>
            rw [decision] at next
            exact Option.some.inj next
        | ok what =>
            rw [decision] at next
            cases what with
            | stop => exact Option.some.inj next
            | again d =>
                obtain rfl := Option.some.inj next
                simp only [evalAfter]
                split <;> rfl
      all_goals exact Option.some.inj next
  | repeated source schedule number =>
      cases x with
      | ok v =>
          obtain rfl := Option.some.inj next
          exact left_build (repeatAfter source schedule number v)
      | error cause => exact Option.some.inj next
  | _ => cases next

/-- The machine takes the step of a program in this way, unless it notices an interrupt. -/
theorem left_stepRun (next : (Left.going run.next run.stack).next? m.sight = some l)
    (calm : m.interruptPending f run = false)
    (fresh : ∀ ticket x, run.next = .eval (.once ticket x) →
      (m.stepRun f scope run).control = .done x) :
    (m.stepRun f scope run).control.left (m.stepRun f scope run).run.stack none = l := by
  cases step : run.next with
  | eval node =>
      rw [step] at next
      have evaluates : m.stepRun f scope run = m.evalNode f scope run node := by
        rw [stepRun_eval step, eval, calm, Bool.and_false, if_neg (by simp)]
      rw [evaluates] at fresh ⊢
      exact left_evalNode next fun ticket x same => fresh ticket x (same ▸ step)
  | done x =>
      rw [step] at next
      cases top : run.stack with
      | nil =>
          rw [top] at next
          rw [stepRun_over step top]
          exact Option.some.inj next
      | cons frame stack =>
          rw [top] at next
          rw [stepRun_done step top]
          exact left_resumeFrame next

/-- Only a tree that sleeps leaves something that waits. -/
theorem sleeps_of_waiting {step : Step σ} {stack stack' : List (Frame σ)} {sight : Sight σ}
    {timer : Bool} (next : (Left.going step stack).next? sight = some (.waiting timer stack')) :
    ∃ d, step = .eval (.sleep d) ∧ d.isZero = false := by
  cases step with
  | eval node =>
      cases node with
      | sleep d =>
          refine ⟨d, rfl, ?_⟩
          cases zero : d.isZero with
          | true => simp [Left.next?, Node.next?, zero] at next
          | false => rfl
      | all children options => cases children <;> cases next
      | _ => cases next
  | done x =>
      cases stack with
      | nil => cases next
      | cons frame stack =>
          cases frame with
          | flatMap next' => cases x <;> cases next
          | recover handler => rcases x with (φ | _ | _) | v <;> cases next
          | retry source schedule number =>
              rcases x with (φ | _ | _) | v
              · simp only [Left.next?, Frame.next?] at next
                split at next
                · split at next <;> cases next
                · cases next
                · cases next
              all_goals cases next
          | repeated source schedule number => cases x <;> cases next
          | _ => cases next

/-- A program that waits after such a step has set a timer, and nothing else has happened. -/
theorem timed_stepRun {pending : Pending σ}
    (next : (Left.going run.next run.stack).next? m.sight = some l)
    (calm : m.interruptPending f run = false)
    (fresh : ∀ ticket x, run.next = .eval (.once ticket x) →
      (m.stepRun f scope run).control = .done x)
    (waits : (m.stepRun f scope run).control = .suspend pending) :
    (m.stepRun f scope run).machine.fibers = m.fibers ∧ ∃ w wait, pending.wait? = some w ∧
      (m.stepRun f scope run).machine.waits.get? w = some wait ∧ wait.source = .timer := by
  obtain rfl := left_stepRun next calm fresh
  rw [waits] at next
  obtain ⟨d, step, long⟩ := sleeps_of_waiting next
  have sleeps : m.stepRun f scope run = m.evalSleep f run d := by
    rw [stepRun_eval step, eval, calm, Bool.and_false, if_neg (by simp)]
    rfl
  rw [sleeps, evalSleep, if_neg (by simp [long])] at waits ⊢
  obtain rfl := Control.suspend.inj waits
  exact ⟨rfl, _, _, rfl, Table.get?_push_self _ _, rfl⟩

end Machine

/-! ## Fibers on their course -/

namespace Moment

variable {μ : Moment σ} {f : FiberId} {x : Exit} {event : Event σ} {s : Stride σ} {l : Left σ}
  {holdings : Holdings}

/-- A fiber whose program leads to an exit, in so many steps, or that has got it. -/
inductive Heads (μ : Moment σ) (f : FiberId) (x : Exit) : Nat → Prop
  | going {p l n} (position : μ.position? f = some p) (left_eq : p.left? = some l)
      (ends : l.EndsIn x n) (times : μ.machine.Times p) : Heads μ f x n
  | concluded (ends : ∀ events, (μ.run events).machine.Concluded f x) : Heads μ f x 0

/-- A fiber that begins with a tree is on its course. -/
theorem Begins.heads {node : Node σ} {context : Context Value} {n : Nat}
    (begins : μ.Begins f node context) (ends : (Left.going (.eval node) []).EndsIn x n) :
    μ.Heads f x n :=
  .going begins.position.1 rfl ends (.of_still rfl)

/-- A step of a fiber that is not interrupted is the small step of its program, unless it is the
evaluation of a tree that has been evaluated before. -/
theorem Reachable.left_of_fresh (reachable : Reachable μ) (stride : μ.strideAt f event = some s)
    (fresh : ∀ ticket x, s.slice.run.next = .eval (.once ticket x) → s.result.control = .done x)
    (calm : (μ.apply event).machine.isInterrupted f = false)
    (next : (Left.going s.slice.run.next s.slice.run.stack).next? s.machine.sight = some l) :
    ∃ p, (μ.apply event).position? f = some p ∧ p.left? = some l ∧
      (μ.apply event).machine.Times p := by
  obtain ⟨own, ready, answer, stepped, silent⟩ := reachable.stride stride
  obtain ⟨before, after⟩ := machine_of_stride stride
  have evolves := evolves reachable.isCoherent reachable.tidy event
  have unmarked : s.machine.isInterrupted f = false := by
    have unmarked := Machine.unmarked_before evolves calm
    rwa [before]
  have quiet : s.machine.interruptPending s.slice.fiber s.slice.run = false := by
    rw [own, Machine.interruptPending, unmarked, Bool.and_false]
  have left_eq := Machine.left_stepRun next quiet fresh
  have timed : ∀ pending, s.result.control = .suspend pending → _ := fun _ =>
    Machine.timed_stepRun next quiet fresh
  obtain rfl : answer = none := by
    by_cases waits : ∃ w c, s.result.control = .suspend (.wait w c)
    · -- who sets a timer has no answer before it fires
      obtain ⟨w, c, waits⟩ := waits
      have same : (μ.apply event).machine.fibers = μ.machine.fibers := by
        rw [after, show s.result.machine.fibers = _ from (timed _ waits).1, before]
      have still := answer?_eq (reachable.apply event).isCoherent stepped
      rw [answer?, Machine.fiber?, same] at still
      exact still.symm.trans (answer?_eq reachable.isCoherent ready)
    · exact silent fun w c waits' => waits ⟨w, c, waits'⟩
  refine ⟨_, stepped, congrArg some left_eq, fun pending asks _ => ?_⟩
  rw [after]
  refine (timed pending ?_).2
  show s.result.control = _
  generalize s.result.control = control at asks
  cases control with
  | suspend pending' => rw [Option.some.inj asks]
  | _ => cases asks

/-- Where trees are evaluated once only, every step is a small step. -/
theorem Reachable.left_of_stride (reachable : Reachable μ) (thrifty : μ.Thrifty holdings)
    (stride : μ.strideAt f event = some s)
    (calm : (μ.apply event).machine.isInterrupted f = false)
    (next : (Left.going s.slice.run.next s.slice.run.stack).next? s.machine.sight = some l) :
    ∃ p, (μ.apply event).position? f = some p ∧ p.left? = some l ∧
      (μ.apply event).machine.Times p :=
  reachable.left_of_fresh stride (fun _ _ => reachable.ends_of_once thrifty stride) calm next

/-- Of the program of a fiber that has ended nothing is left. -/
theorem EndedWith.position?_eq (coherent : IsCoherent μ none none) (ended : μ.EndedWith f x) :
    μ.position? f = some .gone := by
  obtain ⟨fiber, row, status, -⟩ := ended
  have gone : fiber.status.isTerminal = true := status ▸ Exit.isTerminal_status x
  have free := (idle_of_terminal coherent row gone .work).1
  rw [position?_of_saved row free, Fiber.position,
    ((shaped_of_isCoherent coherent row).ended gone).1]

/-- A fiber that is unmarked in the end has been so before. -/
theorem Reachable.calm_before (reachable : Reachable μ) {events : List (Event σ)}
    (calm : (μ.run events).machine.isInterrupted f = false) :
    μ.machine.isInterrupted f = false := by
  by_contra marked
  have stays := reachable.stays_marked (by simpa using marked) events
  cases calm.symm.trans stays

/-- A fiber whose program has an exit takes no steps. -/
theorem Reachable.still_of_concluded (reachable : Reachable μ)
    (concluded : μ.machine.Concluded f x) (event : Event σ) : μ.strideAt f event = none := by
  have coherent := reachable.isCoherent
  have free : μ.held ≠ some f := by
    cases concluded with
    | draining row _ waits _ _ _ =>
        exact fun held => by cases (row_of_held coherent held row).2.2.2.symm.trans waits
    | ended row status _ =>
        exact (idle_of_terminal coherent row (status ▸ Exit.isTerminal_status x) event).1
  cases stride : μ.strideAt f event with
  | none => rfl
  | some s =>
      obtain ⟨-, idle, running, own, -⟩ := strideAt_eq_some_iff.1 stride
      exact absurd (by simp [Moment.held, idle, running, own]) free

/-- In an event a fiber that is not interrupted stays on its course, and a step brings it nearer to
the end. -/
theorem Reachable.heads_apply (reachable : Reachable μ) (thrifty : μ.Thrifty holdings)
    {n : Nat} (heads : μ.Heads f x n) (calm : (μ.apply event).machine.isInterrupted f = false) :
    ∃ k, (μ.apply event).Heads f x k ∧
      k + (if (μ.strideAt f event).isSome then 1 else 0) ≤ n := by
  cases heads with
  | concluded ends =>
      rw [reachable.still_of_concluded (ends []) event]
      exact ⟨0, .concluded fun events => ends (event :: events), Nat.le_refl _⟩
  | @going p l _ position left_eq ends times =>
      cases stride : μ.strideAt f event with
      | some s =>
          obtain ⟨-, ready, -⟩ := reachable.stride stride
          obtain rfl := Option.some.inj (ready.symm.trans position)
          obtain rfl := Option.some.inj left_eq
          cases n with
          | zero => cases ends
          | succ n =>
              obtain ⟨l, next, ends⟩ := ends s.machine.sight
              obtain ⟨p, position, left_eq, times⟩ :=
                reachable.left_of_stride thrifty stride calm next
              exact ⟨n, .going position left_eq ends times, Nat.le_refl _⟩
      | none =>
          obtain ⟨p', position', moves⟩ := reachable.moves position stride
          have evolves := evolves reachable.isCoherent reachable.tidy event
          obtain ⟨run, rest⟩ : ∃ run, p.run? = some run := by
            cases p with
            | gone => cases left_eq
            | _ => exact ⟨_, rfl⟩
          rcases moves.left_cases evolves calm rest left_eq times with
            ⟨y, rfl, rfl⟩ | ⟨run', -, -, times', ⟨same, -⟩ | ⟨timer, stack, y, rfl, goes, rightful, -⟩⟩
          · -- the program has its exit
            obtain ⟨rfl, slice, taken, rfl⟩ := ending_of_gone position position'
            obtain rfl := Option.some.inj left_eq
            cases n with
            | zero =>
                obtain rfl := Left.gone.inj ends
                exact ⟨0, .concluded (reachable.concluded taken), Nat.le_refl _⟩
            | succ n =>
                obtain ⟨_, next, -⟩ := ends μ.machine.sight
                cases next
          · exact ⟨n, .going position' same ends times', Nat.le_refl _⟩
          · cases n with
            | zero => cases ends
            | succ n =>
                obtain ⟨l, next, ends⟩ := ends μ.machine.sight
                cases timer with
                | false => cases next
                | true =>
                    obtain rfl := rightful rfl
                    obtain rfl := Option.some.inj next
                    exact ⟨n, .going position' goes ends times', Nat.le_succ n⟩

/-- In a run in which nobody interrupts it, a fiber stays on its course, and it takes no more steps
than there are on it. -/
theorem Reachable.heads_run (reachable : Reachable μ) (thrifty : μ.Thrifty holdings) {n : Nat}
    (heads : μ.Heads f x n) {events : List (Event σ)}
    (reusable : ∀ event ∈ events, event.Reusable)
    (calm : (μ.run events).machine.isInterrupted f = false) :
    ∃ k, (μ.run events).Heads f x k ∧ k + μ.steps f events ≤ n := by
  induction events generalizing μ holdings n with
  | nil => exact ⟨n, heads, Nat.le_refl _⟩
  | cons event events ih =>
      obtain ⟨later, thrifty'⟩ := reachable.thrifty_apply thrifty (reusable event List.mem_cons_self)
      obtain ⟨k, heads', cost⟩ := reachable.heads_apply thrifty heads
        ((reachable.apply event).calm_before calm)
      obtain ⟨k', heads'', cost'⟩ := ih (reachable.apply event) thrifty' heads'
        (fun event' listed => reusable event' (List.mem_cons_of_mem _ listed)) calm
      refine ⟨k', heads'', ?_⟩
      rw [steps]
      omega

/-- A fiber on its course ends with no other exit. -/
theorem Heads.exit_eq {n : Nat} {y : Exit} (coherent : IsCoherent μ none none)
    (heads : μ.Heads f x n) (ended : μ.EndedWith f y) : y = x := by
  cases heads with
  | going position left_eq _ _ =>
      obtain rfl := Option.some.inj (position.symm.trans (ended.position?_eq coherent))
      cases left_eq
  | concluded ends =>
      obtain ⟨fiber, row, status, once⟩ := ended
      have gone : fiber.status.isTerminal = true := status ▸ Exit.isTerminal_status y
      cases ends [] with
      | draining row' live _ _ _ _ =>
          obtain rfl := Option.some.inj (row.symm.trans row')
          cases live.symm.trans gone
      | ended _ _ once' => exact List.singleton_inj.1 (once.symm.trans once')

/-- A fiber sleeps, and a timer is to end its wait. -/
def SleepsOnTimer (μ : Moment σ) (f : FiberId) : Prop :=
  ∃ fiber w canceler wait, μ.machine.fiber? f = some fiber ∧
    fiber.pending = some (.wait w canceler) ∧ μ.machine.waits.get? w = some wait ∧
    wait.source = .timer ∧ wait.claimed = false

/-- A fiber that sleeps until a timer ends its wait. -/
theorem Reachable.sleepsOnTimer (reachable : Reachable μ) {run : RunState σ} {pending : Pending σ}
    (position : μ.position? f = some (.asleep run pending)) (timed : pending.timed = true)
    (times : μ.machine.Times (.asleep run pending)) : μ.SleepsOnTimer f := by
  obtain ⟨w, wait, waits, found, source⟩ := times pending rfl timed
  obtain ⟨-, fiber, row, -, -, sleeps⟩ := row_of_asleep position
  cases pending with
  | group g => cases waits
  | wait v canceler =>
      obtain rfl := Option.some.inj waits
      obtain ⟨wait', found', -, free⟩ := reachable.undecided row sleeps
      obtain rfl := Option.some.inj (found.symm.trans found')
      exact ⟨fiber, _, canceler, wait, row, sleeps, found, source, free⟩

/-- A fiber on its course is at work, or it sleeps on a timer, or it has its exit. -/
theorem Heads.onward {n : Nat} (reachable : Reachable μ) (heads : μ.Heads f x n) :
    μ.AtWork f ∨ μ.SleepsOnTimer f ∨ μ.machine.Concluded f x := by
  cases heads with
  | concluded ends => exact .inr (.inr (ends []))
  | @going p l n position left_eq ends times =>
      -- a step has been taken, or the fiber sleeps, or it has something to do
      cases p with
      | stepped run control answer =>
          obtain ⟨_, slice, -, taken, own, -⟩ := taken_of_stepped position
          exact .inl (.inl (by simp [held, taken, own]))
      | asleep run pending =>
          obtain rfl := Option.some.inj left_eq
          refine .inr (.inl (reachable.sleepsOnTimer position ?_ times))
          cases n with
          | zero => cases ends
          | succ n =>
              obtain ⟨_, next, -⟩ := ends μ.machine.sight
              by_contra other
              rw [Bool.not_eq_true] at other
              rw [other] at next
              cases next
      | ready run => exact .inl (atWork_of_going reachable.isCoherent position rfl)
      | answered run y => exact .inl (atWork_of_going reachable.isCoherent position rfl)
      | gone => cases left_eq

end Moment

end EffectFibers
