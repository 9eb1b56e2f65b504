import EffectFibers.Proofs.Progress.Strides

/-!
# Budgets

A slice counts its steps down from the step budget of the machine.  As long as there is budget
left, a step is followed by the one that it has asked for.  The step that uses up the budget sends
its fiber to the back of the queue, and the next step begins a new slice with a full budget.  Only
there a marked fiber may find an interrupt in the place of what its last step has asked for.

Whatever happens in between, the last step of a marked fiber settles how its next one begins.  So
the steps of such a fiber that go on by themselves form a chain, each of them with a known place in
its slice, and a stretch of them passes the end of a slice at least once in every budget.

## Main definitions

* `Stride.isLast` – the step uses up the budget of its slice.
* `Slice.onward` – how a marked fiber goes on after a step.
* `Moment.Due` – how the next step of a fiber will begin.

## Main statements

* `Moment.Reachable.due_apply` – what is due stays due until the step is taken.
* `Moment.Reachable.onward` – how the next step of a marked fiber begins.
* `Moment.Reachable.length_lt` – a stretch of steps passes the end of a slice in every budget.
-/

namespace EffectFibers

variable {σ : Type}

/-- The step uses up the budget of its slice. -/
def Stride.isLast (s : Stride σ) : Bool := s.slice.budget - 1 == 0

/-- What a marked fiber makes of the rest of its program at the end of a slice. -/
def RunState.noticed (run : RunState σ) : RunState σ :=
  match run.next with
  | .eval node =>
    if run.shield = 0 ∧ node.isGuard = false then { run with next := .done .interrupted } else run
  | .done _ => run

/-- How a marked fiber goes on after a step that asks for another one. -/
def Slice.onward (full : Nat) (slice : Slice σ) (step : Step σ) : Slice σ :=
  let run := { slice.run with next := step }
  if slice.budget - 1 = 0 then { slice with run := run.noticed, budget := full }
  else { slice with run, budget := slice.budget - 1 }

theorem Slice.onward_fiber (full : Nat) (slice : Slice σ) (step : Step σ) :
    (slice.onward full step).fiber = slice.fiber := by
  unfold onward
  split <;> rfl

theorem Machine.observeAtRequeue_of_marked {m : Machine σ} {f : FiberId}
    (marked : m.isInterrupted f = true) (run : RunState σ) :
    m.observeAtRequeue f run = run.noticed := by
  unfold observeAtRequeue RunState.noticed
  cases run.next with
  | done x => rfl
  | eval node => simp [interruptPending, marked]

namespace Moment

variable {μ : Moment σ} {f : FiberId} {event : Event σ} {events : List (Event σ)} {slice : Slice σ}

/-- How the next step of a fiber will begin, given that the fiber is marked. -/
inductive Due (μ : Moment σ) (slice : Slice σ) : Prop
  | queued (position : μ.position? slice.fiber = some (.ready slice.run))
    (free : μ.held ≠ some slice.fiber) (full : slice.budget = μ.machine.stepBudget)
  | begun (free : μ.taken = none) (running : μ.machine.running = some slice)
  | stepped {last step} (taken : μ.taken = some (last, .next step))
    (onward : slice = last.onward μ.machine.stepBudget step)

/-! ## Until the next step -/

/-- What happens outside the worker leaves the worker alone. -/
theorem Reachable.aside (reachable : Reachable μ) (outside : event ≠ .work) :
    (μ.apply event).taken = μ.taken ∧ (μ.apply event).machine.running = μ.machine.running := by
  have evolves := evolves reachable.isCoherent reachable.tidy event
  have nobody : μ.actor event = none := by
    cases event with
    | work => exact absurd rfl outside
    | _ => rfl
  rw [nobody] at evolves
  refine ⟨?_, evolves.running⟩
  cases event with
  | work => exact absurd rfl outside
  | _ => rfl

theorem Reachable.stepBudget_apply (reachable : Reachable μ) (event : Event σ) :
    (μ.apply event).machine.stepBudget = μ.machine.stepBudget :=
  (evolves reachable.isCoherent reachable.tidy event).stepBudget

theorem Reachable.stepBudget_run (reachable : Reachable μ) (events : List (Event σ)) :
    (μ.run events).machine.stepBudget = μ.machine.stepBudget := by
  induction events generalizing μ with
  | nil => rfl
  | cons event events ih =>
      exact (ih (reachable.apply event)).trans (reachable.stepBudget_apply event)

/-- A slice goes on after a step: the step has asked for another one and has used up budget, or the
wait that it has asked for is over. -/
inductive Continues (last : Slice σ) : Control σ → Slice σ → Prop
  | goesOn {step budget} (left : 0 < budget) (paid : budget + 1 = last.budget) :
    Continues last (.next step) { last with run := { last.run with next := step }, budget }
  | answered {pending x} :
    Continues last (.suspend pending) { last with run := { last.run with next := .done x } }

theorem Continues.same {last : Slice σ} {control : Control σ}
    (continues : Continues last control slice) :
    slice.fiber = last.fiber ∧ slice.budget ≤ last.budget := by
  cases continues with
  | goesOn _ paid => exact ⟨rfl, Nat.le_of_succ_le (Nat.le_of_eq paid)⟩
  | answered => exact ⟨rfl, Nat.le_refl _⟩

/-- A slice that the worker has after a step was followed up is the one that the step was taken
in. -/
theorem continues_of_follow (coherent : IsCoherent μ none none) {last : Slice σ}
    {control : Control σ} (taken : μ.taken = some (last, control))
    (running : (μ.machine.follow last control).running = some slice) :
    Continues last control slice := by
  have idle := running_of_taken coherent taken
  cases control with
  | next step =>
      simp only [Machine.follow] at running
      split at running
      · cases idle.symm.trans running
      · obtain rfl := Option.some.inj running
        exact .goesOn (by omega) (by omega)
  | yield step => cases idle.symm.trans running
  | suspend pending =>
      simp only [Machine.follow, Machine.park] at running
      split at running
      · obtain rfl := Option.some.inj running
        exact .answered
      · cases idle.symm.trans running
      · rename_i w canceler _
        have idle' := (μ.machine.spares_claim w).running.trans idle
        generalize μ.machine.claim w = result at running idle'
        obtain ⟨won, m⟩ := result
        split at running
        · cases won with
          | true =>
              obtain rfl := Option.some.inj running
              exact .answered
          | false => cases idle'.symm.trans running
        · cases idle.symm.trans running
  | finish x =>
      have finishing := coherent
      unfold IsCoherent focus at finishing
      rw [taken] at finishing
      have worker := (Coherent.finish finishing x (.inl rfl)).worker
      rw [Machine.core, show (μ.machine.finish last.fiber x).running = some slice from running]
        at worker
      cases worker

/-- A slice begins with a full budget. -/
theorem running_dispatch {m : Machine σ} (idle : m.running = none)
    (running : m.dispatch.running = some slice) : slice.budget = m.stepBudget := by
  unfold Machine.dispatch at running
  split at running
  · cases idle.symm.trans running
  · dsimp only at running
    split at running
    · cases idle.symm.trans running
    · split at running
      · cases idle.symm.trans running
      · obtain rfl := Option.some.inj running
        rfl

/-- A fiber comes to the worker with a full budget. -/
theorem Reachable.comes_to_worker (reachable : Reachable μ) (free : μ.held ≠ some f)
    (held : μ.work.held = some f) :
    μ.work.taken = none ∧ ∃ slice, μ.work.machine.running = some slice ∧ slice.fiber = f ∧
      slice.budget = μ.machine.stepBudget := by
  unfold work at held ⊢
  cases taken : μ.taken with
  | some step =>
      obtain ⟨last, control⟩ := step
      simp only [taken, Moment.held] at held free
      obtain ⟨slice, running, own⟩ := Option.map_eq_some_iff.1 held
      have same := (continues_of_follow reachable.isCoherent taken running).same.1
      exact absurd (congrArg some (same.symm.trans own)) free
  | none =>
      cases running : μ.machine.running with
      | some slice =>
          simp only [taken, running, Moment.held, Machine.takeStep, Option.map_some] at held free
          exact absurd held free
      | none =>
          simp only [taken, running, Moment.held] at held
          obtain ⟨slice, begun, own⟩ := Option.map_eq_some_iff.1 held
          exact ⟨rfl, slice, begun, own, running_dispatch running begun⟩

/-- What is due stays due while the worker does nothing. -/
theorem Reachable.due_of_outside (reachable : Reachable μ) (due : μ.Due slice)
    (outside : event ≠ .work) :
    μ.strideAt slice.fiber event = none ∧ (μ.apply event).Due slice := by
  obtain ⟨taken', running'⟩ := reachable.aside outside
  have full := reachable.stepBudget_apply event
  have still : μ.strideAt slice.fiber event = none := by
    cases event with
    | work => exact absurd rfl outside
    | _ => rfl
  refine ⟨still, ?_⟩
  cases due with
  | queued position free budget =>
      obtain ⟨p, position', moves⟩ := reachable.moves position still
      cases moves
      refine .queued position' ?_ (budget.trans full.symm)
      rwa [Moment.held, taken', running']
  | begun free running => exact .begun (taken'.trans free) (running'.trans running)
  | stepped taken onward => exact .stepped (taken'.trans taken) (full ▸ onward)

/-- A fiber that waits for the worker comes to it, or goes on waiting. -/
theorem Reachable.due_of_queued (reachable : Reachable μ)
    (position : μ.position? slice.fiber = some (.ready slice.run))
    (free : μ.held ≠ some slice.fiber) (budget : slice.budget = μ.machine.stepBudget) :
    μ.strideAt slice.fiber .work = none ∧ (μ.apply .work).Due slice := by
  have still : μ.strideAt slice.fiber .work = none := by
    by_contra stride
    obtain ⟨s, stride⟩ := Option.ne_none_iff_exists'.1 stride
    obtain ⟨-, free', running, own, -⟩ := strideAt_eq_some_iff.1 stride
    exact free (by simp [Moment.held, free', running, own])
  obtain ⟨p, position', moves⟩ := reachable.moves position still
  cases moves
  refine ⟨still, ?_⟩
  by_cases held : (μ.apply .work).held = some slice.fiber
  · obtain ⟨none, begun, running, own, budget'⟩ := reachable.comes_to_worker free held
    have known : ((μ.apply .work).machine.fiber? slice.fiber).isSome := by
      obtain ⟨fiber, row, -⟩ := Option.map_eq_some_iff.1 position'
      exact Option.isSome_iff_exists.2 ⟨fiber, row⟩
    have run := position'.symm.trans (position?_of_running known none running own)
    simp only [Option.some.injEq, Position.ready.injEq] at run
    obtain ⟨f, rest, left⟩ := begun
    obtain ⟨g, rest', left'⟩ := slice
    dsimp only at own run budget' budget
    subst own run budget budget'
    exact .begun none running
  · exact .queued position' held (budget.trans (reachable.stepBudget_apply .work).symm)

/-- After a step, a marked fiber goes on in its slice, or goes to the end of the queue. -/
theorem Reachable.due_of_stepped (reachable : Reachable μ) {last : Slice σ} {step : Step σ}
    (marked : μ.machine.isInterrupted slice.fiber = true)
    (taken : μ.taken = some (last, .next step))
    (onward : slice = last.onward μ.machine.stepBudget step) :
    μ.strideAt slice.fiber .work = none ∧ (μ.apply .work).Due slice := by
  have coherent := reachable.isCoherent
  have full := reachable.stepBudget_apply .work
  have own : slice.fiber = last.fiber := by rw [onward, Slice.onward_fiber]
  refine ⟨by simp [strideAt, stride?, taken], ?_⟩
  have idle := running_of_taken coherent taken
  have work : μ.apply .work = { machine := μ.machine.follow last (.next step) } := by
    show μ.work = _
    simp only [Moment.work, taken]
  have held : μ.held = some last.fiber := by simp [Moment.held, taken]
  obtain ⟨fiber, row, -⟩ :=
    Table.exists_row_of_view ((agenda_of_isCoherent coherent).held_works held)
  obtain ⟨-, -, awake, -⟩ := row_of_held coherent held row
  have silent := silent_of_taken coherent taken row (by simp)
  rw [own] at marked
  simp only [work, Machine.follow, Machine.observeAtRequeue_of_marked marked] at full ⊢
  unfold Slice.onward at onward
  split
  · rename_i spent
    rw [if_pos spent] at onward full
    refine .queued ?_ ?_ ?_
    · rw [onward]
      exact position?_requeue row silent awake idle _
    · show (Option.map _ (μ.machine.requeue _ _).running) ≠ _
      rw [show (μ.machine.requeue last.fiber _).running = none from idle]
      simp
    · rw [onward]
      exact full.symm
  · rename_i left
    rw [if_neg left] at onward
    exact .begun rfl (congrArg some onward.symm)

/-- What is due for a marked fiber is done next or stays due. -/
theorem Reachable.due_apply (reachable : Reachable μ)
    (marked : μ.machine.isInterrupted slice.fiber = true) (due : μ.Due slice) (event : Event σ) :
    (∃ s, μ.strideAt slice.fiber event = some s ∧ s.slice = slice) ∨
      μ.strideAt slice.fiber event = none ∧ (μ.apply event).Due slice := by
  by_cases outside : event ≠ .work
  · exact .inr (reachable.due_of_outside due outside)
  obtain rfl : event = .work := not_not.1 outside
  cases due with
  | begun free running =>
      refine .inl ⟨⟨{ μ.machine with running := none }, slice⟩, ?_, rfl⟩
      exact strideAt_eq_some_iff.2 ⟨rfl, free, running, rfl, rfl⟩
  | queued position free budget => exact .inr (reachable.due_of_queued position free budget)
  | stepped taken onward => exact .inr (reachable.due_of_stepped marked taken onward)

/-- What is due for a marked fiber is what it does next. -/
theorem Reachable.due_run (reachable : Reachable μ)
    (marked : μ.machine.isInterrupted slice.fiber = true) (due : μ.Due slice)
    (events : List (Event σ)) : ∀ s ∈ (strides slice.fiber μ events).head?, s.slice = slice := by
  induction events generalizing μ with
  | nil =>
      intro s first
      cases first
  | cons event events ih =>
      intro s first
      rcases reachable.due_apply marked due event with ⟨s', stride, same⟩ | ⟨still, due'⟩
      · rw [strides, stride] at first
        obtain rfl : s' = s := by simpa using first
        exact same
      · rw [strides, still] at first
        exact ih (reachable.apply event) (reachable.stays_marked marked [event]) due' s first

/-! ## From step to step -/

/-- The part of a run after some of the steps of a fiber. -/
theorem strides_eq_append {before after : List (Stride σ)}
    (taken : strides f μ events = before ++ after) :
    ∃ first later, events = first ++ later ∧ strides f (μ.run first) later = after := by
  induction before generalizing μ events with
  | nil => exact ⟨[], events, rfl, taken⟩
  | cons s before ih =>
      obtain ⟨first, later, rfl, -, -, rest⟩ := strides_eq_cons taken
      obtain ⟨first', later', rfl, rest'⟩ := ih rest
      refine ⟨first ++ .work :: first', later', by simp, ?_⟩
      rw [run_append, run_cons]
      exact rest'

/-- The last step of a marked fiber settles how its next one begins. -/
theorem Reachable.onward (reachable : Reachable μ) (marked : μ.machine.isInterrupted f = true)
    {before after : List (Stride σ)} {s s' : Stride σ}
    (taken : strides f μ events = before ++ s :: s' :: after) {step : Step σ}
    (goes : s.result.control = .next step) :
    s'.slice = { s.slice with run := s.result.run }.onward μ.machine.stepBudget step := by
  obtain ⟨first, later, rfl, rest⟩ := strides_eq_append taken
  obtain ⟨idle, later, rfl, -, stride, rest⟩ := strides_eq_cons rest
  have reached : Reachable ((μ.run first).run idle) := (reachable.run first).run idle
  obtain ⟨-, free, running, own, same⟩ := strideAt_eq_some_iff.1 stride
  have stepped : (((μ.run first).run idle).apply .work).Due
      ({ s.slice with run := s.result.run }.onward μ.machine.stepBudget step) := by
    have taken' : ((μ.run first).run idle).work.taken =
        some ({ s.slice with run := s.result.run }, .next step) := by
      simp only [work, free, running, Machine.takeStep, ← same, ← goes]
      rfl
    refine .stepped taken' ?_
    rw [reached.stepBudget_apply, (reachable.run first).stepBudget_run, reachable.stepBudget_run]
  have still : (((μ.run first).run idle).apply .work).machine.isInterrupted f = true := by
    have marked' := reachable.stays_marked marked (first ++ (idle ++ [.work]))
    rwa [run_append, run_append] at marked'
  subst own
  have next := (reached.apply .work).due_run (by rw [Slice.onward_fiber]; exact still) stepped later
  rw [Slice.onward_fiber] at next
  exact next s' (by simp only at rest ⊢; rw [rest]; rfl)

/-! ## Counting -/

/-- No slice has more than a full budget. -/
theorem Reachable.budget_le (reachable : Reachable μ) :
    (∀ slice, μ.machine.running = some slice → slice.budget ≤ μ.machine.stepBudget) ∧
      ∀ slice control, μ.taken = some (slice, control) → slice.budget ≤ μ.machine.stepBudget := by
  induction reachable with
  | initial world budget =>
      constructor
      · intro slice running
        cases running
      · intro slice control taken
        cases taken
  | @apply μ event reachable ih =>
      rw [reachable.stepBudget_apply]
      by_cases outside : event ≠ .work
      · obtain ⟨taken, running⟩ := reachable.aside outside
        rwa [taken, running]
      obtain rfl : event = .work := not_not.1 outside
      show (∀ slice, μ.work.machine.running = some slice → _) ∧
        ∀ slice control, μ.work.taken = some (slice, control) → _
      unfold work
      cases taken : μ.taken with
      | some step =>
          obtain ⟨last, control⟩ := step
          refine ⟨fun slice running => ?_, fun slice control taken => by cases taken⟩
          have less := (continues_of_follow reachable.isCoherent taken running).same.2
          exact Nat.le_trans less (ih.2 last control taken)
      | none =>
          cases running : μ.machine.running with
          | some last =>
              refine ⟨fun slice running' => ?_, fun slice control taken => ?_⟩
              · have taken' : μ.work.taken.isSome := by
                  simp [work, taken, running, Machine.takeStep]
                obtain ⟨step, taken'⟩ := Option.isSome_iff_exists.1 taken'
                have idle : μ.work.machine.running = none :=
                  running_of_taken (reachable.apply .work).isCoherent taken'
                simp only [work, taken, running] at idle
                cases idle.symm.trans running'
              · simp only [Machine.takeStep, Option.some.injEq, Prod.mk.injEq] at taken
                obtain ⟨rfl, -⟩ := taken
                exact ih.1 last running
          | none =>
              refine ⟨fun slice running' => ?_, fun slice control taken => by cases taken⟩
              exact Nat.le_of_eq (running_dispatch running running')

/-- The steps of a stretch that go on by themselves count down, and the count begins anew at the end
of a slice. -/
theorem Reachable.length_lt_of_cons (reachable : Reachable μ)
    (marked : μ.machine.isInterrupted f = true) {s : Stride σ}
    {before window after : List (Stride σ)}
    (taken : strides f μ events = before ++ (s :: window) ++ after)
    (goes : ∀ s' ∈ s :: window, ∃ step, s'.result.control = .next step) :
    (s :: window).length < max 1 s.slice.budget +
      max 1 μ.machine.stepBudget * (s :: window).countP (·.isLast) := by
  induction window generalizing s before with
  | nil =>
      cases last : s.isLast with
      | true =>
          simp [last]
          omega
      | false =>
          simp only [Stride.isLast, beq_eq_false_iff_ne] at last
          simp
          omega
  | cons s' window ih =>
      obtain ⟨step, next⟩ := goes s List.mem_cons_self
      have split : strides f μ events = before ++ s :: s' :: (window ++ after) := by
        simpa using taken
      have split' : strides f μ events = (before ++ [s]) ++ (s' :: window) ++ after := by
        simpa using taken
      have onward := reachable.onward marked split next
      have later := ih split' fun s'' listed => goes s'' (List.mem_cons_of_mem _ listed)
      unfold Slice.onward at onward
      rw [List.length_cons, List.countP_cons]
      cases last : s.isLast with
      | true =>
          have spent : s.slice.budget - 1 = 0 := by simpa [Stride.isLast] using last
          rw [if_pos spent] at onward
          rw [onward] at later
          simp only [if_true, Nat.mul_add, Nat.mul_one] at later ⊢
          omega
      | false =>
          have left : s.slice.budget - 1 ≠ 0 := by simpa [Stride.isLast] using last
          rw [if_neg left] at onward
          rw [onward] at later
          simp only [Bool.false_eq_true, if_false, Nat.add_zero] at later ⊢
          omega

/-- A stretch of steps that go on by themselves passes the end of a slice in every budget. -/
theorem Reachable.length_lt (reachable : Reachable μ) (marked : μ.machine.isInterrupted f = true)
    {before window after : List (Stride σ)} (taken : strides f μ events = before ++ window ++ after)
    (goes : ∀ s ∈ window, ∃ step, s.result.control = .next step) :
    window.length < max 1 μ.machine.stepBudget * (window.countP (·.isLast) + 1) := by
  cases window with
  | nil =>
      have positive : 0 < max 1 μ.machine.stepBudget :=
        Nat.lt_of_lt_of_le Nat.one_pos (Nat.le_max_left ..)
      exact Nat.mul_pos positive (Nat.succ_pos _)
  | cons s window =>
      have counted := reachable.length_lt_of_cons marked taken goes
      have full : s.slice.budget ≤ μ.machine.stepBudget := by
        rw [List.append_assoc] at taken
        obtain ⟨first, later, rfl, rest⟩ := strides_eq_append taken
        obtain ⟨idle, later, rfl, -, stride, -⟩ := strides_eq_cons rest
        obtain ⟨-, -, running, -⟩ := strideAt_eq_some_iff.1 stride
        have bound := ((reachable.run first).run idle).budget_le.1 _ running
        rwa [(reachable.run first).stepBudget_run, reachable.stepBudget_run] at bound
      rw [Nat.mul_add, Nat.mul_one]
      omega

end Moment

end EffectFibers
