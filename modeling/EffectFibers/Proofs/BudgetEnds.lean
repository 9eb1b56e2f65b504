import EffectFibers.Effect.Sequential
import EffectFibers.Proofs.Progress.Budget

/-!
# Interrupts at the ends of slices

A fiber that neither waits nor gives way meets an interrupt only where a slice ends.  There the
interrupt takes the place of an evaluation, but not of a step that hands on an exit.  So it depends
on what the last step of the slice has asked for whether a marked fiber is stopped.

Steps that go on by themselves pass the end of a slice once in every budget.  At each of these
ends an evaluation is asked for, and then the next step hands on the interrupt; or an exit is to be
handed on, and then the next step hands on this exit as if there was no mark.  A marked fiber
gets past its budgets exactly if it is the second case at every end.

This may be so at all ends.  A failure that is retried at once is evaluated and handed on in turn,
so after an even number of steps it is always the exit's turn.  With an even budget the loop goes on
for ever, however long ago the fiber was marked.

## Main definitions

* `Stride.Plods` – a step that goes on by itself, in no region and into none.
* `Stride.Replaced` – an interrupt has taken the place of what a step has asked for.
* `Moment.Spins` – a loop that retries a failure, with an even budget.

## Main statements

* `Moment.Reachable.gets_past_iff` – when a marked fiber gets past its budgets.
* `Moment.retry_is_never_interrupted` – a loop that always does.
-/

namespace EffectFibers

variable {σ : Type}

/-! ## Steps at the ends of slices -/

/-- A step that goes on by itself, while no region is open, and puts up no guard. -/
structure Stride.Plods (s : Stride σ) : Prop where
  goes : ∃ step, s.result.control = .next step
  unshielded : s.slice.run.shield = 0
  unguarded : s.result.run.shield = 0
  plain : ∀ node, s.slice.run.next = .eval node → node.isGuard = false

/-- A step has asked for an evaluation, and the next one hands on an interrupt instead. -/
def Stride.Replaced (s s' : Stride σ) : Prop :=
  (∃ node, s.result.control = .next (.eval node)) ∧
    s'.slice.run = { s.result.run with next := .done .interrupted }

/-- A step has asked to hand on an exit, and the next one does. -/
def Stride.HandsOn (s s' : Stride σ) : Prop :=
  ∃ x, s.result.control = .next (.done x) ∧ s'.slice.run = { s.result.run with next := .done x }

namespace Moment

variable {μ : Moment σ} {f : FiberId} {events : List (Event σ)} {window : List (Stride σ)}

/-- At the end of a slice an evaluation is replaced, and an exit is handed on. -/
theorem Reachable.replaced_or_hands_on (reachable : Reachable μ)
    (marked : μ.machine.isInterrupted f = true) (stretch : window <:+: strides f μ events)
    (plods : ∀ s ∈ window, s.Plods) {s s' : Stride σ} (pair : [s, s'] <:+: window)
    (last : s.isLast = true) : s.Replaced s' ∨ s.HandsOn s' := by
  obtain ⟨before, after, taken⟩ := pair.trans stretch
  have first := plods s (pair.subset (by simp))
  obtain ⟨step, goes⟩ := first.goes
  have split : strides f μ events = before ++ s :: s' :: after := by simpa using taken.symm
  have onward := congrArg Slice.run (reachable.onward marked split goes)
  have spent : s.slice.budget - 1 = 0 := by simpa [Stride.isLast] using last
  rw [Slice.onward, if_pos spent] at onward
  cases step with
  | done x => exact .inr ⟨x, goes, onward⟩
  | eval node =>
      -- the next step puts up no guard, so none was asked for
      have plain : node.isGuard = false := by
        by_contra guard
        have kept : s'.slice.run.next = .eval node := by
          rw [onward]
          simp [RunState.noticed, guard]
        exact guard ((plods s' (pair.subset (by simp))).plain node kept)
      refine .inl ⟨⟨node, goes⟩, ?_⟩
      rw [onward]
      simp [RunState.noticed, plain, first.unguarded]

/-- Within a slice a step is followed by the one that it has asked for. -/
theorem Reachable.not_replaced (reachable : Reachable μ)
    (marked : μ.machine.isInterrupted f = true) (stretch : window <:+: strides f μ events)
    {s s' : Stride σ} (pair : [s, s'] <:+: window) (inside : s.isLast = false) :
    ¬ s.Replaced s' := by
  rintro ⟨⟨node, goes⟩, replaced⟩
  obtain ⟨before, after, taken⟩ := pair.trans stretch
  have split : strides f μ events = before ++ s :: s' :: after := by simpa using taken.symm
  have onward := congrArg Slice.run (reachable.onward marked split goes)
  have left : s.slice.budget - 1 ≠ 0 := by simpa [Stride.isLast] using inside
  rw [Slice.onward, if_neg left, replaced] at onward
  cases congrArg RunState.next onward

/-- A marked fiber that goes on by itself passes the end of a slice once in every budget.  At each
of them its next step hands on an interrupt if an evaluation was asked for, and otherwise the exit
that was to be handed on.  So no interrupt stops it exactly if the step that is asked for at the end
of a slice is never an evaluation. -/
theorem Reachable.gets_past_iff (reachable : Reachable μ)
    (marked : μ.machine.isInterrupted f = true) (stretch : window <:+: strides f μ events)
    (plods : ∀ s ∈ window, s.Plods) :
    window.length < max 1 μ.machine.stepBudget * (window.countP (·.isLast) + 1) ∧
    (∀ s s', [s, s'] <:+: window → s.isLast = true → s.Replaced s' ∨ s.HandsOn s') ∧
    ((∀ s s', [s, s'] <:+: window → ¬ s.Replaced s') ↔
      ∀ s s', [s, s'] <:+: window → s.isLast = true →
        ¬ ∃ node, s.result.control = .next (.eval node)) := by
  have ends := fun s s' (pair : [s, s'] <:+: window) =>
    reachable.replaced_or_hands_on marked stretch plods pair
  refine ⟨?_, ends, fun unreplaced s s' pair last evaluates => ?_,
    fun hands s s' pair replaced => ?_⟩
  · obtain ⟨before, after, taken⟩ := stretch
    exact reachable.length_lt marked taken.symm fun s listed => (plods s listed).goes
  · obtain ⟨node, goes⟩ := evaluates
    rcases ends s s' pair last with replaced | ⟨x, goes', -⟩
    · exact unreplaced s s' pair replaced
    · cases goes.symm.trans goes'
  · cases last : s.isLast with
    | true => exact hands s s' pair last replaced.1
    | false => exact reachable.not_replaced marked stretch pair last replaced

end Moment

/-! ## A loop that no interrupt stops -/

/-- What is left of a program that retries a failure at once and for ever: the failure is evaluated,
or it is handed on. -/
structure RunState.Loops (φ : Failure) (handing : Bool) (run : RunState σ) : Prop where
  next : run.next = if handing then .done (.error (.fail φ)) else .eval (.fail (.fail φ))
  stack : ∃ attempt, run.stack = [.retry (.fail (.fail φ)) .forever attempt]
  unshielded : run.shield = 0

namespace Machine

/-- A change to nothing but the record. -/
def OnlyRecords (m m' : Machine σ) : Prop := ∃ record, m' = { m with record }

/-- The two steps of the loop take turns. -/
theorem stepRun_of_loops (m : Machine σ) (f : FiberId) (scope : ScopeId) {run : RunState σ}
    {φ : Failure} {handing : Bool} (known : φ.known? = some φ) (loops : run.Loops φ handing) :
    ∃ step, (m.stepRun f scope run).control = .next step ∧
      { (m.stepRun f scope run).run with next := step }.Loops φ !handing ∧
      m.OnlyRecords (m.stepRun f scope run).machine := by
  obtain ⟨next, ⟨attempt, stack⟩, unshielded⟩ := loops
  cases handing with
  | false =>
      rw [stepRun_eval next]
      exact ⟨_, rfl, ⟨rfl, ⟨attempt, stack⟩, unshielded⟩, m.record, rfl⟩
  | true =>
      rw [stepRun_done next stack]
      have again : (Schedule.forever (α := Failure)).decide? attempt φ.known? =
          .ok (.again .zero) := by
        rw [known]
        rfl
      simp only [resumeFrame, resumeRetry, again]
      exact ⟨_, rfl, ⟨rfl, ⟨_, rfl⟩, unshielded⟩, _, rfl⟩

end Machine

namespace Moment

/-- A fiber that retries a failure at once and for ever, with a machine for itself whose budget is
even: where the rest of the budget is even, the failure is handed on.  The number counts what the
worker has to do before the next step. -/
inductive Spins (f : FiberId) (φ : Failure) : Nat → Moment σ → Prop
  | queued {μ fiber run} (free : μ.taken = none) (idle : μ.machine.running = none)
    (first : μ.machine.ready.toList = [f]) (row : μ.machine.fiber? f = some fiber)
    (saved : fiber.run = some run) (silent : fiber.input = none) (loops : run.Loops φ true) :
    Spins f φ 1 μ
  | begun {μ slice fiber} (free : μ.taken = none) (running : μ.machine.running = some slice)
    (own : slice.fiber = f) (others : μ.machine.ready.toList = [])
    (row : μ.machine.fiber? f = some fiber) (silent : fiber.input = none)
    (left : 0 < slice.budget) (loops : slice.run.Loops φ (slice.budget % 2 == 0)) :
    Spins f φ 0 μ
  | stepped {μ slice fiber step} (taken : μ.taken = some (slice, .next step))
    (idle : μ.machine.running = none) (own : slice.fiber = f)
    (others : μ.machine.ready.toList = []) (row : μ.machine.fiber? f = some fiber)
    (silent : fiber.input = none) (left : 0 < slice.budget)
    (loops : { slice.run with next := step }.Loops φ !(slice.budget % 2 == 0)) :
    Spins f φ 2 μ

variable {μ : Moment σ} {f : FiberId} {φ : Failure} {toDo : Nat}

/-- Each step of the loop goes on by itself, and none hands on an interrupt. -/
theorem Spins.plods (known : φ.known? = some φ) (spins : Spins f φ toDo μ) {s : Stride σ}
    (stride : μ.strideAt f .work = some s) : s.Plods ∧ s.slice.run.next ≠ .done .interrupted := by
  obtain ⟨-, free, running, own, -⟩ := strideAt_eq_some_iff.1 stride
  cases spins with
  | queued _ idle => cases idle.symm.trans running
  | stepped taken => cases free.symm.trans taken
  | begun _ running' _ _ _ _ _ loops =>
      obtain rfl := Option.some.inj (running.symm.trans running')
      obtain ⟨step, goes, loops', -⟩ :=
        Machine.stepRun_of_loops s.machine s.slice.fiber s.scope known loops
      refine ⟨⟨⟨step, goes⟩, loops.unshielded, loops'.unshielded, fun node evaluates => ?_⟩, ?_⟩
      · rw [loops.next] at evaluates
        split at evaluates
        · cases evaluates
        · cases evaluates
          rfl
      · rw [loops.next]
        split <;> nofun

/-- The worker takes up the only fiber that can go on. -/
theorem work_of_queued {fiber : Fiber σ} {run : RunState σ} (free : μ.taken = none)
    (idle : μ.machine.running = none) (first : μ.machine.ready.toList = [f])
    (row : μ.machine.fiber? f = some fiber) (saved : fiber.run = some run)
    (silent : fiber.input = none) : ∃ ready, ready.toList = [] ∧
      μ.work = { machine := { ({ μ.machine with ready } : Machine σ).modifyFiber f fun fiber =>
        { fiber with run := none, input := none } with
          running := some ⟨f, run, μ.machine.stepBudget⟩ } } := by
  obtain ⟨ready, pop⟩ := ReadyQueue.exists_pop_of_head?
    (show μ.machine.ready.toList.head? = some f by rw [first, List.head?_cons])
  rw [ReadyQueue.toList_of_pop pop] at first
  have row' : μ.machine.fibers.get? f = some fiber := row
  refine ⟨ready, by simpa using first, ?_⟩
  simp only [Moment.work, free, idle, Machine.dispatch, pop, Machine.fiber?, row', saved, silent]
  rfl

/-- The step of the loop. -/
theorem Spins.take (known : φ.known? = some φ) (spins : Spins f φ 0 μ) :
    Spins f φ 2 μ.work ∧ μ.work.machine.stepBudget = μ.machine.stepBudget ∧
      (μ.strideAt f .work).isSome := by
  cases spins with
  | @begun _ slice fiber free running own others row silent left loops =>
      have stride : μ.strideAt f .work = some ⟨{ μ.machine with running := none }, slice⟩ :=
        strideAt_eq_some_iff.2 ⟨rfl, free, running, own, rfl⟩
      obtain ⟨step, goes, loops', record, recorded⟩ :=
        Machine.stepRun_of_loops { μ.machine with running := none } slice.fiber
          (Stride.scope ⟨{ μ.machine with running := none }, slice⟩) known loops
      generalize stepped : Machine.stepRun _ _ _ _ = result at goes loops' recorded
      have work : μ.work = { machine := { μ.machine with running := none, record }
                             taken := some ({ slice with run := result.run }, .next step) } := by
        unfold Stride.scope at stepped
        simp only [Moment.work, free, running, Machine.takeStep, stepped, recorded, goes]
      rw [work, stride]
      exact ⟨.stepped rfl rfl own others row silent left loops', rfl, rfl⟩

/-- What comes of the step: the loop goes on in its slice, or it begins a new one. -/
theorem Spins.follow (spins : Spins f φ 2 μ) :
    ∃ toDo, toDo ≤ 1 ∧ Spins f φ toDo μ.work ∧
      μ.work.machine.stepBudget = μ.machine.stepBudget := by
  cases spins with
  | @stepped _ slice fiber step taken idle own others row silent left loops =>
      have work : μ.work = { machine := μ.machine.follow slice (.next step) } := by
        simp only [Moment.work, taken]
      rw [work]
      simp only [Machine.follow]
      split
      · -- one step was left, so its failure comes next and no interrupt takes its place
        have one : slice.budget = 1 := by omega
        rw [one] at loops
        have same : μ.machine.observeAtRequeue slice.fiber { slice.run with next := step } =
            { slice.run with next := step } := by
          unfold Machine.observeAtRequeue
          rw [loops.next]
          rfl
        rw [same]
        refine ⟨1, Nat.le_refl _, .queued rfl idle ?_ (?_ : Machine.fiber? _ f =
          some { fiber with run := some { slice.run with next := step } }) rfl silent loops, rfl⟩
        · show (μ.machine.ready.push slice.fiber).toList = [f]
          rw [ReadyQueue.toList_push, others, own]
          rfl
        · show (μ.machine.modifyFiber slice.fiber _).fiber? f = _
          rw [Machine.fiber?_modifyFiber, if_pos own, row]
          rfl
      · have turn : (!(slice.budget % 2 == 0)) = ((slice.budget - 1) % 2 == 0) := by
          rw [Bool.eq_iff_iff]
          simp
          omega
        rw [turn] at loops
        have left' : 0 < slice.budget - 1 := by omega
        exact ⟨0, Nat.zero_le _, .begun rfl rfl own others row silent left' loops, rfl⟩

/-- The loop goes on, with a step or with less to do before the next one. -/
theorem Spins.work (known : φ.known? = some φ) (spins : Spins f φ toDo μ)
    (even : μ.machine.stepBudget % 2 = 0) (positive : 0 < μ.machine.stepBudget) :
    ∃ toDo', Spins f φ toDo' μ.work ∧ μ.work.machine.stepBudget = μ.machine.stepBudget ∧
      toDo' + 1 ≤ toDo + 3 * (μ.strideAt f .work).toList.length := by
  cases spins with
  | @queued _ fiber run free idle first row saved silent loops =>
      obtain ⟨ready, others, work⟩ := work_of_queued free idle first row saved silent
      rw [work]
      refine ⟨0, .begun rfl rfl rfl others (?_ : Machine.fiber? _ f =
        some { fiber with run := none, input := none }) rfl positive ?_, rfl, by omega⟩
      · show (({ μ.machine with ready } : Machine σ).modifyFiber f _).fiber? f = _
        rw [Machine.fiber?_modifyFiber, if_pos rfl]
        exact congrArg (Option.map _) row
      · show run.Loops φ (μ.machine.stepBudget % 2 == 0)
        rw [even]
        exact loops
  | begun free running own others row silent left loops =>
      obtain ⟨spins', same, stride⟩ :=
        (Spins.begun free running own others row silent left loops).take known
      obtain ⟨s, stride⟩ := Option.isSome_iff_exists.1 stride
      exact ⟨2, spins', same, by simp [stride]⟩
  | stepped taken idle own others row silent left loops =>
      obtain ⟨toDo', less, spins', same⟩ :=
        (Spins.stepped taken idle own others row silent left loops).follow
      exact ⟨toDo', spins', same, by omega⟩

/-- The loop takes as many steps as one likes, and none of them hands on an interrupt. -/
theorem Spins.strides (known : φ.known? = some φ) (spins : Spins f φ toDo μ)
    (even : μ.machine.stepBudget % 2 = 0) (positive : 0 < μ.machine.stepBudget) (works : Nat) :
    let taken := strides f μ (List.replicate works .work)
    works ≤ toDo + 3 * taken.length ∧ ∀ s ∈ taken, s.Plods ∧
      s.slice.run.next ≠ .done .interrupted := by
  induction works generalizing μ toDo with
  | zero =>
      refine ⟨Nat.zero_le _, fun s listed => ?_⟩
      cases listed
  | succ works ih =>
      obtain ⟨toDo', spins', same, less⟩ := spins.work known even positive
      obtain ⟨many, plod⟩ := ih spins' (same ▸ even) (same ▸ positive)
      simp only [List.replicate_succ, Moment.strides, List.length_append, List.mem_append]
        at many plod ⊢
      refine ⟨?_, fun s listed => ?_⟩
      · show works + 1 ≤ toDo + 3 * ((μ.strideAt f .work).toList.length +
          (strides f μ.work (List.replicate works .work)).length)
        omega
      · rcases listed with now | later
        · exact spins.plods known (Option.mem_toList.1 now)
        · exact plod s later

/-! ## A loop with an odd budget, and one with an even one -/

/-- A failure that is retried at once and for ever. -/
def retrying : Effect Unit := (Effect.fail (.tagged "T" "m")).retry .forever

/-- The loop on a machine with a budget, marked before its first step. -/
def markedRetry (budget : Nat) : Moment Unit :=
  (initial { host := () } budget).run [.start retrying.node, .request (.interrupt ⟨1⟩)]

theorem reachable_markedRetry (budget : Nat) : Reachable (markedRetry budget) :=
  (Reachable.initial _ _).run _

/-- With a budget of one step, the interrupt replaces the first evaluation of the failure. -/
theorem retry_is_interrupted :
    let taken := strides ⟨1⟩ (markedRetry 1) (List.replicate 5 .work)
    (∀ s ∈ taken, s.Plods) ∧ ∃ s s', [s, s'] <:+: taken ∧ s.Replaced s' := by
  intro taken
  have plods : ∀ s ∈ taken, s.Plods := by
    refine List.forall_mem_cons.2 ⟨⟨⟨_, rfl⟩, rfl, rfl, ?_⟩, List.forall_mem_cons.2
      ⟨⟨⟨_, rfl⟩, rfl, rfl, ?_⟩, fun s none => absurd none List.not_mem_nil⟩⟩
    · rintro node ⟨⟩
      rfl
    · rintro node ⟨⟩
  have marked : (markedRetry 1).machine.isInterrupted ⟨1⟩ = true := rfl
  obtain ⟨-, -, past⟩ :=
    (reachable_markedRetry 1).gets_past_iff marked (List.infix_refl taken) plods
  refine ⟨plods, ?_⟩
  by_contra none
  exact past.1 (fun s s' pair replaced => none ⟨s, s', pair, replaced⟩) _ _
    (List.infix_refl taken) rfl ⟨_, rfl⟩

/-- With the usual budget the loop goes on for ever, although it was marked. -/
theorem retry_is_never_interrupted :
    let μ := (markedRetry 2048).run [.work, .work]
    Reachable μ ∧ μ.machine.isInterrupted ⟨1⟩ = true ∧
    ∀ n, let taken := strides ⟨1⟩ μ (List.replicate (3 * n + 2) .work)
      n ≤ taken.length ∧ ∀ s ∈ taken, s.Plods ∧ s.slice.run.next ≠ .done .interrupted := by
  intro μ
  refine ⟨(reachable_markedRetry _).run _, rfl, fun n => ?_⟩
  have spins : Spins ⟨1⟩ (.tagged "T" "m") 2 μ :=
    .stepped rfl rfl rfl rfl rfl rfl (by decide) ⟨rfl, ⟨0, rfl⟩, rfl⟩
  have budget : μ.machine.stepBudget = 2048 := rfl
  obtain ⟨many, plod⟩ := spins.strides rfl (by omega) (by omega) (3 * n + 2)
  exact ⟨by omega, plod⟩

end Moment

end EffectFibers
