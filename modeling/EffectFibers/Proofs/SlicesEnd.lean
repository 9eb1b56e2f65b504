import EffectFibers.Proofs.Progress.Budget
import Mathlib.Data.List.Induction

/-!
# Slices end

A slice counts its steps down from the step budget, but not all of them: a step that asks for a wait
which is over already costs nothing, and the fiber goes on.  Still no slice goes on for ever.  After
such a wait the next step hands on an exit, and a frame that gets an exit never waits itself, nor
does it give way: it goes on, and that costs budget, or the program is over.  So of two steps in a
row at least one is paid for.

## Main definitions

* `Moment.Holds` – in a run, the worker never lets go of a fiber.
* `Moment.credit` – how many steps the slice on the worker may still take.
* `Moment.LetsGo` – how the worker comes to let go of a fiber.

## Main statements

* `Machine.exists_next_of_resumeFrame` – a frame that gets an exit never waits.
* `Moment.Reachable.slices_end` – every slice ends after at most two steps for each unit of budget.
-/

namespace EffectFibers

variable {σ : Type}

/-! ## A frame that gets an exit goes on -/

namespace Machine

variable {m : Machine σ} {f : FiberId} {scope : ScopeId} {run : RunState σ} {frame : Frame σ}
  {x : Exit}

theorem exists_next_of_build (code : Action σ (Node σ)) :
    ∃ step, (m.build run code).control = .next step := by
  unfold build Control.ofBuilt
  generalize m.perform code = performed
  obtain ⟨built, machine⟩ := performed
  cases built <;> exact ⟨_, rfl⟩

theorem exists_next_of_advanceLayers (run : RunState σ) (m : Machine σ) (build : LayerBuild σ)
    (todo : List (LayerNode σ)) :
    ∃ step, (m.advanceLayers f scope run build todo).control = .next step := by
  induction todo generalizing m build with
  | nil => exact ⟨_, rfl⟩
  | cons layer rest ih =>
      unfold advanceLayers
      split
      · exact ih _ _
      · exact ⟨_, rfl⟩
      · exact ⟨_, rfl⟩

theorem exists_next_of_resumeLayers (build : LayerBuild σ) :
    ∃ step, (m.resumeLayers f scope run build x).control = .next step := by
  unfold resumeLayers
  split
  · split
    · exact ⟨_, rfl⟩
    · unfold endBuild
      split
      · exact exists_next_of_advanceLayers _ _ _ _
      · exact ⟨_, rfl⟩
      · exact ⟨_, rfl⟩
      · exact ⟨_, rfl⟩
  · split
    · exact exists_next_of_advanceLayers _ _ _ _
    · exact ⟨_, rfl⟩

theorem exists_next_of_resumeRetry (source : Node σ) (schedule : Schedule Failure) (attempt : Nat)
    (failure : Failure) :
    ∃ step, (m.resumeRetry f run source schedule attempt failure).control = .next step := by
  unfold resumeRetry evalAfter
  split
  · dsimp only
    split <;> exact ⟨_, rfl⟩
  · exact ⟨_, rfl⟩
  · exact ⟨_, rfl⟩

/-- A frame that gets an exit goes on: it neither waits nor gives way nor ends the program. -/
theorem exists_next_of_resumeFrame :
    ∃ step, (m.resumeFrame f scope run frame x).control = .next step := by
  cases frame with
  | flatMap next =>
      cases x with
      | ok v => exact exists_next_of_build _
      | error cause => exact ⟨_, rfl⟩
  | recover handler =>
      rcases x with (failure | d | _) | v
      · exact exists_next_of_build _
      · exact ⟨_, rfl⟩
      · exact ⟨_, rfl⟩
      · exact ⟨_, rfl⟩
  | retry source schedule attempt =>
      rcases x with (failure | d | _) | v
      · exact exists_next_of_resumeRetry source schedule attempt failure
      · exact ⟨_, rfl⟩
      · exact ⟨_, rfl⟩
      · exact ⟨_, rfl⟩
  | repeated source schedule attempt =>
      cases x with
      | ok v => exact exists_next_of_build _
      | error cause => exact ⟨_, rfl⟩
  | layers build => exact exists_next_of_resumeLayers build
  | _ => exact ⟨_, rfl⟩

/-- A step that hands on an exit goes on, or ends the program with it. -/
theorem next_or_finish_of_done (next : run.next = .done x) :
    (∃ step, (m.stepRun f scope run).control = .next step) ∨
      (m.stepRun f scope run).control = .finish x := by
  cases top : run.stack with
  | nil =>
      rw [stepRun_over next top]
      exact .inr rfl
  | cons frame stack =>
      rw [stepRun_done next top]
      exact .inl exists_next_of_resumeFrame

end Machine

/-! ## What a slice may still do -/

/-- An operation of the worker. -/
def Event.isWork : Event σ → Bool
  | .work => true
  | _ => false

/-- How many steps a slice may take: two for each unit of budget, but the first one of two is for an
evaluation only. -/
def Slice.credit (slice : Slice σ) : Nat :=
  match slice.run.next with
  | .eval _ => 2 * max 1 slice.budget
  | .done _ => 2 * max 1 slice.budget - 1

/-- How many steps a slice may take after one that was taken and not followed up yet. -/
def Slice.creditAfter (slice : Slice σ) : Control σ → Nat
  | .next _ => 2 * (max 1 slice.budget - 1)
  | .suspend _ => 2 * max 1 slice.budget - 1
  | .yield _ | .finish _ => 0

namespace Moment

/-- In a run, the worker never lets go of a fiber. -/
def Holds (f : FiberId) (μ : Moment σ) (events : List (Event σ)) : Prop :=
  ∀ before, before <+: events → (μ.run before).held = some f

/-- How many steps the slice on the worker may still take. -/
def credit (μ : Moment σ) : Nat :=
  match μ.taken, μ.machine.running with
  | some (slice, control), _ => slice.creditAfter control
  | none, some slice => slice.credit
  | none, none => 0

/-- How many operations the worker may still do in its slice. -/
def worksLeft (μ : Moment σ) : Nat := 2 * μ.credit + μ.taken.toList.length

variable {μ : Moment σ} {f : FiberId} {event : Event σ} {events : List (Event σ)} {s s' : Stride σ}
  {slice last : Slice σ} {control : Control σ} {pending : Pending σ}

theorem Holds.head (holds : Holds f μ events) : μ.held = some f := holds [] List.nil_prefix

theorem Holds.tail (holds : Holds f μ (event :: events)) : Holds f (μ.apply event) events :=
  fun before short => holds (event :: before) (List.cons_prefix_cons.2 ⟨rfl, short⟩)

theorem Holds.of_append {later : List (Event σ)} (holds : Holds f μ (events ++ later)) :
    Holds f (μ.run events) later := by
  intro before short
  rw [← run_append]
  exact holds _ ((List.prefix_append_right_inj events).2 short)

/-- The step of a slice costs credit. -/
theorem credit_of_stride (stride : μ.strideAt f event = some s) :
    (μ.apply event).credit + 1 ≤ μ.credit ∧ μ.taken = none ∧
      (μ.apply event).taken = some ({ s.slice with run := s.result.run }, s.result.control) := by
  obtain ⟨rfl, free, running, own, same⟩ := strideAt_eq_some_iff.1 stride
  have taken : (μ.apply .work).taken =
      some ({ s.slice with run := s.result.run }, s.result.control) := by
    show μ.work.taken = _
    simp only [Moment.work, free, running, ← same]
    rfl
  refine ⟨?_, free, taken⟩
  have before : μ.credit = s.slice.credit := by simp only [credit, free, running]
  have after : (μ.apply .work).credit =
      ({ s.slice with run := s.result.run } : Slice σ).creditAfter s.result.control := by
    simp only [credit, taken]
  rw [before, after, Slice.credit]
  cases next : s.slice.run.next with
  | eval node =>
      cases s.result.control <;> simp only [Slice.creditAfter] <;> omega
  | done x =>
      have goes : (∃ step, s.result.control = .next step) ∨ s.result.control = .finish x :=
        Machine.next_or_finish_of_done next
      rcases goes with ⟨step, goes⟩ | ends
      · rw [goes]
        simp only [Slice.creditAfter]
        omega
      · rw [ends]
        simp only [Slice.creditAfter]
        omega

/-- What comes of a step costs no credit while the slice goes on. -/
theorem Continues.credit_le (continues : Continues last control slice) :
    slice.credit ≤ last.creditAfter control := by
  cases continues with
  | @goesOn step budget left paid =>
      have less : 2 * max 1 budget ≤ 2 * (max 1 last.budget - 1) := by omega
      cases step with
      | eval node => exact less
      | done x => exact Nat.le_trans (Nat.sub_le _ _) less
  | answered => exact Nat.le_refl _

theorem Continues.paid {step : Step σ} (continues : Continues last (.next step) slice) :
    slice.budget + 1 = last.budget := by
  cases continues with
  | goesOn _ paid => exact paid

theorem Continues.answer (continues : Continues last (.suspend pending) slice) :
    ∃ x, slice = { last with run := { last.run with next := .done x } } := by
  cases continues with
  | answered => exact ⟨_, rfl⟩

/-- After a step was followed up, the worker lets go of the fiber or continues the slice. -/
theorem Reachable.continues (reachable : Reachable μ) (taken : μ.taken = some (last, control))
    (held : (μ.apply .work).held = some f) : (μ.apply .work).taken = none ∧
      ∃ slice, (μ.apply .work).machine.running = some slice ∧ Continues last control slice := by
  have work : μ.apply .work = { machine := μ.machine.follow last control } := by
    show μ.work = _
    simp only [Moment.work, taken]
  rw [work] at held ⊢
  obtain ⟨slice, running, -⟩ := Option.map_eq_some_iff.1 held
  exact ⟨rfl, slice, running, continues_of_follow reachable.isCoherent taken running⟩

/-- Following up a step costs no credit. -/
theorem Reachable.credit_of_taken (reachable : Reachable μ)
    (taken : μ.taken = some (last, control)) : (μ.apply .work).credit ≤ μ.credit := by
  cases held : (μ.apply .work).held with
  | none =>
      have work : (μ.apply .work).taken = none := by
        show μ.work.taken = _
        simp only [Moment.work, taken]
      rw [Moment.held, work] at held
      simp [credit, work, Option.map_eq_none_iff.1 held]
  | some f =>
      obtain ⟨free, slice, running, continues⟩ := reachable.continues taken held
      simp only [credit, taken, free, running]
      exact continues.credit_le

/-- While the worker holds a fiber, its steps cost credit, and all that it does is counted. -/
theorem Reachable.credit_apply (reachable : Reachable μ) (held : μ.held = some f)
    (held' : (μ.apply event).held = some f) :
    (μ.strideAt f event).toList.length + (μ.apply event).credit ≤ μ.credit ∧
      event.isWork.toNat + (μ.apply event).worksLeft ≤ μ.worksLeft := by
  by_cases outside : event ≠ .work
  · obtain ⟨taken, running⟩ := reachable.aside outside
    have still : μ.strideAt f event = none ∧ event.isWork = false := by
      cases event with
      | work => exact absurd rfl outside
      | _ => exact ⟨rfl, rfl⟩
    simp [still, worksLeft, credit, taken, running]
  obtain rfl : event = .work := not_not.1 outside
  cases taken : μ.taken with
  | some step =>
      obtain ⟨last, control⟩ := step
      have less := reachable.credit_of_taken taken
      have free := (reachable.continues taken held').1
      have still : μ.strideAt f .work = none := by simp [strideAt, stride?, taken]
      simp only [worksLeft, taken, free, still, Event.isWork, Bool.toNat_true,
        Option.toList_none, Option.toList_some, List.length_nil, List.length_singleton]
      omega
  | none =>
      obtain ⟨slice, running, own⟩ : ∃ slice, μ.machine.running = some slice ∧ slice.fiber = f := by
        rw [Moment.held, taken] at held
        exact Option.map_eq_some_iff.1 held
      have stride : μ.strideAt f .work = some ⟨{ μ.machine with running := none }, slice⟩ :=
        strideAt_eq_some_iff.2 ⟨rfl, taken, running, own, rfl⟩
      obtain ⟨less, -, taken'⟩ := credit_of_stride stride
      simp only [worksLeft, taken, taken', stride, Event.isWork, Bool.toNat_true,
        Option.toList_none, Option.toList_some, List.length_nil, List.length_singleton]
      omega

/-- While the worker holds a fiber, it uses up what it may still do. -/
theorem Reachable.credit_run (reachable : Reachable μ) (holds : Holds f μ events) :
    (strides f μ events).length + (μ.run events).credit ≤ μ.credit ∧
      events.countP Event.isWork + (μ.run events).worksLeft ≤ μ.worksLeft := by
  induction events generalizing μ with
  | nil => simp [strides]
  | cons event events ih =>
      obtain ⟨now, nowWorks⟩ := reachable.credit_apply holds.head holds.tail.head
      obtain ⟨later, laterWorks⟩ := ih (reachable.apply event) holds.tail
      rw [strides, List.length_append, List.countP_cons, run_cons]
      cases works : event.isWork <;> simp [works] at nowWorks ⊢ <;> omega

/-- A slice on the worker may do something, and not more than its budget allows. -/
theorem Reachable.worksLeft_bounds (reachable : Reachable μ) (held : μ.held = some f) :
    0 < μ.worksLeft ∧ μ.worksLeft ≤ 4 * max 1 μ.machine.stepBudget ∧
      μ.credit ≤ 2 * max 1 μ.machine.stepBudget := by
  obtain ⟨running_le, taken_le⟩ := reachable.budget_le
  unfold worksLeft credit
  cases taken : μ.taken with
  | some step =>
      obtain ⟨last, control⟩ := step
      have less := taken_le last control taken
      simp only [Option.toList_some, List.length_singleton]
      cases control <;> simp only [Slice.creditAfter] <;> omega
  | none =>
      rw [Moment.held, taken] at held
      obtain ⟨slice, running, -⟩ := Option.map_eq_some_iff.1 held
      have less := running_le slice running
      simp only [running, Option.toList_none, List.length_nil, Slice.credit]
      split <;> omega

/-! ## From step to step -/

/-- A step was taken, and it is still to be followed up or the slice goes on after it. -/
def Between (μ : Moment σ) (last : Slice σ) (control : Control σ) : Prop :=
  μ.taken = some (last, control) ∨
    μ.taken = none ∧ ∃ slice, μ.machine.running = some slice ∧ Continues last control slice

/-- While the worker holds a fiber that takes no step, it stays between two steps. -/
theorem Reachable.between_run (reachable : Reachable μ) (between : Between μ last control)
    (holds : Holds f μ events) (still : strides f μ events = []) :
    Between (μ.run events) last control := by
  induction events generalizing μ with
  | nil => exact between
  | cons event events ih =>
      obtain ⟨now, later⟩ := List.append_eq_nil_iff.1 still
      refine ih (reachable.apply event) ?_ holds.tail later
      by_cases outside : event ≠ .work
      · obtain ⟨taken, running⟩ := reachable.aside outside
        rwa [Between, taken, running]
      obtain rfl : event = .work := not_not.1 outside
      rcases between with taken | ⟨free, slice, running, -⟩
      · exact .inr (reachable.continues taken holds.tail.head)
      · -- then the worker would take the next step
        have held := holds.head
        rw [Moment.held, free, running] at held
        simp [strideAt, stride?, free, running, Option.some.inj held] at now

/-- The next step of a slice continues the one before it. -/
theorem Reachable.continues_to_next (reachable : Reachable μ) (holds : Holds f μ events)
    {before after : List (Stride σ)} (taken : strides f μ events = before ++ s :: s' :: after) :
    Continues { s.slice with run := s.result.run } s.result.control s'.slice := by
  obtain ⟨first, later, rfl, rest⟩ := strides_eq_append taken
  have holds' := holds.of_append
  obtain ⟨idle, later, rfl, -, stride, rest⟩ := strides_eq_cons rest
  obtain ⟨idle', later, rfl, still, stride', -⟩ := strides_eq_cons rest
  have reached : Reachable (((μ.run first).run idle).apply .work) :=
    ((reachable.run first).run idle).apply .work
  have holds'' := (holds'.of_append).tail
  have between := reached.between_run (.inl (credit_of_stride stride).2.2)
    (fun short prefixed => holds'' short (prefixed.trans (List.prefix_append _ _))) still
  obtain ⟨-, free, running, -⟩ := strideAt_eq_some_iff.1 stride'
  rcases between with taken | ⟨-, slice, running', continues⟩
  · cases free.symm.trans taken
  · obtain rfl := Option.some.inj (running.symm.trans running')
    exact continues

/-! ## The end of a slice -/

/-- How the worker comes to let go of a fiber after a step: the program is over, the fiber sleeps, or
it is at the end of the queue. -/
inductive LetsGo (μ : Moment σ) (last : Slice σ) : Control σ → Prop
  | finishes {x} (gone : μ.position? last.fiber = some .gone) : LetsGo μ last (.finish x)
  | parks {pending : Pending σ}
    (asleep : μ.position? last.fiber = some (.asleep last.run pending)) :
    LetsGo μ last (.suspend pending)
  | requeues {step run} (spent : last.budget - 1 = 0)
    (ready : μ.position? last.fiber = some (.ready run))
    (queued : last.fiber ∈ μ.machine.ready.toList) : LetsGo μ last (.next step)
  | yields {step run} (ready : μ.position? last.fiber = some (.ready run))
    (queued : last.fiber ∈ μ.machine.ready.toList) : LetsGo μ last (.yield step)

theorem mem_ready_requeue (m : Machine σ) (f : FiberId) (run : RunState σ) :
    f ∈ (m.requeue f run).ready.toList := by
  show f ∈ (m.ready.push f).toList
  simp [ReadyQueue.toList_push]

/-- A fiber that has asked for a wait goes on with an exit, or sleeps. -/
theorem park_cases (coherent : IsCoherent μ none none)
    (taken : μ.taken = some (last, .suspend pending)) :
    (μ.machine.park last pending).running.isSome ∨
      (Moment.mk (μ.machine.park last pending) none).position? last.fiber =
        some (.asleep last.run pending) := by
  have held : μ.held = some last.fiber := by simp [Moment.held, taken]
  obtain ⟨fiber, (row : μ.machine.fiber? last.fiber = some fiber), -⟩ :=
    Table.exists_row_of_view ((agenda_of_isCoherent coherent).held_works held)
  have idle := running_of_taken coherent taken
  have input : (μ.machine.fiber? last.fiber).bind (·.input) = fiber.input := by rw [row]; rfl
  simp only [Machine.park, input]
  cases answer : fiber.input with
  | some x => exact .inl rfl
  | none =>
      have asleep : ∀ m : Machine σ, m.fiber? last.fiber = some fiber → m.running = none →
          (Moment.mk (m.suspend last.fiber last.run pending) none).position? last.fiber =
            some (.asleep last.run pending) :=
        fun m row idle => position?_suspend row answer idle last.run pending
      cases pending with
      | group g => exact .inr (asleep _ row idle)
      | wait w canceler =>
          have row' := (μ.machine.fiber?_claim w last.fiber).trans row
          have idle' := (μ.machine.spares_claim w).running.trans idle
          simp only
          generalize μ.machine.claim w = result at row' idle'
          obtain ⟨won, m⟩ := result
          split
          · cases won with
            | true => exact .inl rfl
            | false => exact .inr (asleep m row' idle')
          · exact .inr (asleep _ row idle)

/-- When the worker lets go of a fiber, a step was taken that ends the slice. -/
theorem Reachable.letsGo (reachable : Reachable μ) (held : μ.held = some f)
    (free : (μ.apply event).held ≠ some f) : event = .work ∧
      ∃ last control, μ.taken = some (last, control) ∧ last.fiber = f ∧
        (μ.apply event).LetsGo last control := by
  by_cases outside : event ≠ .work
  · obtain ⟨taken, running⟩ := reachable.aside outside
    exact absurd held (by rwa [Moment.held, taken, running] at free)
  obtain rfl : event = .work := not_not.1 outside
  refine ⟨rfl, ?_⟩
  cases taken : μ.taken with
  | none =>
      -- a step that is to be followed up is not the end of the slice
      rw [Moment.held, taken] at held
      obtain ⟨slice, running, own⟩ := Option.map_eq_some_iff.1 held
      have taken' := (credit_of_stride (strideAt_eq_some_iff.2
        ⟨rfl, taken, running, own, rfl⟩ : μ.strideAt f .work =
          some ⟨{ μ.machine with running := none }, slice⟩)).2.2
      exact absurd (by rw [Moment.held, taken']; exact congrArg some own) free
  | some step =>
      obtain ⟨last, control⟩ := step
      obtain rfl : last.fiber = f := by simpa [Moment.held, taken] using held
      refine ⟨last, control, rfl, rfl, ?_⟩
      have coherent := reachable.isCoherent
      obtain ⟨fiber, row, -⟩ :=
        Table.exists_row_of_view ((agenda_of_isCoherent coherent).held_works held)
      obtain ⟨-, -, awake, -⟩ := row_of_held coherent held row
      have idle := running_of_taken coherent taken
      have work : μ.apply .work = { machine := μ.machine.follow last control } := by
        show μ.work = _
        simp only [Moment.work, taken]
      cases control with
      | finish x => exact .finishes (position?_finish reachable taken)
      | yield step =>
          have silent := silent_of_taken coherent taken row (by simp)
          rw [work]
          exact .yields (position?_requeue row silent awake idle _) (mem_ready_requeue ..)
      | next step =>
          have silent := silent_of_taken coherent taken row (by simp)
          rw [work] at free ⊢
          simp only [Machine.follow] at free ⊢
          split at free
          · rename_i spent
            rw [if_pos spent]
            exact .requeues spent (position?_requeue row silent awake idle _)
              (mem_ready_requeue ..)
          · exact absurd rfl free
      | suspend pending =>
          rcases park_cases coherent taken with goes | asleep
          · obtain ⟨slice, running⟩ := Option.isSome_iff_exists.1 goes
            have same := (continues_of_follow coherent taken running).same.1
            rw [work] at free
            exact absurd (by
              show (μ.machine.park last pending).running.map _ = _
              rw [running, Option.map_some, same]) free
          · rw [work]
            exact .parks asleep

/-! ## Every slice -/

/-- The worker holds a fiber throughout a run, or lets go of it in some event. -/
theorem holds_or_letsGo (held : μ.held = some f) (events : List (Event σ)) :
    Holds f μ events ∨ ∃ before event, before ++ [event] <+: events ∧ Holds f μ before ∧
      (μ.run (before ++ [event])).held ≠ some f := by
  induction events using List.reverseRecOn with
  | nil =>
      refine .inl fun before short => ?_
      rw [List.prefix_nil.1 short]
      exact held
  | append_singleton events event ih =>
      rcases ih with holds | ⟨before, event', short, holds, free⟩
      · by_cases held' : (μ.run (events ++ [event])).held = some f
        · refine .inl fun before short => ?_
          rcases List.prefix_concat_iff.1 short with rfl | short
          · exact held'
          · exact holds before short
        · exact .inr ⟨events, event, List.prefix_refl _, holds, held'⟩
      · exact .inr ⟨before, event', short.trans (List.prefix_append _ _), holds, free⟩

/-- What is known about the slices of a fiber. -/
structure SlicesEnd (μ : Moment σ) (f : FiberId) : Prop where
  /-- A slice takes at most two steps for each unit of the budget. -/
  steps : ∀ events, Holds f μ events →
    (strides f μ events).length ≤ 2 * max 1 μ.machine.stepBudget
  /-- When the worker has gone on often enough, it has let go of the fiber, whatever else has
  happened. -/
  ends : ∀ events, μ.held = some f → 4 * max 1 μ.machine.stepBudget ≤ events.countP Event.isWork →
    ∃ before event, before ++ [event] <+: events ∧ Holds f μ before ∧
      (μ.run (before ++ [event])).held ≠ some f
  /-- It lets go of the fiber because the program is over, the fiber sleeps, or it is in the
  queue again. -/
  letsGo : ∀ before event, Holds f μ before → (μ.run (before ++ [event])).held ≠ some f →
    ∃ last control, (μ.run before).taken = some (last, control) ∧ last.fiber = f ∧
      (μ.run (before ++ [event])).LetsGo last control
  /-- A step that goes on costs budget. -/
  paid : ∀ events before after s s' step, Holds f μ events →
    strides f μ events = before ++ s :: s' :: after → s.result.control = .next step →
    s'.slice.budget + 1 = s.slice.budget
  /-- A wait that is over already costs nothing, but the next step of the slice hands on an exit,
  and goes on or ends the program. -/
  answered : ∀ events before after s s' pending, Holds f μ events →
    strides f μ events = before ++ s :: s' :: after → s.result.control = .suspend pending →
    s'.slice.budget = s.slice.budget ∧ ∃ x, s'.slice.run = { s.result.run with next := .done x } ∧
      ((∃ step, s'.result.control = .next step) ∨ s'.result.control = .finish x)
  /-- The machine allows for enough steps to run a slice to its end. -/
  allowance : μ.taken = none → μ.machine.running = none → μ.machine.slice.running = none

/-- A slice that the machine runs step by step ends within its credit. -/
theorem running_steps {m : Machine σ} (reachable : Reachable { machine := m }) {limit : Nat}
    (enough : credit { machine := m } ≤ limit) : (Machine.slice.steps limit m).running = none := by
  induction limit generalizing m with
  | zero =>
      cases running : m.running with
      | none => exact running
      | some slice =>
          have held : held { machine := m } = some slice.fiber := by simp [held, running]
          have some := (reachable.worksLeft_bounds held).1
          simp only [worksLeft, Option.toList_none, List.length_nil] at some
          omega
  | succ limit ih =>
      rw [Machine.slice.steps]
      cases running : m.running with
      | none => exact running
      | some slice =>
          have stride : strideAt { machine := m } slice.fiber .work =
              some ⟨{ m with running := none }, slice⟩ :=
            strideAt_eq_some_iff.2 ⟨rfl, rfl, running, rfl, rfl⟩
          obtain ⟨less, -, taken⟩ := credit_of_stride stride
          have after := (reachable.apply .work).credit_of_taken taken
          refine ih reachable.tick ?_
          rw [← work_work_eq_tick running]
          show (((Moment.mk m none).apply .work).apply .work).credit ≤ limit
          omega

/-- The machine runs every slice to its end. -/
theorem Reachable.running_slice (reachable : Reachable μ) (free : μ.taken = none)
    (idle : μ.machine.running = none) : μ.machine.slice.running = none := by
  obtain ⟨m, taken⟩ := μ
  obtain rfl : taken = none := free
  refine running_steps reachable.tick ?_
  have same : m.tick.stepBudget = m.stepBudget := by
    have kept := reachable.stepBudget_apply .work
    rw [show (Moment.mk m none).apply .work = { machine := m.tick } from work_eq_dispatch idle]
      at kept
    exact kept
  cases running : m.tick.running with
  | none => simp [credit, running]
  | some slice =>
      have held : held { machine := m.tick } = some slice.fiber := by simp [held, running]
      have bounds := (reachable.tick.worksLeft_bounds held).2.2
      rw [show (Moment.mk m.tick none).machine.stepBudget = m.stepBudget from same] at bounds
      show _ ≤ 8 * m.stepBudget + 8
      omega

/-- Every slice ends: after at most two steps for each unit of its budget the program is over, the
fiber sleeps, or it is in the queue again. -/
theorem Reachable.slices_end (reachable : Reachable μ) (f : FiberId) : SlicesEnd μ f where
  steps events holds := by
    have used := (reachable.credit_run holds).1
    have bounds := (reachable.worksLeft_bounds holds.head).2.2
    omega
  ends events held many := by
    refine (holds_or_letsGo held events).resolve_left fun holds => ?_
    have used := (reachable.credit_run holds).2
    have left := ((reachable.run events).worksLeft_bounds
      (holds events (List.prefix_refl _))).1
    have bounds := (reachable.worksLeft_bounds held).2.1
    omega
  letsGo before event holds free := by
    rw [run_append] at free ⊢
    exact ((reachable.run before).letsGo (holds before (List.prefix_refl _)) free).2
  paid events before after s s' step holds taken goes :=
    (goes ▸ reachable.continues_to_next holds taken).paid
  answered events before after s s' pending holds taken asks := by
    obtain ⟨x, same⟩ := (asks ▸ reachable.continues_to_next holds taken).answer
    have next : s'.slice.run.next = .done x := by rw [same]
    exact ⟨by rw [same], x, congrArg Slice.run same, Machine.next_or_finish_of_done next⟩
  allowance free idle := reachable.running_slice free idle

/-! ## A wait that is over at once -/

/-- A callback comes in while it is being handed out. -/
def answerAtOnce (w : WaitId) : Action Unit (Option (Cleanup Unit)) := do
  Action.request (.resume w (.ok .null))
  return none

/-- A wait that is over at once, and then a value. -/
def answersAtOnce : Node Unit :=
  .flatMap (.async answerAtOnce) fun v => (pure (.succeed v) : Action Unit (Node Unit))

/-- The program on the worker, before its first step. -/
def answeredSlice : Moment Unit :=
  (initial { host := () } 2048).run [.start answersAtOnce, .work]

/-- Its slice takes five steps, the second of which asks for a wait that is over already, and ends
with the program. -/
theorem slice_ends_after_answer :
    let taken := strides ⟨1⟩ answeredSlice (List.replicate 10 .work)
    answeredSlice.held = some ⟨1⟩ ∧ taken.length = 5 ∧
    (∃ s pending, taken[1]? = some s ∧ s.result.control = .suspend pending) ∧
    (answeredSlice.run (List.replicate 10 .work)).machine.status ⟨1⟩ = .succeeded ∧
    SlicesEnd answeredSlice ⟨1⟩ :=
  ⟨rfl, rfl, ⟨_, _, rfl, rfl⟩, by decide,
    ((Reachable.initial _ _).run _ : Reachable answeredSlice).slices_end ⟨1⟩⟩

end Moment

end EffectFibers
