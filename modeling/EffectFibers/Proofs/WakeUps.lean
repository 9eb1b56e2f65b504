import EffectFibers.Proofs.StructuredConcurrency

/-!
# No wake-up is lost, none comes twice

Between two operations every live fiber stands in exactly one place: it is queued, it is being
stepped, it sleeps on something that is still undecided, or its program has ended and it waits for
a child.  So whatever ends a wait also makes its fiber runnable, and nobody is queued twice.  An
answer that has reached a fiber stays there until the worker hands it to that fiber.

## Main definitions

* `Standing`, `Moment.Stands` – the places in which a fiber can stand.

## Main statements

* `Moment.Reachable.wakes_up_once` – every live fiber stands in one place, the queue holds nobody
  twice, and answers stay until they are handed over.
-/

namespace EffectFibers

variable {σ : Type}

/-- Where a live fiber stands. -/
inductive Standing
  /-- It can go on, and is in the queue once. -/
  | queued
  /-- The worker steps it. -/
  | stepped
  /-- It sleeps on a wait or a group that is not over. -/
  | parked
  /-- Its program has ended, and a child is still to end. -/
  | draining
  deriving DecidableEq

namespace Machine

/-- What a fiber sleeps on is still undecided: nobody has claimed the wait, or a child in the group
is still to end. -/
def Undecided (m : Machine σ) (f : FiberId) : Pending σ → Prop
  | .wait w _ => ∃ wait, m.waits.get? w = some wait ∧ wait.owner = f ∧ wait.claimed = false
  | .group g => ∃ c i fiber, m.Started f c ∧ m.fiber? c = some fiber ∧
      fiber.reader = .group g i ∧ fiber.status.isTerminal = false

end Machine

namespace Moment

/-- A fiber stands in a place. -/
def Stands (μ : Moment σ) (f : FiberId) (fiber : Fiber σ) : Standing → Prop
  | .queued => fiber.status = .running ∧ fiber.run.isSome ∧ μ.machine.ready.toList.count f = 1
  | .stepped => fiber.status = .running ∧ fiber.run = none ∧ μ.held = some f
  | .parked => fiber.status = .suspended ∧ fiber.run.isSome ∧ fiber.input = none ∧
      f ∉ μ.machine.ready.toList ∧ ∃ pending, fiber.pending = some pending ∧
        μ.machine.Undecided f pending
  | .draining => fiber.closing.isSome ∧ f ∉ μ.machine.ready.toList ∧
      ∃ c, μ.machine.Started f c ∧ (μ.machine.status c).isTerminal = false

variable {μ : Moment σ} {f : FiberId} {fiber : Fiber σ}

/-- The queue holds exactly the fibers that can go on. -/
theorem Reachable.mem_ready_iff (reachable : Reachable μ)
    (row : μ.machine.fiber? f = some fiber) :
    f ∈ μ.machine.ready.toList ↔ fiber.status = .running ∧ fiber.run.isSome := by
  have mem := (agenda_of_isCoherent reachable.isCoherent).mem_iff (f := f)
  have task : μ.machine.core.task f = some fiber.task := Table.view_of_row _ row
  rw [List.append_nil, task, Option.some.injEq, Fiber.task_eq_runnable_iff] at mem
  exact mem

/-- A suspended fiber sleeps on something undecided. -/
theorem Reachable.undecided (reachable : Reachable μ) (row : μ.machine.fiber? f = some fiber)
    {pending : Pending σ} (sleeps : fiber.pending = some pending) :
    μ.machine.Undecided f pending := by
  have coherent := reachable.isCoherent
  cases pending with
  | wait w c =>
      have owner := (waiting_of_isCoherent coherent).owner_of_sleeps
        (Coherent.sleeps_of_row row sleeps)
      obtain ⟨wait, rowW, opened⟩ := Table.exists_row_of_find owner
      unfold Wait.openOwner at opened
      split at opened
      · cases opened
      · rename_i unclaimed
        exact ⟨wait, rowW, Option.some.inj opened, by simpa using unclaimed⟩
  | group g =>
      have seating := seating_of_isCoherent coherent
      have awaits : μ.machine.core.awaits f = some g := by
        rw [Core.awaits]
        exact (Table.find_of_row _ row).trans (by simp [Fiber.awaits, sleeps, Pending.group?])
      obtain ⟨c, i, placed, live⟩ := seating.awaits_member awaits (by simp)
      obtain ⟨child, rowC, place⟩ := Table.exists_row_of_find placed
      obtain ⟨G, rowG, parent⟩ := seating.member placed
      obtain ⟨G', rowG', rfl⟩ := seating.awaits_group awaits
      obtain rfl := Option.some.inj (rowG.symm.trans rowG')
      refine ⟨c, i, child, ?_, rowC, ?_, ?_⟩
      · refine reachable.started_iff.2 ⟨child, rowC, ?_⟩
        rw [← parent]
        exact (Table.find_of_row _ rowC).symm
      · unfold Fiber.place ExitReader.place at place
        split at place
        · rename_i reader
          obtain ⟨rfl, rfl⟩ := Prod.mk.inj (Option.some.inj place)
          exact reader
        · cases place
      · rw [Core.live, Table.view_of_row _ rowC] at live
        simpa [Fiber.live] using live

/-- A fiber whose program has ended waits for a live child. -/
theorem Reachable.draining (reachable : Reachable μ) (row : μ.machine.fiber? f = some fiber)
    (closing : fiber.closing.isSome) :
    ∃ c, μ.machine.Started f c ∧ (μ.machine.status c).isTerminal = false := by
  have family := family_of_isCoherent reachable.isCoherent
  have kin : μ.machine.core.kin f = some fiber.kin := Table.view_of_row _ row
  obtain ⟨c, closing⟩ := Option.isSome_iff_exists.1 closing
  obtain ⟨c, kc, kinC, parent, liveC⟩ := family.exists_child_of_closing kin closing nofun nofun
  obtain ⟨child, rowC, rfl⟩ := Table.exists_row_of_view kinC
  refine ⟨c, family.born kinC parent, ?_⟩
  rw [Coherent.status_of_row rowC]
  exact verdict_eq_none_iff.1 liveC

/-- Every live fiber stands in exactly one place. -/
theorem Reachable.existsUnique_stands (reachable : Reachable μ)
    (row : μ.machine.fiber? f = some fiber) (live : fiber.status.isTerminal = false) :
    ∃! standing, μ.Stands f fiber standing := by
  have coherent := reachable.isCoherent
  have shaped := coherent.shaped row
  have agenda := agenda_of_isCoherent coherent
  have mem := reachable.mem_ready_iff row
  have nodup : μ.machine.ready.toList.Nodup := by simpa using agenda.nodup
  have task : μ.machine.core.task f = some fiber.task := Table.view_of_row _ row
  have held : μ.held = some f → fiber.closing = none := by
    intro held
    have working := agenda.held_works held
    rw [task, Option.some.injEq] at working
    exact (Fiber.task_eq_working_iff.1 working).2.2
  cases status : fiber.status with
  | suspended =>
      obtain ⟨saved, silent⟩ := shaped.parked status
      obtain ⟨pending, sleeps⟩ := Option.isSome_iff_exists.1 (shaped.asleep.1 status)
      refine ⟨.parked, ⟨status, saved, silent, fun queued => ?_, pending, sleeps,
        reachable.undecided row sleeps⟩, fun standing stands => ?_⟩
      · simp [status] at mem
        exact mem queued
      · cases standing with
        | queued => simp [Stands, status] at stands
        | stepped => simp [Stands, status] at stands
        | parked => rfl
        | draining => simp [shaped.closed stands.1] at status
  | running =>
      cases saved : fiber.run with
      | some run =>
          have queued := mem.2 ⟨status, by simp [saved]⟩
          refine ⟨.queued, ⟨status, by simp [saved], List.count_eq_one_of_mem nodup queued⟩,
            fun standing stands => ?_⟩
          cases standing with
          | queued => rfl
          | stepped => simp [Stands, saved] at stands
          | parked => simp [Stands, status] at stands
          | draining => exact absurd queued stands.2.1
      | none =>
          have away : f ∉ μ.machine.ready.toList := fun queued => by
            have := (mem.1 queued).2
            simp [saved] at this
          cases closing : fiber.closing with
          | some c =>
              refine ⟨.draining, ⟨by simp [closing], away, reachable.draining row
                (by simp [closing])⟩, fun standing stands => ?_⟩
              cases standing with
              | queued => simp [Stands, saved] at stands
              | stepped => simp [held stands.2.2] at closing
              | parked => simp [Stands, status] at stands
              | draining => rfl
          | none =>
              have working : μ.machine.core.task f = some .working := by
                rw [task, Fiber.task_eq_working_iff.2 ⟨status, saved, closing⟩]
              have heldNow : μ.held = some f := by
                rcases agenda.working working with h | h
                · exact h
                · cases h
              refine ⟨.stepped, ⟨status, saved, heldNow⟩, fun standing stands => ?_⟩
              cases standing with
              | queued => simp [Stands, saved] at stands
              | stepped => rfl
              | parked => simp [Stands, status] at stands
              | draining => simp [Stands, closing] at stands
  | _ => simp [status, FiberStatus.isTerminal] at live

/-! ## Answers stay until they are handed over -/

/-- The worker has just handed an answer to a fiber: the fiber goes on with it, or with an interrupt
in its place. -/
def HandedOver (μ ν : Moment σ) (f : FiberId) (x : Exit) : Prop :=
  ∃ slice, ν.machine.running = some slice ∧ slice.fiber = f ∧
    (slice.run.next = .done x ∨
      (slice.run.next = .done .interrupted ∧ μ.machine.interruptPending f slice.run))

theorem next_afterWait (m : Machine σ) (f : FiberId) (run : RunState σ) (x : Exit) :
    (m.afterWait f run x).next = .done x ∨ ((m.afterWait f run x).next = .done .interrupted ∧
      m.interruptPending f (m.afterWait f run x)) := by
  unfold Machine.afterWait
  by_cases pending : m.interruptPending f run
  · exact .inr ⟨by simp [pending], pending⟩
  · exact .inl (by simp [pending])

/-- An answer that waits for its fiber stays. -/
theorem isCoherent_keep (coherent : IsCoherent μ none none) {x : Exit}
    (answered : μ.machine.core.input f = some x) : IsCoherent μ none (some (f, x)) := by
  unfold IsCoherent focus Control.focus at coherent ⊢
  split at coherent
  · split at coherent <;>
      exact { coherent with waiting := coherent.waiting.keep answered }
  · exact { coherent with waiting := coherent.waiting.keep answered }

/-- When the worker takes an answer, it hands it to the fiber that waited for it. -/
theorem handedOver_of_not_spares (coherent : IsCoherent μ none none) {x : Exit}
    (row : μ.machine.fiber? f = some fiber) (answered : fiber.input = some x)
    (taken : ¬ μ.Spares (some (f, x))) : HandedOver μ μ.work f x := by
  unfold Spares at taken
  cases step : μ.taken with
  | some step' =>
      obtain ⟨slice, control⟩ := step'
      rw [step] at taken
      have same : slice.fiber = f := by
        by_contra other
        refine taken fun y kept => other ?_
        exact (congrArg Prod.fst (Option.some.inj kept)).symm
      subst same
      have input : (μ.machine.fiber? slice.fiber).bind (·.input) = some x := by
        rw [row]
        exact answered
      -- only a fiber that has opened a wait can have been answered already
      have waiting := waiting_of_isCoherent coherent
      have asking : μ.asking ≠ none := by
        refine waiting.held_input (f := slice.fiber) (by simp [held, step]) ?_
        rw [show μ.machine.core.input slice.fiber = some x from input]
        exact Option.some_ne_none x
      unfold Moment.asking focus Control.focus at asking
      rw [step] at asking
      dsimp only at asking
      split at asking
      · rename_i w canceler
        refine ⟨{ slice with run := μ.machine.afterWait slice.fiber slice.run x }, ?_, rfl,
          next_afterWait _ _ _ _⟩
        simp only [work, step, Machine.follow, Machine.park, input]
      · exact absurd rfl asking
      · exact absurd rfl asking
  | none =>
      rw [step] at taken
      simp only [not_forall, not_not] at taken
      obtain ⟨free, f', y, first, same⟩ := taken
      obtain ⟨rfl, rfl⟩ := Prod.mk.inj (Option.some.inj same)
      have queued : f ∈ μ.machine.ready.toList := List.mem_of_mem_head? first
      have task := (agenda_of_isCoherent coherent).mem_iff.1 (by simpa using queued)
      rw [show μ.machine.core.task f = some fiber.task from Table.view_of_row _ row,
        Option.some.injEq, Fiber.task_eq_runnable_iff] at task
      obtain ⟨run, saved⟩ := Option.isSome_iff_exists.1 task.2
      obtain ⟨ready, pop⟩ := ReadyQueue.exists_pop_of_head? first
      refine ⟨⟨f, μ.machine.afterWait f run x, μ.machine.stepBudget⟩, ?_, rfl,
        next_afterWait _ _ _ _⟩
      have row' : μ.machine.fibers.get? f = some fiber := row
      simp only [work, step, free, Machine.dispatch, pop, Machine.fiber?, row', saved, answered]
      rfl

/-- An answer that has reached a fiber is not lost and not replaced: it stays, or the worker hands
it to the fiber. -/
theorem Reachable.answer_stays (reachable : Reachable μ) (row : μ.machine.fiber? f = some fiber)
    {x : Exit} (answered : fiber.input = some x) (event : Event σ) :
    (∃ after, (μ.apply event).machine.fiber? f = some after ∧ after.input = some x) ∨
      (event = .work ∧ HandedOver μ (μ.apply event) f x) := by
  have coherent := reachable.isCoherent
  by_cases spares : event = .work → μ.Spares (some (f, x))
  · left
    have input : μ.machine.core.input f = some x := (Table.find_of_row _ row).trans answered
    have kept := isCoherent_apply (isCoherent_keep coherent input) event spares
    exact Table.exists_row_of_find ((waiting_of_isCoherent kept).input_kept rfl)
  · right
    obtain ⟨rfl, taken⟩ := Classical.not_imp.1 spares
    exact ⟨rfl, handedOver_of_not_spares coherent row answered taken⟩

/-- No wake-up is lost, and none comes twice: every live fiber stands in exactly one place, no fiber
is queued twice, an answer stays with its fiber until the worker hands it over, and a fiber that
is suspended sleeps on something that is not over. -/
theorem Reachable.wakes_up_once (reachable : Reachable μ) :
    (∀ f fiber, μ.machine.fiber? f = some fiber → fiber.status.isTerminal = false →
      ∃! standing, μ.Stands f fiber standing) ∧
    μ.machine.ready.toList.Nodup ∧
    (∀ f fiber x event, μ.machine.fiber? f = some fiber → fiber.input = some x →
      (∃ after, (μ.apply event).machine.fiber? f = some after ∧ after.input = some x) ∨
        (event = .work ∧ HandedOver μ (μ.apply event) f x)) ∧
    ∀ f fiber pending, μ.machine.fiber? f = some fiber → fiber.pending = some pending →
      μ.machine.Undecided f pending := by
  refine ⟨fun _ _ row live => reachable.existsUnique_stands row live, ?_,
    fun _ _ _ event row answered => reachable.answer_stays row answered event,
    fun _ _ _ row sleeps => reachable.undecided row sleeps⟩
  simpa using (agenda_of_isCoherent reachable.isCoherent).nodup

/-! ## A fiber that is answered before it sleeps -/

/-- A program that answers its own question at once. -/
def answerEarly : Node Unit := .async fun w => (do
  Action.request (.resume w (.ok .null))
  return none : Action Unit (Option (Cleanup Unit)))

/-- That program after some operations of the worker. -/
def answering (works : Nat) : Moment Unit :=
  (initial { host := () } 10).run (.start answerEarly :: List.replicate works .work)

theorem reachable_answering (works : Nat) : Reachable (answering works) :=
  (Reachable.initial _ _).run _

/-- The answer waits for the fiber on the worker, and then the fiber goes on with it. -/
theorem early_answer_is_handed_over :
    (∃ fiber, (answering 2).machine.fiber? ⟨1⟩ = some fiber ∧ fiber.input = some (.ok .null) ∧
      ∃! standing, (answering 2).Stands ⟨1⟩ fiber standing) ∧
    HandedOver (answering 2) (answering 3) ⟨1⟩ (.ok .null) := by
  obtain ⟨stands, -, stays, -⟩ := (reachable_answering 2).wakes_up_once
  refine ⟨⟨_, rfl, rfl, stands ⟨1⟩ _ rfl rfl⟩, ?_⟩
  rcases stays ⟨1⟩ _ (.ok .null) .work rfl rfl with ⟨after, row, answered⟩ | ⟨-, handed⟩
  · have gone : ((answering 3).machine.fiber? ⟨1⟩).bind (·.input) = none := rfl
    have row' : (answering 3).machine.fiber? ⟨1⟩ = some after := row
    simp [row', answered] at gone
  · exact handed

end Moment

end EffectFibers
