import EffectFibers.Proofs.Changes.Step
import EffectFibers.Proofs.Coherence.Reachable

/-!
# Events, change by change

Every event is a sequence of changes.  What the worker does is done on behalf of the fiber that it
steps, or of the one whose slice begins; all else happens on nobody's behalf.

## Main definitions

* `Moment.actor` – the fiber on whose behalf an event happens.
* `Moment.Deals` – the events that deal with the ends of fibers.

## Main statements

* `Moment.evolves` – an event is a sequence of changes.
* `Moment.keepsBooks` – most events leave the books alone.
* `Moment.Reachable.tidy` – every reachable moment is tidy.
* `Moment.Reachable.stays_marked`, `Moment.isInterrupted_of_child` – marks stay, and reach the
  children.
-/

namespace EffectFibers

variable {σ : Type}

namespace Moment

variable {μ : Moment σ} {f : FiberId} {deals : Bool}

/-- The fiber on whose behalf an event happens. -/
def actor (μ : Moment σ) : Event σ → Option FiberId
  | .work => μ.held.or μ.machine.ready.toList.head?
  | _ => none

/-- The events that deal with the ends of fibers: a program has an exit, or a fiber wants to know of
an end. -/
def Deals (μ : Moment σ) : Event σ → Prop
  | .work => (∃ slice x, μ.taken = some (slice, .finish x)) ∨
    μ.taken = none ∧ ∃ slice target how, μ.machine.running = some slice ∧
      slice.run.next = .eval (.watch target how)
  | _ => False

/-- What the worker does is a sequence of changes. -/
theorem evolves_work (coherent : IsCoherent μ none none) (tidy : μ.machine.Tidy)
    (other : deals = true ∨ ¬ μ.Deals .work) :
    Evolves (μ.actor .work) deals μ.machine μ.work.machine := by
  have waiting := waiting_of_isCoherent coherent
  have agenda := agenda_of_isCoherent coherent
  unfold actor Moment.work
  cases taken : μ.taken with
  | some step =>
      obtain ⟨slice, control⟩ := step
      have held : μ.held = some slice.fiber := by simp [Moment.held, taken]
      rw [held]
      refine Evolves.follow tidy (fun x ends => ?_) (fun w c wait asks row free => ?_)
        (other.imp_right fun calm x ends => calm (.inl ⟨slice, x, ends ▸ taken⟩))
      · subst ends
        have finishing := coherent
        unfold IsCoherent focus at finishing
        rw [taken] at finishing
        exact finishing
      have asking : μ.asking = some w := by
        simp [Moment.asking, focus, taken, asks, Control.focus]
      refine waiting.asker_owns held asking ?_
      rw [show μ.machine.core.owner w = wait.openOwner from Table.find_of_row _ row]
      simp [Wait.openOwner, free]
  | none =>
      cases running : μ.machine.running with
      | none =>
          have held : μ.held = none := by simp [Moment.held, taken, running]
          rw [held]
          exact Evolves.dispatch μ.machine
      | some slice =>
          have held : μ.held = some slice.fiber := by simp [Moment.held, taken, running]
          rw [held]
          obtain ⟨fiber, row, -⟩ := Table.exists_row_of_view (agenda.held_works held)
          have free : Evolves (some slice.fiber) deals μ.machine
            { μ.machine with running := none } :=
            Evolves.setRunning _ _
          refine free.trans (Evolves.stepRun (free.tidy tidy) ?_ _ _ ?_)
          · exact Option.isSome_iff_exists.2 ⟨fiber, row⟩
          · exact other.imp_right fun calm target how watches =>
              calm (.inr ⟨taken, slice, target, how, running, watches⟩)

/-- An event is a sequence of changes, which leave the books alone if the event does not deal with
ends. -/
theorem evolves_dealing (coherent : IsCoherent μ none none) (tidy : μ.machine.Tidy)
    (event : Event σ) (other : deals = true ∨ ¬ μ.Deals event) :
    Evolves (μ.actor event) deals μ.machine (μ.apply event).machine := by
  cases event with
  | start node => exact Evolves.startRoot _ node
  | request request => exact Evolves.serve _ request
  | host change => exact Evolves.setWorld _ _
  | receive =>
      simp only [apply, Machine.receive]
      split
      · exact Evolves.refl _
      · rename_i w x outside _
        have left : Evolves none deals μ.machine { μ.machine with outside } :=
          Evolves.rest rfl rfl rfl rfl rfl rfl rfl
        exact left.trans (Evolves.resumeCallback _ w x)
  | fire =>
      simp only [apply, Machine.fireNext]
      split
      · rename_i deadline w queue _
        have fired : Evolves none deals μ.machine { μ.machine with
            timers := { μ.machine.timers with queue }
            now := max μ.machine.now deadline.toNat } := Evolves.rest rfl rfl rfl rfl rfl rfl rfl
        exact fired.trans (Evolves.resume_null _ w)
      · exact Evolves.rest rfl rfl rfl rfl rfl rfl rfl
  | elapse instant => exact Evolves.rest rfl rfl rfl rfl rfl rfl rfl
  | takeResult g =>
      simp only [apply, Machine.takeResult]
      split
      · split
        · exact Evolves.rest rfl rfl rfl rfl rfl rfl rfl
        · exact Evolves.refl _
      · exact Evolves.refl _
  | work => exact evolves_work coherent tidy other

/-- An event is a sequence of changes. -/
theorem evolves (coherent : IsCoherent μ none none) (tidy : μ.machine.Tidy) (event : Event σ) :
    Evolves (μ.actor event) true μ.machine (μ.apply event).machine :=
  evolves_dealing coherent tidy event (.inl rfl)

/-- An event that does not deal with ends leaves the books alone. -/
theorem keepsBooks (coherent : IsCoherent μ none none) (tidy : μ.machine.Tidy) {event : Event σ}
    (calm : ¬ μ.Deals event) : μ.machine.KeepsBooks (μ.apply event).machine :=
  (evolves_dealing coherent tidy event (.inr calm)).keepsBooks

theorem tidy_initial (world : World σ) (budget : Nat) : (initial world budget).machine.Tidy := by
  refine ⟨fun row => ?_, ?_, ?_⟩
  · cases (Table.get?_empty _).symm.trans row
  · rintro w ⟨scope, layer, listed⟩
    have nothing : (initial world budget).machine.memo scope = [] := by
      simp [Machine.memo, initial, Machine.start]
    rw [nothing] at listed
    cases listed
  · rintro p ⟨g, group, row, -⟩
    cases (Table.get?_empty _).symm.trans row

theorem Reachable.tidy (reachable : Reachable μ) : μ.machine.Tidy := by
  induction reachable with
  | initial world budget => exact tidy_initial world budget
  | apply event reachable ih => exact (evolves reachable.isCoherent ih event).tidy ih

/-- The row of a fiber stays. -/
theorem Reachable.isSome_run (reachable : Reachable μ) (row : (μ.machine.fiber? f).isSome)
    (events : List (Event σ)) : ((μ.run events).machine.fiber? f).isSome := by
  induction events generalizing μ with
  | nil => exact row
  | cons event events ih =>
      have evolves := evolves reachable.isCoherent reachable.tidy event
      exact ih (reachable.apply event) (evolves.rows row)

/-- Marks stay. -/
theorem Reachable.stays_marked (reachable : Reachable μ) (marked : μ.machine.isInterrupted f = true)
    (events : List (Event σ)) : (μ.run events).machine.isInterrupted f = true := by
  induction events generalizing μ with
  | nil => exact marked
  | cons event events ih =>
      exact ih (reachable.apply event)
        ((evolves reachable.isCoherent reachable.tidy event).marked marked)

/-- The children of a marked fiber are marked. -/
theorem isInterrupted_of_child {c : FiberId} {fiber : Fiber σ} (coherent : IsCoherent μ none none)
    (row : μ.machine.fiber? f = some fiber) (mark : fiber.interrupted = true)
    (listed : c ∈ fiber.children) : μ.machine.isInterrupted c = true := by
  have kin : μ.machine.core.kin f = some fiber.kin := Table.view_of_row _ row
  have marked : μ.machine.core.marked f = some true :=
    (Table.view_of_row _ row).trans (congrArg some mark)
  have inherited := heirs_of_isCoherent coherent kin marked (by simp) listed
  obtain ⟨child, rowC, markC⟩ := Table.exists_row_of_view inherited
  rw [Machine.isInterrupted, show μ.machine.fiber? c = some child from rowC]
  exact markC

end Moment

end EffectFibers
