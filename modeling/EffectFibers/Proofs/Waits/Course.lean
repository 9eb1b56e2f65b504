import EffectFibers.Proofs.Waits.Events
import EffectFibers.Proofs.WakeUps
import Mathlib.Data.List.Induction

/-!
# The course of a wait

A fiber that waits goes on waiting until its wait is claimed, and the log tells by whom.  If it was
answered then the fiber has this exit, and goes on with it unless it is to be interrupted by then.
If an interrupt has claimed the wait then the fiber was outside every region, the canceler runs that
it had left, once, and the fiber goes on with the interrupt.

## Main definitions

* `Position.Awaits` – a fiber that waits.
* `Moment.Hears` – a fiber has an answer, or has gone on with it.
* `Moment.WaitCourse` – how a wait has gone so far, and the acts that have brought it about.

## Main statements

* `Moment.Reachable.course_of_awaits` – a wait takes one of these courses.
-/

namespace EffectFibers

variable {σ : Type}

/-- A fiber that waits: it has asked and has no answer yet, or it sleeps. -/
inductive Position.Awaits (run : RunState σ) (w : WaitId) (canceler : Canceler σ) :
    Position σ → Prop
  | asks : Awaits run w canceler (.stepped run (.suspend (.wait w canceler)) none)
  | sleeps : Awaits run w canceler (.asleep run (.wait w canceler))

theorem Position.Awaits.openWait? {run : RunState σ} {w : WaitId} {canceler : Canceler σ}
    {p : Position σ} (awaits : p.Awaits run w canceler) : p.openWait? = some w := by
  cases awaits <;> rfl

/-- An answer that comes to a fiber that waits. -/
theorem Fiber.told_of_awaits {fiber after : Fiber σ} {run : RunState σ} {w : WaitId}
    {canceler : Canceler σ} {grip : Option (RunState σ × Option (Control σ))} {x : Exit}
    (awaits : (fiber.positionOn grip).Awaits run w canceler)
    (kept : (Coherent.answered x fiber).Kept after) :
    (after.positionOn grip).told? = some (run, x) := by
  rw [Moment.positionOn_of_kept kept]
  generalize stands : fiber.positionOn grip = p at awaits
  rcases grip with _ | ⟨run', _ | control⟩
  · rw [positionOn, position] at stands
    split at stands
    · cases stands; cases awaits
    · cases stands; cases awaits
    · rename_i saved _ _
      cases stands
      cases awaits
      simp [positionOn, position, Coherent.answered, saved, Position.told?]
    · cases stands; cases awaits
  · cases stands
    cases awaits
  · rw [positionOn] at stands
    cases awaits with
    | asks =>
        obtain ⟨rfl, rfl, -⟩ := Position.stepped.inj stands
        rfl
    | sleeps => cases stands

namespace Moment

/-- A fiber has an answer, or has gone on with it.  A pending interrupt takes the place of the
answer, if no region is open by then. -/
inductive Hears (μ : Moment σ) (f : FiberId) (run : RunState σ) (x : Exit)
    (events : List (Event σ)) : Prop
  | told {p} (position : (μ.run events).position? f = some p) (told : p.told? = some (run, x))
  | resumed {before event later p} (split : events = before ++ event :: later)
    (position : (μ.run before).position? f = some p) (told : p.told? = some (run, x))
    (goesOn : ((μ.run before).apply event).position? f =
      some (.ready ((μ.run before).machine.afterWait f run x)))

/-- How a wait has gone so far that a fiber has entered, and the acts that have brought it about. -/
inductive WaitCourse (μ : Moment σ) (f : FiberId) (run : RunState σ) (w : WaitId)
    (canceler : Canceler σ) (events : List (Event σ)) : List (WaitAct σ) → Prop
  | waits {p} (position : (μ.run events).position? f = some p) (awaits : p.Awaits run w canceler) :
    WaitCourse μ f run w canceler events []
  | answered {x} (hears : μ.Hears f run x events) :
    WaitCourse μ f run w canceler events [.claims (.answer x)]
  | broken (free : run.shield = 0) (marked : (μ.run events).machine.isInterrupted f = true)
    (hears : μ.Hears f run .interrupted events) :
    WaitCourse μ f run w canceler events [.claims .interrupt, .cancels canceler]
  /-- The fiber notices the interrupt before it sleeps. -/
  | givesUp {before event later} (free : run.shield = 0)
    (marked : (μ.run before).machine.isInterrupted f = true)
    (split : events = before ++ event :: later)
    (asks : (μ.run before).position? f = some (.stepped run (.suspend (.wait w canceler)) none))
    (goesOn : ((μ.run before).apply event).position? f =
      some (.ready { run with next := .done .interrupted })) :
    WaitCourse μ f run w canceler events [.claims .interrupt, .cancels canceler]

variable {μ : Moment σ} {f : FiberId} {run : RunState σ} {w : WaitId} {canceler : Canceler σ}
  {events : List (Event σ)} {acts : List (WaitAct σ)} {x : Exit} {event : Event σ} {p : Position σ}

/-! ## Later events -/

/-- What a fiber hears later, seen from an earlier moment. -/
theorem Hears.after {later : List (Event σ)} (hears : (μ.run events).Hears f run x later) :
    μ.Hears f run x (events ++ later) := by
  cases hears with
  | told position told => exact .told (by rwa [run_append]) told
  | @resumed before event rest p split position told goesOn =>
      subst split
      rw [← run_append] at position goesOn
      exact .resumed (List.append_assoc ..).symm position told goesOn

theorem WaitCourse.after {later : List (Event σ)}
    (course : (μ.run events).WaitCourse f run w canceler later acts) :
    μ.WaitCourse f run w canceler (events ++ later) acts := by
  cases course with
  | waits position awaits => exact .waits (by rwa [run_append]) awaits
  | answered hears => exact .answered hears.after
  | broken free marked hears => exact .broken free (by rwa [run_append]) hears.after
  | @givesUp before event rest free marked split asks goesOn =>
      subst split
      rw [← run_append] at marked asks goesOn
      exact .givesUp free marked (List.append_assoc ..).symm asks goesOn

/-- Nobody else takes a fiber to the worker or off it. -/
theorem Reachable.grip_of_other (reachable : Reachable μ) {fiber : Fiber σ}
    (row : μ.machine.fiber? f = some fiber) (other : μ.actor event ≠ some f) :
    (μ.apply event).grip f = μ.grip f := by
  have coherent := reachable.isCoherent
  by_cases held : μ.held = some f
  · exact grip_after coherent reachable.tidy held other
  · rw [grip_eq_none_iff.2 held, grip_eq_none_iff]
    exact free_after coherent (reachable.apply event).isCoherent reachable.tidy row held other

/-- A fiber that waits and can be taken out of its wait sleeps. -/
theorem row_of_breakable {fiber : Fiber σ} {canceler' : Canceler σ}
    (coherent : IsCoherent μ none none) (row : μ.machine.fiber? f = some fiber)
    (position : μ.position? f = some p) (awaits : p.Awaits run w canceler)
    (breakable : fiber.breakable? = some (w, canceler')) : canceler' = canceler ∧ run.shield = 0 := by
  obtain ⟨suspended, asleep, run', saved, free⟩ := Fiber.breakable?_eq_some_iff.1 breakable
  cases awaits with
  | asks =>
      obtain ⟨fiber', slice, row', taken, own, -⟩ := taken_of_stepped position
      have held : μ.held = some f := by simp [Moment.held, taken, own]
      cases suspended.symm.trans (row_of_held coherent held row).1
  | sleeps =>
      obtain ⟨-, fiber', row', saved', -, asleep'⟩ := row_of_asleep position
      obtain rfl := Option.some.inj (row.symm.trans row')
      obtain rfl := Option.some.inj (saved.symm.trans saved')
      obtain ⟨-, rfl⟩ := Pending.wait.inj (Option.some.inj (asleep.symm.trans asleep'))
      exact ⟨rfl, free⟩

/-- A fiber that sleeps is neither on the worker nor in the queue. -/
theorem Reachable.other_of_asleep (reachable : Reachable μ) {pending : Pending σ}
    (position : μ.position? f = some (.asleep run pending)) (event : Event σ) :
    μ.actor event ≠ some f := by
  intro own
  obtain ⟨free, fiber, row, -, -, asleep⟩ := row_of_asleep position
  have suspended : fiber.status = .suspended :=
    (shaped_of_isCoherent reachable.isCoherent row).asleep.2 (by simp [asleep])
  cases event with
  | work =>
      rcases Option.or_eq_some_iff.1 own with held | ⟨-, first⟩
      · exact free held
      · have queued := (reachable.mem_ready_iff row).1 (List.mem_of_mem_head? first)
        cases suspended.symm.trans queued.1
  | _ => cases own

/-- What others do about a wait. -/
theorem Reachable.course_of_other (reachable : Reachable μ) (position : μ.position? f = some p)
    (awaits : p.Awaits run w canceler) (other : μ.actor event ≠ some f) :
    μ.WaitCourse f run w canceler [event] ((μ.waitLogAt event).on w) := by
  have coherent := reachable.isCoherent
  obtain ⟨fiber, pends⟩ := reachable.pends position awaits.openWait?
  have outcome := (accounts coherent reachable.tidy event).outcome other pends
  have grip := reachable.grip_of_other pends.row other
  have stood : (fiber.positionOn (μ.grip f)).Awaits run w canceler := by
    have same := (position?_of_row pends.row).symm.trans position
    exact Option.some.inj same ▸ awaits
  have stands : ∀ {after}, (μ.apply event).machine.fiber? f = some after →
      (μ.run [event]).position? f = some (after.positionOn (μ.grip f)) := by
    intro after row
    rw [← grip]
    exact position?_of_row row
  generalize (μ.waitLogAt event).on w = acts at outcome ⊢
  cases outcome with
  | pending row kept _ _ => exact .waits (stands row) (positionOn_of_kept kept _ ▸ stood)
  | answered row kept _ => exact .answered (.told (stands row) (Fiber.told_of_awaits stood kept))
  | broken row kept marked breakable _ =>
      obtain ⟨rfl, free⟩ := row_of_breakable coherent pends.row position awaits breakable
      exact .broken free ((Machine.isInterrupted_of_row row).trans marked)
        (.told (stands row) (Fiber.told_of_awaits stood kept))

/-- What a fiber does itself about a wait that it has just asked for: it gives the wait up if it
notices an interrupt, and goes to sleep otherwise. -/
theorem Reachable.work_of_asks (reachable : Reachable μ)
    (position : μ.position? f = some (.stepped run (.suspend (.wait w canceler)) none)) :
    ∃ slice, μ.taken = some (slice, .suspend (.wait w canceler)) ∧ slice.fiber = f ∧
      slice.run = run ∧ (μ.machine.fiber? f).bind (·.input) = none ∧ μ.machine.isOpen w = true ∧
      μ.work = { machine :=
        if μ.machine.interruptPending f run then
          { (μ.machine.claim w).2.runCanceler f canceler with
            running := some { slice with run := { slice.run with next := .done .interrupted } } }
        else μ.machine.suspend f run (.wait w canceler) } := by
  obtain ⟨fiber, slice, row, taken, rfl, rfl, silent⟩ := taken_of_stepped position
  have input : (μ.machine.fiber? slice.fiber).bind (·.input) = none := by rw [row]; exact silent
  have opened : μ.machine.isOpen w = true := by
    obtain ⟨fiber', pends⟩ := reachable.pends position rfl
    exact pends.isOpen
  refine ⟨slice, taken, rfl, rfl, input, opened, ?_⟩
  simp only [Moment.work, taken, Machine.follow, Machine.park, input, μ.machine.claim_fst, opened,
    if_true]

/-- In this way the wait takes its course. -/
theorem Reachable.course_of_own (reachable : Reachable μ)
    (position : μ.position? f = some (.stepped run (.suspend (.wait w canceler)) none)) :
    μ.WaitCourse f run w canceler [.work] ((μ.waitLogAt .work).on w) := by
  obtain ⟨fiber, -, row, -, -, -, silent⟩ := taken_of_stepped position
  obtain ⟨slice, taken, rfl, rfl, input, opened, work⟩ := reachable.work_of_asks position
  have idle := running_of_taken reachable.isCoherent taken
  replace work : μ.run [.work] = _ := work
  have log : (μ.waitLogAt .work) = μ.machine.parkLog slice (.wait w canceler) := by
    simp only [waitLogAt, taken, Machine.followLog]
  rw [log]
  unfold Machine.parkLog
  simp only [input, opened, Bool.and_true]
  cases noticed : μ.machine.interruptPending slice.fiber slice.run with
  | false =>
      refine .waits ?_ .sleeps
      rw [work, noticed]
      exact position?_suspend row silent idle slice.run (.wait w canceler)
  | true =>
      obtain ⟨free, marked⟩ : slice.run.shield = 0 ∧ μ.machine.isInterrupted slice.fiber = true := by
        simpa [Machine.interruptPending] using noticed
      rw [if_pos rfl, WaitLog.on_cons_self, WaitLog.on_cons_self]
      have split : [Event.work] = [] ++ Event.work (σ := σ) :: [] := rfl
      have begun : (μ.run []).machine.isInterrupted slice.fiber = true := marked
      refine .givesUp free begun split position ?_
      have core := Coherent.core_runCanceler (μ.machine.claim w).2 slice.fiber canceler
      have known : (((μ.machine.claim w).2.runCanceler slice.fiber canceler).fiber?
          slice.fiber).isSome := by
        have same := congrArg (fun core : Core σ => core.fibers.get? slice.fiber) core
        rw [show Machine.fiber? _ slice.fiber = _ from same]
        exact (congrArg Option.isSome ((μ.machine.fiber?_claim w slice.fiber).trans row)).trans rfl
      show (μ.run [.work]).position? slice.fiber = _
      rw [work, noticed, if_pos rfl]
      have stands : ∀ (n : Machine σ) (next : Slice σ), (n.fiber? slice.fiber).isSome →
          next.fiber = slice.fiber → (Moment.mk { n with running := some next } none).position?
            slice.fiber = some (.ready next.run) :=
        fun n next known own => position?_of_running known rfl rfl own
      exact stands _ { slice with run := { slice.run with next := .done .interrupted } } known rfl

/-- An event takes a wait its course. -/
theorem Reachable.course_of_awaits (reachable : Reachable μ) (position : μ.position? f = some p)
    (awaits : p.Awaits run w canceler) (event : Event σ) :
    μ.WaitCourse f run w canceler [event] ((μ.waitLogAt event).on w) := by
  by_cases other : μ.actor event ≠ some f
  · exact reachable.course_of_other position awaits other
  cases awaits with
  | asks =>
      cases event with
      | work => exact reachable.course_of_own position
      | _ => cases not_not.1 other
  | sleeps => exact absurd (reachable.other_of_asleep position event) other

/-- Whoever has an answer has no wait open. -/
theorem openWait?_of_told (told : p.told? = some (run, x)) : p.openWait? = none := by
  unfold Position.told? at told
  split at told
  · rfl
  · rfl
  · cases told

/-- An event in which something is done about a wait closes it. -/
theorem WaitCourse.closes (course : μ.WaitCourse f run w canceler [event] acts)
    (claims : acts ≠ []) : ∃ p, (μ.apply event).position? f = some p ∧ p.openWait? = none := by
  have single : ∀ {before event' later}, [event] = before ++ event' :: later →
      μ.run before = μ ∧ event' = event := by
    intro before event' later split
    rcases List.append_eq_singleton_iff.1 split.symm with ⟨rfl, same⟩ | ⟨-, none⟩
    · exact ⟨rfl, (List.cons.inj same).1⟩
    · cases none
  have heard : ∀ {x}, μ.Hears f run x [event] →
      ∃ p, (μ.apply event).position? f = some p ∧ p.openWait? = none := by
    intro x hears
    cases hears with
    | told position told => exact ⟨_, position, openWait?_of_told told⟩
    | resumed split _ _ goesOn =>
        obtain ⟨same, rfl⟩ := single split
        exact ⟨_, same ▸ goesOn, rfl⟩
  cases course with
  | waits => exact absurd rfl claims
  | answered hears => exact heard hears
  | broken _ _ hears => exact heard hears
  | givesUp _ _ split _ goesOn =>
      obtain ⟨same, rfl⟩ := single split
      exact ⟨_, same ▸ goesOn, rfl⟩

/-- A wait about which something is done has been claimed. -/
theorem Reachable.claimed_of_awaits (reachable : Reachable μ) (position : μ.position? f = some p)
    (awaits : p.Awaits run w canceler) (claims : (μ.waitLogAt event).on w ≠ []) :
    (μ.apply event).machine.Claimed w := by
  have coherent := reachable.isCoherent
  have coherent' := (reachable.apply event).isCoherent
  have opened := (openFor_iff coherent position).2 awaits.openWait?
  obtain ⟨p', position', closed⟩ := (reachable.course_of_awaits position awaits event).closes claims
  refine Machine.claimed_of_openFor opened (evolves coherent reachable.tidy event) fun still => ?_
  have waits := (openFor_iff coherent' position').1 still
  rw [closed] at waits
  cases waits

/-! ## A run -/

end Moment

end EffectFibers
