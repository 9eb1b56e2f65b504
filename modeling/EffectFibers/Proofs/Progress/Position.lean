import EffectFibers.Proofs.Changes.Bystander
import EffectFibers.Proofs.StructuredConcurrency

/-!
# Where a fiber stands with its program

Whatever happens in a machine, the program of a fiber moves in small steps of its own: it is ready,
it takes a step, and then something comes of the step.  It goes on at once or later, or it sleeps
until it is answered, or it is over.  What is left of the program changes in two places only: by the
step itself, and where an answer or an interrupt takes the place of what comes next.  Nobody else
can touch it.

## Main definitions

* `Stride` – a fiber that is about to take a step.
* `Position`, `Moment.position?` – where a fiber stands with its program.
* `Machine.Moves` – what may become of a position while its fiber takes no step.
-/

namespace EffectFibers

variable {σ : Type}

/-! ## Strides and positions -/

/-- A fiber that is about to take a step: the machine without its slice, and the slice. -/
structure Stride (σ : Type) where
  machine : Machine σ
  slice : Slice σ

namespace Stride

/-- The run whose layers the fiber uses. -/
def scope (s : Stride σ) : ScopeId := ((s.machine.fiber? s.slice.fiber).map (·.scope)).getD .none

/-- The step that the fiber takes. -/
def result (s : Stride σ) : StepResult σ :=
  s.machine.stepRun s.slice.fiber s.scope s.slice.run

end Stride

/-- Where a fiber stands with its program. -/
inductive Position (σ : Type)
  /-- Its next step is to come. -/
  | ready (run : RunState σ)
  /-- It has taken a step, and nothing has come of it yet but perhaps an answer. -/
  | stepped (run : RunState σ) (control : Control σ) (answer : Option Exit)
  | asleep (run : RunState σ) (pending : Pending σ)
  /-- It was asleep, or was about to be, and has an answer. -/
  | answered (run : RunState σ) (exit : Exit)
  | gone

/-- The rest of a program as its fiber keeps it. -/
def Position.run? : Position σ → Option (RunState σ)
  | .ready run | .stepped run _ _ | .asleep run _ | .answered run _ => some run
  | .gone => none

/-- Where a fiber stands that is not on the worker. -/
def Fiber.position (fiber : Fiber σ) : Position σ :=
  match fiber.run, fiber.input, fiber.pending with
  | none, _, _ => .gone
  | some run, some x, _ => .answered run x
  | some run, none, some pending => .asleep run pending
  | some run, none, none => .ready run

/-- Where a fiber stands, given what the worker has of it. -/
def Fiber.positionOn (fiber : Fiber σ) : Option (RunState σ × Option (Control σ)) → Position σ
  | some (run, some control) => .stepped run control fiber.input
  | some (run, none) => .ready run
  | none => fiber.position

namespace Moment

/-- The stride of a fiber that is the next thing that the worker does. -/
def stride? (μ : Moment σ) (f : FiberId) : Option (Stride σ) :=
  match μ.taken, μ.machine.running with
  | none, some slice =>
    if slice.fiber = f then some { machine := { μ.machine with running := none }, slice } else none
  | _, _ => none

/-- The stride that a fiber takes in an event. -/
def strideAt (μ : Moment σ) (f : FiberId) : Event σ → Option (Stride σ)
  | .work => μ.stride? f
  | _ => none

/-- The rest of a program that is on the worker, and the step that was taken. -/
def grip (μ : Moment σ) (f : FiberId) : Option (RunState σ × Option (Control σ)) :=
  match μ.taken, μ.machine.running with
  | some (slice, control), _ => if slice.fiber = f then some (slice.run, some control) else none
  | none, some slice => if slice.fiber = f then some (slice.run, none) else none
  | none, none => none

/-- Where a fiber stands with its program. -/
def position? (μ : Moment σ) (f : FiberId) : Option (Position σ) :=
  (μ.machine.fiber? f).map fun fiber => fiber.positionOn (μ.grip f)

end Moment

namespace Machine

/-- Why a sleeping fiber is answered, or one that is about to sleep: an interrupt takes it out of
its sleep, its wait has ended, or its group. -/
inductive Wakes (m : Machine σ) (f : FiberId) (run : RunState σ) : Pending σ → Exit → Prop
  | interrupt {w c} (mark : m.isInterrupted f = true) (free : run.shield = 0) :
    Wakes m f run (.wait w c) .interrupted
  | wait {w c wait x} (found : m.waits.get? w = some wait)
    (rightful : wait.source = .timer → x = .ok .null) : Wakes m f run (.wait w c) x
  | group {g x} : Wakes m f run (.group g) x

/-- What may become of a position in an event in which the fiber takes no step, from one machine to
another. -/
inductive Moves (m m' : Machine σ) (f : FiberId) : Position σ → Position σ → Prop
  | stays (p) : Moves m m' f p p
  | goesOn {run step} :
    Moves m m' f (.stepped run (.next step) none) (.ready { run with next := step })
  /-- A pending interrupt takes the place of an evaluation at the end of a slice. -/
  | noticed {run node} (notices : m.interruptPending f run = true) (plain : node.isGuard = false) :
    Moves m m' f (.stepped run (.next (.eval node)) none)
      (.ready { run with next := .done .interrupted })
  | yields {run step} :
    Moves m m' f (.stepped run (.yield step) none) (.ready { run with next := step })
  | hears {run pending x} (why : m'.Wakes f run pending x) :
    Moves m m' f (.stepped run (.suspend pending) none) (.stepped run (.suspend pending) (some x))
  | sleeps {run pending} : Moves m m' f (.stepped run (.suspend pending) none) (.asleep run pending)
  | givesUp {run w c} (notices : m.interruptPending f run = true) :
    Moves m m' f (.stepped run (.suspend (.wait w c)) none)
      (.ready { run with next := .done .interrupted })
  | takes {run pending x} :
    Moves m m' f (.stepped run (.suspend pending) (some x)) (.ready (m.afterWait f run x))
  | ends {run x} : Moves m m' f (.stepped run (.finish x) none) .gone
  | wakes {run pending x} (why : m'.Wakes f run pending x) :
    Moves m m' f (.asleep run pending) (.answered run x)
  | resumes {run x} : Moves m m' f (.answered run x) (.ready (m.afterWait f run x))

end Machine

/-! ## Fibers that others act beside -/

namespace Moment

variable {μ : Moment σ} {f : FiberId} {fiber : Fiber σ} {event : Event σ}

theorem held_of_grip {grip : RunState σ × Option (Control σ)} (gripped : μ.grip f = some grip) :
    μ.held = some f := by
  unfold Moment.grip at gripped
  unfold held
  cases taken : μ.taken with
  | some step =>
      obtain ⟨slice, control⟩ := step
      simp only [taken, Option.ite_none_right_eq_some] at gripped ⊢
      rw [gripped.1]
  | none =>
      cases running : μ.machine.running with
      | none => simp [taken, running] at gripped
      | some slice =>
          simp only [taken, running, Option.ite_none_right_eq_some] at gripped ⊢
          rw [Option.map_some, gripped.1]

theorem grip_eq_none_iff : μ.grip f = none ↔ μ.held ≠ some f := by
  constructor
  · intro free held
    unfold Moment.grip at free
    unfold Moment.held at held
    cases taken : μ.taken with
    | some step => simp_all
    | none => cases running : μ.machine.running <;> simp_all
  · intro free
    cases grip : μ.grip f with
    | none => rfl
    | some grip => exact absurd (held_of_grip grip) free

theorem shaped_of_isCoherent (coherent : IsCoherent μ none none)
    (row : μ.machine.fiber? f = some fiber) : fiber.Shaped := coherent.shaped row

/-- While a step is not followed up, the worker has no slice. -/
theorem running_of_taken (coherent : IsCoherent μ none none) {step : Slice σ × Control σ}
    (taken : μ.taken = some step) : μ.machine.running = none := by
  have worker := coherent.worker
  unfold focus Control.focus at worker
  rw [taken] at worker
  simp only [Machine.core] at worker
  split at worker <;> simpa using worker

/-- The row of the fiber on the worker. -/
theorem row_of_held (coherent : IsCoherent μ none none) (held : μ.held = some f)
    (row : μ.machine.fiber? f = some fiber) :
    fiber.status = .running ∧ fiber.run = none ∧ fiber.pending = none ∧ fiber.closing = none := by
  have task := (agenda_of_isCoherent coherent).held_works held
  rw [show μ.machine.core.task f = some fiber.task from Table.view_of_row _ row,
    Option.some.injEq, Fiber.task_eq_working_iff] at task
  obtain ⟨running, unsaved, going⟩ := task
  exact ⟨running, unsaved, (shaped_of_isCoherent coherent row).pending_of_running running, going⟩

/-- A wait that is open for a fiber: the fiber sleeps on it, or it has asked on the worker. -/
theorem openFor_cases (coherent : IsCoherent μ none none) (row : μ.machine.fiber? f = some fiber)
    {w : WaitId} (opened : μ.machine.OpenFor f w) :
    fiber.sleepsOn = some w ∨ μ.held = some f ∧ μ.asking = some w ∧ fiber.input = none := by
  obtain ⟨wait, found, free, owner⟩ := opened
  have own : μ.machine.core.owner w = some f :=
    (Table.find_of_row Wait.openOwner found).trans (by simp [Wait.openOwner, free, owner])
  rcases (waiting_of_isCoherent coherent).of_owner own with asleep | ⟨held, asking, silent⟩
  · exact .inl ((Table.find_of_row Fiber.sleepsOn row).symm.trans asleep)
  · exact .inr ⟨held, asking, (Table.find_of_row Fiber.input row).symm.trans silent⟩

/-- A fiber expects the end of what it sleeps on. -/
theorem expects_of_shaped (shaped : fiber.Shaped) : Machine.Expects fiber fiber.sleepsOn := by
  refine ⟨shaped.pending_of_running, fun pending sleeps => ?_, fun closing => ?_⟩
  · rw [Fiber.sleepsOn, sleeps]
    rfl
  · obtain ⟨running, -⟩ := shaped.closed closing
    have awake := shaped.pending_of_running running
    exact ⟨running, by rw [Fiber.sleepsOn, awake]; rfl⟩

/-- Others act beside a fiber that is not on the worker. -/
theorem beside_of_saved (coherent : IsCoherent μ none none) (tidy : μ.machine.Tidy)
    (row : μ.machine.fiber? f = some fiber) (free : μ.held ≠ some f)
    (other : μ.actor event ≠ some f) :
    Machine.Beside f fiber fiber.sleepsOn (μ.apply event).machine := by
  refine (Machine.Beside.of_row row fun w opened => ?_).evolves
    (expects_of_shaped (shaped_of_isCoherent coherent row)) (evolves coherent tidy event) other
  rcases openFor_cases coherent row opened with asleep | ⟨held, -⟩
  · exact asleep
  · exact absurd held free

/-- Others act beside the fiber on the worker. -/
theorem beside_of_held (coherent : IsCoherent μ none none) (tidy : μ.machine.Tidy)
    (row : μ.machine.fiber? f = some fiber) (held : μ.held = some f)
    (other : μ.actor event ≠ some f) :
    Machine.Beside f fiber (if fiber.input.isSome then none else μ.asking)
      (μ.apply event).machine := by
  obtain ⟨running, -, awake, going⟩ := row_of_held coherent held row
  refine (Machine.Beside.of_row row fun w opened => ?_).evolves ?_
    (evolves coherent tidy event) other
  · rcases openFor_cases coherent row opened with asleep | ⟨-, asking, silent⟩
    · simp [Fiber.sleepsOn, awake] at asleep
    · simp [silent, asking]
  · exact { awake := fun _ => awake, sleeps := by simp [awake], closing := by simp [going] }

/-- Who is not on the worker does not get there by what others do. -/
theorem free_after (coherent : IsCoherent μ none none)
    (coherent' : IsCoherent (μ.apply event) none none)
    (tidy : μ.machine.Tidy) (row : μ.machine.fiber? f = some fiber) (free : μ.held ≠ some f)
    (other : μ.actor event ≠ some f) : (μ.apply event).held ≠ some f := by
  intro held'
  -- off the worker its row does not say that it works, and what others do does not change that
  have idle : fiber.task ≠ .working := fun working => by
    have task : μ.machine.core.task f = some .working :=
      (Table.view_of_row _ row).trans (congrArg some working)
    rcases (agenda_of_isCoherent coherent).working task with held | leaving
    · exact free held
    · cases leaving
  rw [Ne, Fiber.task_eq_working_iff] at idle
  have shaped := shaped_of_isCoherent coherent row
  cases beside_of_saved coherent tidy row free other with
  | spared row' kept _ _ =>
      obtain ⟨running, unsaved, -, going⟩ := row_of_held coherent' held' row'
      have going' := kept.closing
      rw [going, Option.isSome_none, eq_comm, Option.isSome_eq_false_iff,
        Option.isNone_iff_eq_none] at going'
      exact idle ⟨kept.status ▸ running, kept.run ▸ unsaved, going'⟩
  | answered row' kept why _ _ =>
      obtain ⟨running, unsaved, -, -⟩ := row_of_held coherent' held' row'
      have saved : fiber.run = none := kept.run ▸ unsaved
      have asleep : fiber.pending.isSome := by
        cases why with
        | interrupt _ breakable =>
            obtain ⟨⟨w, c⟩, breakable⟩ := Option.isSome_iff_exists.1 breakable
            simp [(Fiber.breakable?_eq_some_iff.1 breakable).2.1]
        | wait asked _ _ =>
            obtain ⟨pending, sleeps, -⟩ := Option.bind_eq_some_iff.1 asked
            simp [sleeps]
        | group asleep => simp [asleep]
      have parked := (shaped.parked (shaped.asleep.2 asleep)).1
      simp [saved] at parked
  | @ended _ x row' _ kept _ =>
      obtain ⟨running, -⟩ := row_of_held coherent' held' row'
      have gone := kept.status.symm.trans running
      rcases x with (_ | _ | _) | _ <;> cases gone

/-! ## Positions in an event of someone else -/

theorem position_of_kept {after : Fiber σ} (kept : fiber.Kept after) :
    after.position = fiber.position := by
  unfold Fiber.position
  rw [kept.run, kept.input, kept.pending]

theorem positionOn_of_kept {after : Fiber σ} (kept : fiber.Kept after)
    (grip : Option (RunState σ × Option (Control σ))) :
    after.positionOn grip = fiber.positionOn grip := by
  unfold Fiber.positionOn
  rw [kept.input, position_of_kept kept]

/-- A fiber that sleeps on something. -/
theorem position_of_pending {pending : Pending σ} (shaped : fiber.Shaped)
    (sleeps : fiber.pending = some pending) :
    ∃ run, fiber.run = some run ∧ fiber.position = .asleep run pending := by
  obtain ⟨saved, silent⟩ := shaped.parked (shaped.asleep.2 (by simp [sleeps]))
  obtain ⟨run, saved⟩ := Option.isSome_iff_exists.1 saved
  exact ⟨run, saved, by simp [Fiber.position, saved, silent, sleeps]⟩

/-- A sleeping fiber that is answered sleeps on what has ended. -/
theorem wakes_of_answers {m : Machine σ} {x : Exit} (shaped : fiber.Shaped)
    (why : m.Answers f fiber fiber.sleepsOn x) :
    ∃ run pending, fiber.run = some run ∧ fiber.position = .asleep run pending ∧
      m.Wakes f run pending x := by
  cases why with
  | interrupt mark breakable =>
      obtain ⟨⟨w, c⟩, breakable⟩ := Option.isSome_iff_exists.1 breakable
      obtain ⟨-, sleeps, run, saved, free⟩ := Fiber.breakable?_eq_some_iff.1 breakable
      obtain ⟨run', saved', position⟩ := position_of_pending shaped sleeps
      obtain rfl := Option.some.inj (saved.symm.trans saved')
      exact ⟨run, _, saved, position, .interrupt mark free⟩
  | wait asked found rightful =>
      obtain ⟨pending, sleeps, known⟩ := Option.bind_eq_some_iff.1 asked
      obtain ⟨run, saved, position⟩ := position_of_pending shaped sleeps
      refine ⟨run, pending, saved, position, ?_⟩
      cases pending with
      | wait v c => exact .wait (Option.some.inj known ▸ found) rightful
      | group g => cases known
  | group asleep =>
      obtain ⟨run, saved, position⟩ := position_of_pending shaped asleep
      exact ⟨run, _, saved, position, .group⟩

theorem position?_of_row (row : μ.machine.fiber? f = some fiber) :
    μ.position? f = some (fiber.positionOn (μ.grip f)) := by
  rw [position?, row]
  rfl

theorem position?_of_saved (row : μ.machine.fiber? f = some fiber) (free : μ.held ≠ some f) :
    μ.position? f = some fiber.position := by
  rw [position?_of_row row, grip_eq_none_iff.2 free]
  rfl

/-- What others do moves a fiber that is not on the worker. -/
theorem moves_of_saved (coherent : IsCoherent μ none none)
    (coherent' : IsCoherent (μ.apply event) none none) (tidy : μ.machine.Tidy)
    (row : μ.machine.fiber? f = some fiber) (free : μ.held ≠ some f)
    (other : μ.actor event ≠ some f) :
    ∃ p, (μ.apply event).position? f = some p ∧
      μ.machine.Moves (μ.apply event).machine f fiber.position p := by
  have free' := free_after coherent coherent' tidy row free other
  have shaped := shaped_of_isCoherent coherent row
  cases beside_of_saved coherent tidy row free other with
  | spared row' kept _ _ =>
      refine ⟨_, position?_of_saved row' free', ?_⟩
      rw [position_of_kept kept]
      exact .stays _
  | @answered after x row' kept why _ _ =>
      obtain ⟨run, pending, saved, position, wakes⟩ := wakes_of_answers shaped why
      refine ⟨.answered run x, ?_, ?_⟩
      · rw [position?_of_saved row' free', position_of_kept kept]
        simp [Fiber.position, Coherent.answered, saved]
      · rw [position]
        exact .wakes wakes
  | @ended after x row' closing kept _ =>
      refine ⟨_, position?_of_saved row' free', ?_⟩
      have gone : fiber.position = .gone := by
        simp [Fiber.position, (shaped.closed closing).2.1]
      rw [position_of_kept kept, gone]
      exact .stays _

/-- Nobody else takes a fiber off the worker. -/
theorem grip_after (coherent : IsCoherent μ none none) (tidy : μ.machine.Tidy)
    (held : μ.held = some f) (other : μ.actor event ≠ some f) :
    (μ.apply event).grip f = μ.grip f := by
  have evolves := evolves coherent tidy event
  cases event with
  | work =>
      refine absurd ?_ other
      rw [actor, held]
      rfl
  | _ =>
      have running : (μ.apply _).machine.running = μ.machine.running := evolves.running
      unfold Moment.grip
      rw [running]
      rfl

/-- An exit that a fiber on the worker gets answers what it has just asked for. -/
theorem asked_of_answers (running : fiber.status = .running)
    (awake : fiber.pending = none) {m : Machine σ} {x : Exit}
    (why : m.Answers f fiber (if fiber.input.isSome then none else μ.asking) x) :
    fiber.input = none ∧ ∃ slice w c, μ.taken = some (slice, .suspend (.wait w c)) ∧
      m.Wakes f slice.run (.wait w c) x := by
  cases why with
  | interrupt _ breakable => simp [Fiber.breakable?, running] at breakable
  | wait asked found rightful =>
      cases silent : fiber.input with
      | some y => simp [silent] at asked
      | none =>
          simp only [silent, Option.isSome_none, Bool.false_eq_true, if_false] at asked
          refine ⟨rfl, ?_⟩
          unfold asking focus Control.focus at asked
          split at asked
          · rename_i slice control taken
            split at asked
            · rename_i w c
              obtain rfl := Option.some.inj asked
              exact ⟨slice, w, c, taken, .wait found rightful⟩
            · cases asked
            · cases asked
          · cases asked
  | group asleep => cases awake.symm.trans asleep

/-- What others do moves a fiber that is on the worker. -/
theorem moves_of_held (coherent : IsCoherent μ none none) (tidy : μ.machine.Tidy)
    {p : Position σ} (position : μ.position? f = some p) (held : μ.held = some f)
    (other : μ.actor event ≠ some f) :
    ∃ p', (μ.apply event).position? f = some p' ∧
      μ.machine.Moves (μ.apply event).machine f p p' := by
  obtain ⟨fiber, row, rfl⟩ := Option.map_eq_some_iff.1 position
  obtain ⟨running, unsaved, awake, going⟩ := row_of_held coherent held row
  have grip := grip_after coherent tidy held other
  cases beside_of_held coherent tidy row held other with
  | spared row' kept _ _ =>
      refine ⟨_, position?_of_row row', ?_⟩
      rw [grip, positionOn_of_kept kept]
      exact .stays _
  | @answered after x row' kept why _ _ =>
      obtain ⟨silent, slice, w, c, taken, wakes⟩ := asked_of_answers running awake why
      have gripped : μ.grip f = some (slice.run, some (.suspend (.wait w c))) := by
        have own : slice.fiber = f := by simpa [Moment.held, taken] using held
        simp [Moment.grip, taken, own]
      refine ⟨_, position?_of_row row', ?_⟩
      rw [grip, gripped, Fiber.positionOn, Fiber.positionOn, silent, kept.input]
      exact .hears wakes
  | ended row' closing _ _ =>
      rw [going] at closing
      cases closing

/-! ## Positions in an event of the fiber itself -/

theorem position?_of_running {slice : Slice σ} (row : (μ.machine.fiber? f).isSome)
    (free : μ.taken = none) (running : μ.machine.running = some slice) (own : slice.fiber = f) :
    μ.position? f = some (.ready slice.run) := by
  obtain ⟨fiber, row⟩ := Option.isSome_iff_exists.1 row
  rw [position?_of_row row]
  simp [Moment.grip, free, running, own, Fiber.positionOn]

theorem position?_of_idle (row : μ.machine.fiber? f = some fiber) (free : μ.taken = none)
    (idle : μ.machine.running = none) : μ.position? f = some fiber.position := by
  rw [position?_of_row row]
  simp [Moment.grip, free, idle, Fiber.positionOn]

/-- Only what a fiber has asked for is answered before it sleeps. -/
theorem silent_of_taken (coherent : IsCoherent μ none none) {slice : Slice σ} {control : Control σ}
    (taken : μ.taken = some (slice, control)) (row : μ.machine.fiber? slice.fiber = some fiber)
    (other : ∀ w c, control ≠ .suspend (.wait w c)) : fiber.input = none := by
  have waiting := waiting_of_isCoherent coherent
  by_contra answered
  have asking := waiting.held_input (f := slice.fiber) (by simp [Moment.held, taken])
    (by rwa [show μ.machine.core.input slice.fiber = fiber.input from Table.find_of_row _ row])
  unfold Moment.asking focus Control.focus at asking
  rw [taken] at asking
  dsimp only at asking
  split at asking
  · exact other _ _ rfl
  · exact asking rfl
  · exact asking rfl

variable {m : Machine σ} {run : RunState σ}

/-- A fiber that is put at the back of the queue. -/
theorem position?_requeue (row : m.fiber? f = some fiber) (silent : fiber.input = none)
    (awake : fiber.pending = none) (idle : m.running = none) (run : RunState σ) :
    (Moment.mk (m.requeue f run) none).position? f = some (.ready run) := by
  have row' : (m.requeue f run).fiber? f = some { fiber with run := some run } := by
    show (m.modifyFiber f _).fiber? f = _
    rw [Machine.fiber?_modifyFiber, if_pos rfl, row]
    rfl
  rw [position?_of_idle row' rfl (show (m.requeue f run).running = none from idle)]
  simp [Fiber.position, silent, awake]

/-- A fiber that is put to sleep. -/
theorem position?_suspend (row : m.fiber? f = some fiber) (silent : fiber.input = none)
    (idle : m.running = none) (run : RunState σ) (pending : Pending σ) :
    (Moment.mk (m.suspend f run pending) none).position? f = some (.asleep run pending) := by
  have row' : (m.suspend f run pending).fiber? f =
      some { fiber with run := some run, pending := some pending, status := .suspended } := by
    unfold Machine.suspend
    rw [Machine.fiber?_modifyFiber, if_pos rfl, row]
    rfl
  rw [position?_of_idle row' rfl (show (m.suspend f run pending).running = none from idle)]
  simp [Fiber.position, silent]

/-- A step that goes on by itself. -/
theorem moves_of_next (coherent : IsCoherent μ none none) {slice : Slice σ} {step : Step σ}
    (taken : μ.taken = some (slice, .next step))
    (row : μ.machine.fiber? slice.fiber = some fiber) {m' : Machine σ} :
    ∃ p, (Moment.mk (μ.machine.follow slice (.next step)) none).position? slice.fiber = some p ∧
      μ.machine.Moves m' slice.fiber (.stepped slice.run (.next step) fiber.input) p := by
  have held : μ.held = some slice.fiber := by simp [Moment.held, taken]
  obtain ⟨running, unsaved, awake, going⟩ := row_of_held coherent held row
  have silent := silent_of_taken coherent taken row (by simp)
  have idle := running_of_taken coherent taken
  rw [silent]
  simp only [Machine.follow]
  split
  · refine ⟨_, position?_requeue row silent awake idle _, ?_⟩
    cases step with
    | eval node =>
        simp only [Machine.observeAtRequeue]
        split
        · rename_i notices
          rw [Bool.and_eq_true, Bool.not_eq_true'] at notices
          exact .noticed notices.1 notices.2
        · exact .goesOn
    | done x => exact .goesOn
  · have known : (μ.machine.fiber? slice.fiber).isSome := by simp [row]
    exact ⟨_, position?_of_running (by exact known) rfl rfl rfl, .goesOn⟩

/-- A step that asks for an answer. -/
theorem moves_of_suspend (coherent : IsCoherent μ none none) {slice : Slice σ} {pending : Pending σ}
    (taken : μ.taken = some (slice, .suspend pending))
    (row : μ.machine.fiber? slice.fiber = some fiber) {m' : Machine σ} :
    ∃ p, (Moment.mk (μ.machine.follow slice (.suspend pending)) none).position? slice.fiber =
        some p ∧
      μ.machine.Moves m' slice.fiber (.stepped slice.run (.suspend pending) fiber.input) p := by
  have idle := running_of_taken coherent taken
  have known : (μ.machine.fiber? slice.fiber).isSome := by simp [row]
  have input : (μ.machine.fiber? slice.fiber).bind (·.input) = fiber.input := by rw [row]; rfl
  simp only [Machine.follow, Machine.park, input]
  cases answer : fiber.input with
  | some x =>
      refine ⟨_, position?_of_running ?_ rfl rfl rfl, .takes⟩
      show ((μ.machine.modifyFiber slice.fiber _).fiber? slice.fiber).isSome
      rw [Machine.fiber?_modifyFiber, if_pos rfl, row]
      rfl
  | none =>
      cases pending with
      | group g => exact ⟨_, position?_suspend row answer idle _ _, .sleeps⟩
      | wait w c =>
          have asleep := position?_suspend row answer idle slice.run (.wait w c)
          simp only
          split
          · rename_i notices
            have row' := (μ.machine.fiber?_claim w slice.fiber).trans row
            have idle' := (μ.machine.spares_claim w).running.trans idle
            generalize μ.machine.claim w = result at row' idle'
            obtain ⟨won, m⟩ := result
            cases won with
            | true =>
                -- the fiber has taken its wait back before anybody could answer it
                refine ⟨_, position?_of_running ?_ rfl rfl rfl, .givesUp notices⟩
                have same := congrArg (fun core : Core σ => core.fibers.get? slice.fiber)
                  (Coherent.core_runCanceler m slice.fiber c)
                exact (congrArg Option.isSome (same.trans row')).trans rfl
            | false => exact ⟨_, position?_suspend row' answer idle' _ _, .sleeps⟩
          · exact ⟨_, asleep, .sleeps⟩

/-- When a program has its exit, its fiber has no more steps to take. -/
theorem position?_finish (reachable : Reachable μ) {slice : Slice σ} {x : Exit}
    (taken : μ.taken = some (slice, .finish x)) :
    (μ.apply .work).position? slice.fiber = some .gone := by
  have coherent' := (reachable.apply .work).isCoherent
  have concluded := reachable.concluded taken []
  rw [run_nil] at concluded
  have work : μ.apply .work = { machine := μ.machine.finish slice.fiber x } := by
    show μ.work = _
    simp only [Moment.work, taken, Machine.follow]
  have gone : ∀ {fiber}, (μ.apply .work).machine.fiber? slice.fiber = some fiber →
      fiber.run = none → (μ.apply .work).held ≠ some slice.fiber →
      (μ.apply .work).position? slice.fiber = some .gone := by
    intro fiber row unsaved free
    rw [position?_of_saved row free]
    simp [Fiber.position, unsaved]
  -- either way nothing of the program is saved, and a fiber on the worker neither waits for
  -- children nor has a terminal status
  cases concluded with
  | draining row live waits keeps started childLive =>
      refine gone row ((shaped_of_isCoherent coherent' row).closed (by simp [waits])).2.1
        fun held => ?_
      have going := (row_of_held coherent' held row).2.2.2
      cases going.symm.trans waits
  | ended row status once =>
      have terminal : Exit.status x |>.isTerminal := by
        rcases x with (_ | _ | _) | _ <;> rfl
      refine gone row ((shaped_of_isCoherent coherent' row).ended (status ▸ terminal)).1
        fun held => ?_
      rw [← status, (row_of_held coherent' held row).1] at terminal
      cases terminal

/-- What comes of a step moves its fiber. -/
theorem moves_of_taken (reachable : Reachable μ) {slice : Slice σ} {control : Control σ}
    (taken : μ.taken = some (slice, control))
    (row : μ.machine.fiber? slice.fiber = some fiber) :
    ∃ p, (μ.apply .work).position? slice.fiber = some p ∧
      μ.machine.Moves (μ.apply .work).machine slice.fiber
        (.stepped slice.run control fiber.input) p := by
  have coherent := reachable.isCoherent
  have work : μ.apply .work = { machine := μ.machine.follow slice control } := by
    show μ.work = _
    simp only [Moment.work, taken]
  cases control with
  | next step =>
      rw [work]
      exact moves_of_next coherent taken row
  | yield step =>
      have held : μ.held = some slice.fiber := by simp [Moment.held, taken]
      obtain ⟨-, -, awake, -⟩ := row_of_held coherent held row
      have silent := silent_of_taken coherent taken row (by simp)
      rw [work, silent]
      exact ⟨_, position?_requeue row silent awake (running_of_taken coherent taken) _, .yields⟩
  | suspend pending =>
      rw [work]
      exact moves_of_suspend coherent taken row
  | finish x =>
      refine ⟨_, position?_finish reachable taken, ?_⟩
      rw [silent_of_taken coherent taken row (by simp)]
      exact .ends

/-- A slice begins. -/
theorem moves_of_dispatch (coherent : IsCoherent μ none none) (free : μ.taken = none)
    (idle : μ.machine.running = none) (first : μ.machine.ready.toList.head? = some f)
    (row : μ.machine.fiber? f = some fiber) :
    ∃ p, (μ.apply .work).position? f = some p ∧
      μ.machine.Moves (μ.apply .work).machine f fiber.position p := by
  have task := (agenda_of_isCoherent coherent).mem_iff.1
    (by simpa using List.mem_of_mem_head? first : f ∈ μ.machine.ready.toList ++ [])
  rw [show μ.machine.core.task f = some fiber.task from Table.view_of_row _ row,
    Option.some.injEq, Fiber.task_eq_runnable_iff] at task
  obtain ⟨running, saved⟩ := task
  obtain ⟨run, saved⟩ := Option.isSome_iff_exists.1 saved
  have awake := (shaped_of_isCoherent coherent row).pending_of_running running
  obtain ⟨ready, pop⟩ := ReadyQueue.exists_pop_of_head? first
  have row' : μ.machine.fibers.get? f = some fiber := row
  have kept : (μ.work.machine.fiber? f).isSome := by
    simp only [Moment.work, free, idle, Machine.dispatch, pop, Machine.fiber?, row', saved]
    show ((Table.modify μ.machine.fibers f _).get? f).isSome
    rw [Table.get?_modify, if_pos rfl, row']
    rfl
  have none : μ.work.taken = none := by simp only [Moment.work, free, idle]
  cases answer : fiber.input with
  | none =>
      have begun : μ.work.machine.running =
          some { fiber := f, run, budget := μ.machine.stepBudget } := by
        simp only [Moment.work, free, idle, Machine.dispatch, pop, Machine.fiber?, row', saved,
          answer]
        rfl
      refine ⟨_, position?_of_running kept none begun rfl, ?_⟩
      simp only [Fiber.position, saved, answer, awake]
      exact .stays _
  | some x =>
      have begun : μ.work.machine.running =
          some {
            fiber := f, run := μ.machine.afterWait f run x, budget := μ.machine.stepBudget } := by
        simp only [Moment.work, free, idle, Machine.dispatch, pop, Machine.fiber?, row', saved,
          answer]
        rfl
      refine ⟨_, position?_of_running kept none begun rfl, ?_⟩
      simp only [Fiber.position, saved, answer]
      exact .resumes

/-! ## Any event -/

theorem strideAt_eq_some_iff {s : Stride σ} : μ.strideAt f event = some s ↔
    event = .work ∧ μ.taken = none ∧ μ.machine.running = some s.slice ∧ s.slice.fiber = f ∧
      s.machine = { μ.machine with running := none } := by
  obtain ⟨m, slice⟩ := s
  unfold strideAt stride?
  cases event <;> grind

/-- A fiber that takes a step was ready for it. -/
theorem Reachable.stride (reachable : Reachable μ) {s : Stride σ}
    (stride : μ.strideAt f event = some s) :
    s.slice.fiber = f ∧ μ.position? f = some (.ready s.slice.run) ∧
      ∃ answer, (μ.apply event).position? f =
        some (.stepped s.result.run s.result.control answer) ∧
        ((∀ w c, s.result.control ≠ .suspend (.wait w c)) → answer = none) := by
  obtain ⟨rfl, free, running, own, same⟩ := strideAt_eq_some_iff.1 stride
  have coherent := reachable.isCoherent
  have coherent' := (reachable.apply .work).isCoherent
  have held : μ.held = some f := by simp [Moment.held, free, running, own]
  obtain ⟨fiber, row, -⟩ :=
    Table.exists_row_of_view ((agenda_of_isCoherent coherent).held_works held)
  have known : (μ.machine.fiber? f).isSome := Option.isSome_iff_exists.2 ⟨fiber, row⟩
  have work : μ.apply .work = s.machine.takeStep s.slice := by
    show μ.work = _
    simp only [Moment.work, free, running, same]
  have taken : (μ.apply .work).taken =
    some ({ s.slice with run := s.result.run }, s.result.control) := by
    rw [work]
    rfl
  obtain ⟨after, row'⟩ :=
    Option.isSome_iff_exists.1 ((evolves coherent reachable.tidy .work).rows known)
  refine ⟨own, position?_of_running known free running own, after.input, ?_, fun other => ?_⟩
  · rw [position?_of_row row']
    simp [Moment.grip, taken, own, Fiber.positionOn]
  · exact silent_of_taken coherent' taken (own ▸ row') other

/-- A fiber that is not ready takes no step. -/
theorem Reachable.still_of_unready (reachable : Reachable μ)
    (unready : ∀ run, μ.position? f ≠ some (.ready run)) (event : Event σ) :
    μ.strideAt f event = none := by
  cases stride : μ.strideAt f event with
  | none => rfl
  | some s => exact absurd (reachable.stride stride).2.1 (unready _)

/-- While a fiber takes no step, its position only moves. -/
theorem Reachable.moves (reachable : Reachable μ) {p : Position σ}
    (position : μ.position? f = some p) (still : μ.strideAt f event = none) :
    ∃ p', (μ.apply event).position? f = some p' ∧
      μ.machine.Moves (μ.apply event).machine f p p' := by
  have coherent := reachable.isCoherent
  have tidy := reachable.tidy
  obtain ⟨fiber, row, rfl⟩ := Option.map_eq_some_iff.1 position
  by_cases own : μ.actor event = some f
  · -- the worker has to do with the fiber, and it is not about to step it
    cases event with
    | work =>
        cases taken : μ.taken with
        | some step =>
            obtain ⟨slice, control⟩ := step
            obtain rfl : slice.fiber = f := by simpa [actor, Moment.held, taken] using own
            have grip : μ.grip slice.fiber = some (slice.run, some control) := by
              simp [Moment.grip, taken]
            rw [grip]
            exact moves_of_taken reachable taken row
        | none =>
            cases running : μ.machine.running with
            | some slice =>
                have here : slice.fiber = f := by
                  simpa [actor, Moment.held, taken, running] using own
                simp [strideAt, stride?, taken, running, here] at still
            | none =>
                have first : μ.machine.ready.toList.head? = some f := by
                  simpa [actor, Moment.held, taken, running] using own
                have grip : μ.grip f = none := by simp [Moment.grip, taken, running]
                rw [grip]
                exact moves_of_dispatch coherent taken running first row
    | _ => cases own
  · by_cases held : μ.held = some f
    · exact moves_of_held coherent tidy position held own
    · rw [grip_eq_none_iff.2 held]
      exact moves_of_saved coherent (reachable.apply event).isCoherent tidy row held own

/-- Nobody has anything to do with a fiber that there is not yet. -/
theorem unborn_of_missing (coherent : IsCoherent μ none none) (tidy : μ.machine.Tidy)
    (missing : μ.machine.fiber? f = none) :
    Machine.Unborn f μ.machine ∧ ∀ event, μ.actor event ≠ some f := by
  have idle : μ.machine.core.task f = none := by
    rw [Core.task, Table.view, show μ.machine.core.fibers.get? f = none from missing]
    rfl
  have free : μ.held ≠ some f := fun held => by
    cases idle.symm.trans ((agenda_of_isCoherent coherent).held_works held)
  refine ⟨⟨missing, ?_, fun leads => ?_⟩, fun event own => ?_⟩
  · rintro w ⟨wait, found, unclaimed, owner⟩
    have own : μ.machine.core.owner w = some f :=
      (Table.find_of_row Wait.openOwner found).trans (by simp [Wait.openOwner, unclaimed, owner])
    rcases (waiting_of_isCoherent coherent).of_owner own with asleep | ⟨held, -⟩
    · rw [Core.sleeps, Table.find, show μ.machine.core.fibers.get? f = none from missing] at asleep
      cases asleep
    · exact free held
  · have known := tidy.parents leads
    simp [missing] at known
  · cases event with
    | work =>
        rcases Option.or_eq_some_iff.1 own with held | ⟨-, first⟩
        · exact free held
        · cases idle.symm.trans ((agenda_of_isCoherent coherent).mem_iff.1
            (by simpa using List.mem_of_mem_head? first : f ∈ μ.machine.ready.toList ++ []))
    | _ => cases own

/-- A fiber that is born is ready for its first step, and has neither children nor groups. -/
theorem Reachable.born (reachable : Reachable μ) (missing : μ.machine.fiber? f = none)
    (row : (μ.apply event).machine.fiber? f = some fiber) :
    (∃ node context, fiber.run = some { next := .eval node, context } ∧
      (μ.apply event).position? f = some (.ready { next := .eval node, context })) ∧
    fiber.children = [] ∧ ¬ (μ.apply event).machine.LeadsGroup f := by
  have coherent := reachable.isCoherent
  obtain ⟨unborn, other⟩ := unborn_of_missing coherent reachable.tidy missing
  rcases unborn.evolves (other event) (evolves coherent reachable.tidy event) with
    still | ⟨newborn, fresh, beside, alone⟩
  · cases still.row.symm.trans row
  obtain ⟨node, context, start⟩ := fresh.run
  have kept : newborn.Kept fiber ∧ fiber.children ⊆ newborn.children := by
    cases beside with
    | spared row' kept _ children =>
        obtain rfl := Option.some.inj (row.symm.trans row')
        exact ⟨kept, children alone⟩
    | answered _ _ why _ _ =>
        cases why with
        | interrupt _ breakable => simp [Fiber.breakable?, fresh.status] at breakable
        | wait asked _ _ => cases asked
        | group asleep => cases fresh.pending.symm.trans asleep
    | ended _ closing _ _ => simp [fresh.closing] at closing
  obtain ⟨kept, children⟩ := kept
  have free' : (μ.apply event).held ≠ some f := fun held' => by
    have unsaved := (row_of_held (reachable.apply event).isCoherent held' row).2.1
    rw [kept.run, start] at unsaved
    cases unsaved
  refine ⟨⟨node, context, kept.run.trans start, ?_⟩, ?_, alone⟩
  · rw [position?_of_saved row free', position_of_kept kept]
    simp [Fiber.position, start, fresh.input, fresh.pending]
  · exact List.subset_nil.1 (fresh.children ▸ children)

end Moment

end EffectFibers
