import EffectFibers.Machine.Launch
import EffectFibers.Proofs.Coherence.View
import EffectFibers.Proofs.Coherence.Heirs
import EffectFibers.Proofs.Coherence.Agenda
import EffectFibers.Proofs.Coherence.Waiting
import EffectFibers.Proofs.Coherence.Seating

/-!
# Coherent machines

The invariant of the machine: every row of a fiber makes sense by itself, families are in order,
marks reach down, exactly those fibers are queued that can go on, and open waits and groups belong
to fibers that wait for them.  It reads the tables of fibers, waits and groups, the queue, the
worker, and what the record says about births and exits; this part of a machine is its core.

In the middle of an operation the invariant holds up to some exceptions.  They are the focus: the
fiber on the worker and what it is about to wait for, fibers on their way to the queue, the fiber
that is just ending.  Between two operations only the fiber on the worker is left of it.

## Main definitions

* `Core`, `Machine.core` – the part of a machine that the invariant reads.
* `Focus` – the exceptions.
* `Fiber.Shaped` – a row makes sense by itself.
* `Coherent` – the invariant.
-/

namespace EffectFibers

variable {σ : Type}

/-! ## The part of a machine that matters -/

/-- A fiber and its parent, where the record tells of a new child. -/
def Entry.birth? : Entry → Option (FiberId × FiberId)
  | .trace (.spawned f p) => some (f, p)
  | _ => none

/-- A fiber and its exit, where the record tells of an end. -/
def Entry.exit? : Entry → Option (FiberId × Exit)
  | .trace (.exited f exit) => some (f, exit)
  | _ => none

/-- The children in a record, with their parents. -/
def births (record : Array Entry) : List (FiberId × FiberId) :=
  record.toList.filterMap Entry.birth?

/-- The ends in a record, with their exits. -/
def exits (record : Array Entry) : List (FiberId × Exit) :=
  record.toList.filterMap Entry.exit?

/-- The part of a machine that says which fibers there are and what they wait for. -/
structure Core (σ : Type) where
  fibers : Table .fiber (Fiber σ)
  ready : List FiberId
  waits : Table .wait Wait
  groups : Table .group (Group σ)
  births : List (FiberId × FiberId)
  exits : List (FiberId × Exit)
  worker : Option FiberId

/-- The core of a machine. -/
def Machine.core (m : Machine σ) : Core σ where
  fibers := m.fibers
  ready := m.ready.toList
  waits := m.waits
  groups := m.groups
  births := EffectFibers.births m.record
  exits := EffectFibers.exits m.record
  worker := m.running.map (·.fiber)

namespace Core

variable (κ : Core σ)

/-- A core with a changed row of a fiber. -/
def modify (f : FiberId) (change : Fiber σ → Fiber σ) : Core σ :=
  { κ with fibers := κ.fibers.modify f change }

def kin : FiberId → Option Kin := κ.fibers.view Fiber.kin

def task : FiberId → Option Task := κ.fibers.view Fiber.task

def owner : WaitId → Option FiberId := κ.waits.find Wait.openOwner

def sleeps : FiberId → Option WaitId := κ.fibers.find Fiber.sleepsOn

def input : FiberId → Option Exit := κ.fibers.find Fiber.input

def parent : FiberId → Option FiberId := κ.fibers.find Fiber.parent

def place : FiberId → Option (GroupId × Nat) := κ.fibers.find Fiber.place

def live : FiberId → Option Bool := κ.fibers.view Fiber.live

def awaits : FiberId → Option GroupId := κ.fibers.find Fiber.awaits

def marked : FiberId → Option Bool := κ.fibers.view Fiber.interrupted

end Core

/-! ## The invariant -/

/-- What is just happening: the exceptions to the invariant in the middle of an operation, and two
facts to hold on to. -/
structure Focus where
  /-- The fiber that is being stepped. -/
  held : Option FiberId := none
  /-- The same, while its slice lies with the worker. -/
  worker : Option FiberId := none
  /-- The wait that it has opened. -/
  asking : Option WaitId := none
  /-- The group that it has started. -/
  opening : Option GroupId := none
  /-- Fibers that can go on and are not queued yet. -/
  waking : List FiberId := []
  /-- The fiber that is about to end. -/
  leaving : Option FiberId := none
  /-- The ending fiber that has not heard yet of the end of a child. -/
  late : Option FiberId := none
  /-- Children of an ending fiber that are still to be asked for a report. -/
  unasked : List FiberId := []
  /-- The fiber that has ended and whose group does not know yet. -/
  settling : Option FiberId := none
  /-- The group that has perhaps no member left. -/
  idle : Option GroupId := none
  /-- The group whose members are just being made. -/
  forming : Option GroupId := none
  /-- Marked fibers whose children are still to be marked. -/
  visiting : List FiberId := []
  /-- The exit of a program that has ended. -/
  promise : Option (FiberId × Exit) := none
  /-- An answer that its fiber has not been given yet. -/
  kept : Option (FiberId × Exit) := none

/-- A row makes sense by itself. -/
structure Fiber.Shaped (fiber : Fiber σ) : Prop where
  ended : fiber.status.isTerminal → fiber.run = none ∧ fiber.input = none ∧ fiber.pending = none
  closed : fiber.closing.isSome →
    fiber.status = .running ∧ fiber.run = none ∧ fiber.input = none
  asleep : fiber.status = .suspended ↔ fiber.pending.isSome
  parked : fiber.status = .suspended → fiber.run.isSome ∧ fiber.input = none

/-- A fiber that runs sleeps on nothing. -/
theorem Fiber.Shaped.pending_of_running {fiber : Fiber σ} (shaped : fiber.Shaped)
    (running : fiber.status = .running) : fiber.pending = none := by
  have asleep := shaped.asleep
  rw [running] at asleep
  simpa using asleep

/-- The program of a fiber has not ended while something is left of it. -/
theorem Fiber.Shaped.closing_of_saved {fiber : Fiber σ} {run : RunState σ} (shaped : fiber.Shaped)
    (saved : fiber.run = some run) : fiber.closing = none := by
  cases closing : fiber.closing with
  | none => rfl
  | some c =>
      obtain ⟨-, unsaved, -⟩ := shaped.closed (by simp [closing])
      cases saved.symm.trans unsaved

/-- The invariant of the machine, up to what is just happening. -/
structure Coherent (κ : Core σ) (φ : Focus) : Prop where
  worker : κ.worker = φ.worker
  shaped : ∀ {f fiber}, κ.fibers.get? f = some fiber → fiber.Shaped
  family : Family κ.kin κ.births κ.exits φ.leaving φ.late φ.unasked φ.promise
  heirs : Heirs κ.kin κ.marked φ.visiting
  agenda : Agenda κ.task κ.ready φ.waking φ.held φ.leaving
  waiting : Waiting κ.owner κ.sleeps κ.input φ.held φ.asking φ.kept
  seating : Seating κ.groups.get? κ.parent κ.place κ.live κ.awaits φ.held φ.opening φ.settling
    φ.idle φ.forming

/-! ## What operations do to the core -/

section

variable (m : Machine σ)

@[simp] theorem Machine.core_modifyFiber (f : FiberId) (change : Fiber σ → Fiber σ) :
    (m.modifyFiber f change).core = m.core.modify f change := rfl

@[simp] theorem Machine.core_enqueue (f : FiberId) :
    (m.enqueue f).core = { m.core with ready := m.core.ready ++ [f] } := by
  simp [Machine.enqueue, Machine.core]

theorem Machine.core_write (entry : Entry) :
    (m.write entry).core = { m.core with
      births := m.core.births ++ entry.birth?.toList
      exits := m.core.exits ++ entry.exit?.toList } := by
  simp only [Machine.write, Machine.core, births, exits, Array.toList_push, List.filterMap_append,
    List.filterMap_cons, List.filterMap_nil]
  cases entry.birth? <;> cases entry.exit? <;> rfl

/-- Most lines of the record tell neither of births nor of ends. -/
theorem Machine.core_write_of_quiet {entry : Entry} (birth : entry.birth? = none)
    (exit : entry.exit? = none) : (m.write entry).core = m.core := by
  rw [core_write, birth, exit]
  simp

theorem Machine.core_trace_of_quiet {event : TraceEvent}
    (birth : Entry.birth? (.trace event) = none) (exit : Entry.exit? (.trace event) = none) :
    (m.trace event).core = m.core :=
  m.core_write_of_quiet birth exit

end

namespace Coherent

variable {κ : Core σ} {φ : Focus} {f : FiberId} {fiber : Fiber σ}

/-! ## Changes to one row -/

/-- Where every row makes sense by itself, it does so after a change to one that keeps its sense. -/
theorem shaped_modify {fibers : Table .fiber (Fiber σ)} {change : Fiber σ → Fiber σ}
    (shaped : ∀ {g fiber}, fibers.get? g = some fiber → fiber.Shaped)
    (changed : ∀ fiber, fibers.get? f = some fiber → (change fiber).Shaped) {g : FiberId}
    (row : (fibers.modify f change).get? g = some fiber) : fiber.Shaped := by
  rw [Table.get?_modify] at row
  split at row
  · rename_i same
    subst same
    obtain ⟨before, row', rfl⟩ := Option.map_eq_some_iff.1 row
    exact changed before row'
  · exact shaped row

/-- What has to be shown after a change to one row, and perhaps to other parts of the core. -/
theorem of_row (coherent : Coherent κ φ) (row : κ.fibers.get? f = some fiber)
    (change : Fiber σ → Fiber σ) (after : Fiber σ) {ready : List FiberId}
    {waits : Table .wait Wait} {groups : Table .group (Group σ)} {births : List (FiberId × FiberId)}
    {exits : List (FiberId × Exit)} {φ' : Focus}
    (worker : κ.worker = φ'.worker) (changed : change fiber = after)
    (parent : after.parent = fiber.parent)
    (reader : after.reader = fiber.reader)
    (heirs : Heirs (Function.update κ.kin f (some after.kin))
      (Function.update κ.marked f (some after.interrupted)) φ'.visiting)
    (shaped : after.Shaped)
    (family : Family (Function.update κ.kin f (some after.kin)) births exits φ'.leaving φ'.late
      φ'.unasked φ'.promise)
    (agenda : Agenda (Function.update κ.task f (some after.task)) ready φ'.waking φ'.held
      φ'.leaving)
    (waiting : Waiting (waits.find Wait.openOwner) (Function.update κ.sleeps f after.sleepsOn)
      (Function.update κ.input f after.input) φ'.held φ'.asking φ'.kept)
    (seating : Seating groups.get? κ.parent κ.place (Function.update κ.live f (some after.live))
      (Function.update κ.awaits f after.awaits) φ'.held φ'.opening φ'.settling φ'.idle
      φ'.forming) :
    Coherent ⟨κ.fibers.modify f change, ready, waits, groups, births, exits, κ.worker⟩ φ' := by
  subst changed
  have sameParent : (κ.fibers.modify f change).find Fiber.parent = κ.parent := by
    rw [Table.find_modify _ _ _ _ row]
    exact Table.update_find row parent
  have samePlace : (κ.fibers.modify f change).find Fiber.place = κ.place := by
    rw [Table.find_modify _ _ _ _ row]
    exact Table.update_find row (congrArg ExitReader.place reader)
  constructor
  · exact worker
  · refine shaped_modify coherent.shaped fun before row' => ?_
    obtain rfl := Option.some.inj (row.symm.trans row')
    exact shaped
  · rw [Core.kin, Table.view_modify _ _ _ _ row]
    exact family
  · rw [Core.kin, Core.marked, Table.view_modify _ _ _ _ row, Table.view_modify _ _ _ _ row]
    exact heirs
  · rw [Core.task, Table.view_modify _ _ _ _ row]
    exact agenda
  · rw [Core.sleeps, Core.input, Table.find_modify _ _ _ _ row, Table.find_modify _ _ _ _ row]
    exact waiting
  · rw [Core.parent, Core.place, Core.live, Core.awaits, sameParent, samePlace,
      Table.view_modify _ _ _ _ row, Table.find_modify _ _ _ _ row]
    exact seating

/-- Two rows that look the same to the invariant. -/
structure Alike (a b : Fiber σ) : Prop where
  kin : a.kin = b.kin
  reader : a.reader = b.reader
  run : a.run = b.run
  input : a.input = b.input
  pending : a.pending = b.pending
  status : a.status = b.status

theorem Alike.shaped {a b : Fiber σ} (alike : Alike a b) (shaped : b.Shaped) : a.Shaped := by
  have closing : a.closing = b.closing := congrArg Kin.closing alike.kin
  obtain ⟨ended, closed, asleep, parked⟩ := shaped
  constructor
  · rw [alike.status, alike.run, alike.input, alike.pending]
    exact ended
  · rw [closing, alike.status, alike.run, alike.input]
    exact closed
  · rw [alike.status, alike.pending]
    exact asleep
  · rw [alike.status, alike.run, alike.input]
    exact parked

/-- A row that keeps its mark and gets no new child. -/
theorem heirs_of_row {after : Fiber σ} (coherent : Coherent κ φ)
    (row : κ.fibers.get? f = some fiber) (mark : after.interrupted = fiber.interrupted)
    (fewer : after.children ⊆ fiber.children) :
    Heirs (Function.update κ.kin f (some after.kin))
      (Function.update κ.marked f (some after.interrupted)) φ.visiting := by
  rw [Core.marked, Table.update_view row mark]
  exact coherent.heirs.update (Table.view_of_row _ row) fewer

/-- A row that looks the same to the invariant afterwards, but perhaps for its mark. -/
theorem modify_alike_of_row (coherent : Coherent κ φ) (row : κ.fibers.get? f = some fiber)
    {change : Fiber σ → Fiber σ} (alike : Alike (change fiber) fiber) {visiting : List FiberId}
    (heirs : Heirs κ.kin (Function.update κ.marked f (some (change fiber).interrupted)) visiting) :
    Coherent (κ.modify f change) { φ with visiting } := by
  have closing : (change fiber).closing = fiber.closing := congrArg Kin.closing alike.kin
  refine coherent.of_row row change _ coherent.worker rfl (congrArg Kin.parent alike.kin)
    alike.reader ?_ (alike.shaped (coherent.shaped row)) ?_ ?_ ?_ ?_
  · rw [Core.kin, Table.update_view row alike.kin]
    exact heirs
  · rw [Core.kin, Table.update_view row alike.kin]
    exact coherent.family
  · have same : (change fiber).task = fiber.task := by
      simp only [Fiber.task, alike.status, alike.run, closing]
    rw [Core.task, Table.update_view row same]
    exact coherent.agenda
  · have same : (change fiber).sleepsOn = fiber.sleepsOn := by
      simp only [Fiber.sleepsOn, alike.pending]
    rw [Core.sleeps, Core.input, Table.update_find row same, Table.update_find row alike.input]
    exact coherent.waiting
  · have same : (change fiber).live = fiber.live := by simp only [Fiber.live, alike.status]
    have same' : (change fiber).awaits = fiber.awaits := by
      simp only [Fiber.awaits, alike.pending]
    rw [Core.live, Core.awaits, Table.update_view row same, Table.update_find row same']
    exact coherent.seating

/-- The invariant does not notice a change to a row that looks the same afterwards. -/
theorem modify_alike (coherent : Coherent κ φ) {change : Fiber σ → Fiber σ}
    (alike : ∀ fiber, Alike (change fiber) fiber)
    (mark : ∀ fiber, (change fiber).interrupted = fiber.interrupted) :
    Coherent (κ.modify f change) φ := by
  cases row : κ.fibers.get? f with
  | none =>
      rw [Core.modify, Table.modify_of_none _ row]
      exact coherent
  | some fiber =>
      refine coherent.modify_alike_of_row row (alike fiber) ?_
      rw [Core.marked, Table.update_view row (mark fiber)]
      exact coherent.heirs

/-- Most lines of the record do not matter. -/
theorem trace {m : Machine σ} {event : TraceEvent} (coherent : Coherent m.core φ)
    (birth : Entry.birth? (.trace event) = none) (exit : Entry.exit? (.trace event) = none) :
    Coherent (m.trace event).core φ := by
  rw [Machine.core_trace_of_quiet m birth exit]
  exact coherent

/-- What holds through every step of a fold holds after it. -/
theorem foldl {α : Type} {step : Machine σ → α → Machine σ} {m : Machine σ}
    (coherent : Coherent m.core φ)
    (steps : ∀ m a, Coherent (σ := σ) m.core φ → Coherent (step m a).core φ) (as : List α) :
    Coherent (as.foldl step m).core φ := by
  induction as generalizing m with
  | nil => exact coherent
  | cons a as ih => exact ih (steps m a coherent)

end Coherent

end EffectFibers
