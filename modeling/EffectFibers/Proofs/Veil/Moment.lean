import EffectFibers.Proofs.Changes.Spares
import EffectFibers.Proofs.Veil.Step

/-!
# Runs under the veil

Two moments that differ only in the mark of one fiber, and in what was recorded of its interrupts,
stay like that as long as an uninterruptible region of the fiber is open and the fiber has no
children.

## Main definitions

* `Moment.runOf` – what is left of a fiber's program, wherever it is kept.
* `Moment.shield` – how many regions of a fiber are open.
* `Moment.Through` – something holds at every moment of a run.
* `Moment.Veiled` – two moments that are the same under the veil.

## Main statements

* `Moment.Veiled.run` – the same events lead to moments that are the same under the veil.
-/

namespace EffectFibers

variable {σ : Type}

namespace Machine

variable {m : Machine σ} {p : FiberId}

/-! ## A fiber that starts fibers has children -/

/-- A fiber has children, and a mark or none. -/
def IsParent (m : Machine σ) (p : FiberId) (mark : Bool) : Prop :=
  ∃ fiber, m.fiber? p = some fiber ∧ fiber.children ≠ [] ∧ fiber.interrupted = mark

theorem isParent_spawnChild {fiber : Fiber σ} (row : m.fiber? p = some fiber) (node : Node σ)
    (context : Context Value) (reader : ExitReader) :
    (m.spawnChild p node context reader).2.IsParent p fiber.interrupted := by
  obtain ⟨scope, interrupted, -, core⟩ := Coherent.core_spawnChild m p node context reader
  have fibers : (m.spawnChild p node context reader).2.fibers = _ := congrArg Core.fibers core
  refine ⟨adopting m.fibers.nextId fiber, ?_, by simp [adopting], rfl⟩
  rw [Machine.fiber?, fibers, Core.adopt, Table.get?_modify, if_pos rfl]
  rw [Table.get?_push_of_some _ (show m.core.fibers.get? p = some fiber from row)]
  rfl

theorem isParent_spawnMembers_of_isParent {mark : Bool} (parent : m.IsParent p mark)
    (context : Context Value) (g : GroupId) (nodes : List (Nat × Node σ)) :
    (m.spawnMembers p context g nodes).2.IsParent p mark := by
  induction nodes generalizing m with
  | nil => exact parent
  | cons node nodes ih =>
      obtain ⟨index, node⟩ := node
      obtain ⟨fiber, row, -, rfl⟩ := parent
      exact ih (isParent_spawnChild row node context (.group g index))

theorem isParent_spawnMembers {fiber : Fiber σ} (row : m.fiber? p = some fiber)
    (context : Context Value) (g : GroupId) {nodes : List (Nat × Node σ)} (some : nodes ≠ []) :
    (m.spawnMembers p context g nodes).2.IsParent p fiber.interrupted := by
  cases nodes with
  | nil => exact absurd rfl some
  | cons node nodes =>
      obtain ⟨index, node⟩ := node
      exact isParent_spawnMembers_of_isParent
        (isParent_spawnChild row node context (.group g index)) context g nodes

/-- A node that starts fibers makes the fiber that evaluates it a parent. -/
theorem isParent_evalNode {fiber : Fiber σ} (row : m.fiber? p = some fiber) (scope : ScopeId)
    (run : RunState σ) {node : Node σ} (starts : node.startsFibers = true) :
    (m.evalNode p scope run node).machine.IsParent p fiber.interrupted := by
  cases node with
  | race children =>
      have nonempty : children.isEmpty = false := by simpa [Node.startsFibers] using starts
      have numbered : numbered children ≠ [] := by
        simpa [Machine.numbered] using nonempty
      have born := isParent_spawnMembers
        (m := { m with
          groups := m.groups.push
            (.race { parent := p, members := [], remaining := children.length }) })
        row run.context m.groups.nextId numbered
      unfold evalNode evalRace
      simp only [nonempty, Bool.false_eq_true, if_false]
      unfold IsParent fiber? startRace at *
      simp only [fibers_enqueueAll]
      exact born
  | all children options =>
      have nonempty : children.isEmpty = false := by simpa [Node.startsFibers] using starts
      have limit := Concurrency.one_le_limit options.concurrency children.length
      have first :
          (numbered children).take (options.concurrency.limit children.length - 0) ≠ [] := by
        have : children ≠ [] := by simpa using nonempty
        simp [Machine.numbered, this]
        omega
      let all := Gathering.task p run.context children options
      have born := isParent_spawnMembers (m := { m with groups := m.groups.push (.all all) })
        row run.context m.groups.nextId first
      unfold evalNode evalAll
      simp only [nonempty, Bool.false_eq_true, if_false]
      unfold IsParent fiber? startAll fill at *
      simp only [Option.isSome_none, Bool.false_eq_true, if_false, fibers_enqueueAll]
      exact born
  | fork source => exact isParent_spawnChild row source run.context .joiner
  | _ => simp [Node.startsFibers] at starts

end Machine

namespace Moment

/-! ## What is left of a program -/

/-- The slice on the worker, whether its step has been taken or not. -/
def slice? (μ : Moment σ) : Option (Slice σ) :=
  match μ.taken with
  | some (slice, _) => some slice
  | none => μ.machine.running

theorem held_eq (μ : Moment σ) : μ.held = μ.slice?.map (·.fiber) := by
  unfold held slice?
  cases μ.taken <;> rfl

/-- What is left of a fiber's program, wherever it is kept. -/
def runOf (μ : Moment σ) (f : FiberId) : Option (RunState σ) :=
  match μ.slice?.filter (·.fiber = f) with
  | some slice => some slice.run
  | none => (μ.machine.fiber? f).bind (·.run)

/-- How many uninterruptible regions and finalizers of a fiber are open. -/
def shield (μ : Moment σ) (f : FiberId) : Nat := ((μ.runOf f).map (·.shield)).getD 0

/-- What is left of the program of the fiber on the worker. -/
theorem shield_of_slice {μ : Moment σ} {f : FiberId} {slice : Slice σ}
    (held : μ.slice? = some slice) (same : slice.fiber = f) : μ.shield f = slice.run.shield := by
  have own : (some slice).filter (fun s : Slice σ => s.fiber = f) = some slice := by
    simp [Option.filter, same]
  rw [shield, runOf, held, own]
  rfl

/-- What is left of the program of a fiber while nobody is on the worker. -/
theorem shield_of_free {μ : Moment σ} {f : FiberId} {fiber : Fiber σ} {run : RunState σ}
    (free : μ.slice? = none) (row : μ.machine.fiber? f = some fiber)
    (saved : fiber.run = some run) :
    μ.shield f = run.shield := by
  rw [shield, runOf, free, row]
  simp [saved]

/-- The live children of a fiber. -/
def children (μ : Moment σ) (f : FiberId) : List FiberId :=
  ((μ.machine.fiber? f).map (·.children)).getD []

/-- Something holds at every moment of a run, from the first one to the last. -/
def Through (P : Moment σ → Prop) (μ : Moment σ) : List (Event σ) → Prop
  | [] => P μ
  | event :: events => P μ ∧ Through P (μ.apply event) events

instance Through.decidable (P : Moment σ → Prop) [DecidablePred P] (μ : Moment σ) :
    (events : List (Event σ)) → Decidable (Through P μ events)
  | [] => inferInstanceAs (Decidable (P μ))
  | event :: events =>
    have := decidable P (μ.apply event) events
    inferInstanceAs (Decidable (P μ ∧ Through P (μ.apply event) events))

theorem Through.head {P : Moment σ → Prop} {μ : Moment σ} {events : List (Event σ)}
    (through : Through P μ events) : P μ := by
  cases events with
  | nil => exact through
  | cons event events => exact through.1

theorem Through.and {P Q : Moment σ → Prop} {μ : Moment σ} {events : List (Event σ)}
    (first : Through P μ events) (second : Through Q μ events) :
    Through (fun κ => P κ ∧ Q κ) μ events := by
  induction events generalizing μ with
  | nil => exact ⟨first, second⟩
  | cons event events ih => exact ⟨⟨first.1, second.1⟩, ih first.2 second.2⟩

theorem Through.mono {P Q : Moment σ → Prop} (weaker : ∀ κ, P κ → Q κ) {μ : Moment σ}
    {events : List (Event σ)} (through : Through P μ events) : Through Q μ events := by
  induction events generalizing μ with
  | nil => exact weaker μ through
  | cons event events ih => exact ⟨weaker μ through.1, ih through.2⟩

/-- Two moments that are the same under the veil over a fiber without children, which has a mark in
the first one. -/
structure Veiled (f : FiberId) (μ ν : Moment σ) : Prop where
  taken : ν.taken = μ.taken
  machine : EffectFibers.Veiled f μ.machine ν.machine

namespace Veiled

variable {f : FiberId} {μ ν : Moment σ}

theorem runOf_eq (veiled : Veiled f μ ν) (g : FiberId) : ν.runOf g = μ.runOf g := by
  have slice : ν.slice? = μ.slice? := by
    unfold slice?
    rw [veiled.taken, veiled.machine.rest]
  unfold runOf
  rw [slice, veiled.machine.find g Fiber.run fun _ _ => rfl]

/-- A step of the fiber on the worker, unless the fiber itself starts others. -/
theorem takeStep {m m' : Machine σ} {slice : Slice σ} (veiled : EffectFibers.Veiled f m m')
    (shielded : slice.fiber = f → 0 < slice.run.shield)
    (alone : slice.fiber = f → ∀ node, slice.run.next = .eval node → node.startsFibers = false) :
    Veiled f (m.takeStep slice) (m'.takeStep slice) := by
  have step := veiled.stepRun (((m.fiber? slice.fiber).map Fiber.scope).getD .none) slice.run
    shielded alone
  have scope := veiled.read slice.fiber Fiber.scope fun _ _ => rfl
  unfold Machine.takeStep
  rw [scope]
  refine ⟨?_, step.machine⟩
  simp only
  rw [step.control, step.run]

/-- The worker's next operation, unless it gives the fiber children. -/
theorem work (veiled : Veiled f μ ν) (coherent : IsCoherent μ none none)
    (shielded : 0 < μ.shield f) : Veiled f μ.work ν.work ∨ μ.work.machine.IsParent f true := by
  have machine := veiled.machine
  have taken := veiled.taken
  have running : ν.machine.running = μ.machine.running := by rw [machine.rest]
  unfold IsCoherent focus at coherent
  unfold Moment.work
  rw [taken, running]
  cases before : μ.taken with
  | some step =>
      obtain ⟨slice, control⟩ := step
      rw [before] at coherent
      refine .inl ⟨rfl, machine.follow coherent fun same => ?_⟩
      rwa [shield_of_slice (by rw [slice?, before]) same] at shielded
  | none =>
      cases worker : μ.machine.running with
      | none =>
          refine .inl ⟨rfl, machine.dispatch fun fiber run row saved => ?_⟩
          rwa [shield_of_free (by rw [slice?, before, worker]) row saved] at shielded
      | some slice =>
          have own : slice.fiber = f → 0 < slice.run.shield := fun same => by
            rwa [shield_of_slice (by rw [slice?, before, worker]) same] at shielded
          have free := machine.setRunning none
          by_cases alone : slice.fiber = f →
              ∀ node, slice.run.next = .eval node → node.startsFibers = false
          · exact .inl (takeStep free own alone)
          -- a fiber that starts others has children afterwards, and keeps its mark
          simp only [not_forall, Bool.not_eq_false] at alone
          obtain ⟨same, node, next, starts⟩ := alone
          obtain ⟨fiber, row, -, mark⟩ := free.lone
          rw [← same] at row
          have quiet : Machine.interruptPending { μ.machine with running := none } slice.fiber
              slice.run = false := by
            rw [Machine.interruptPending, beq_false_of_ne (Nat.ne_of_gt (own same)),
              Bool.false_and]
          have parent := Machine.isParent_evalNode row
            (((Machine.fiber? { μ.machine with running := none } slice.fiber).map
              Fiber.scope).getD .none) slice.run starts
          refine .inr ?_
          simp only [Machine.takeStep, Machine.stepRun, next, Machine.eval, quiet, Bool.and_false,
            Bool.false_eq_true, if_false]
          rw [mark, same] at parent
          rw [same]
          exact parent

/-- An event keeps two moments the same under the veil, unless it gives the fiber children. -/
theorem apply (veiled : Veiled f μ ν) (coherent : IsCoherent μ none none)
    (shielded : 0 < μ.shield f) (event : Event σ) :
    Veiled f (μ.apply event) (ν.apply event) ∨ (μ.apply event).machine.IsParent f true := by
  have machine := veiled.machine
  cases event with
  | start node => exact .inl ⟨veiled.taken, machine.startRoot node⟩
  | request request => exact .inl ⟨veiled.taken, machine.serve request⟩
  | host change =>
      refine .inl ⟨veiled.taken, ?_⟩
      have world : ν.machine.world = μ.machine.world := by rw [machine.rest]
      simp only [Moment.apply, world]
      exact machine.setWorld _
  | receive =>
      refine .inl ⟨veiled.taken, ?_⟩
      simp only [Moment.apply]
      obtain ⟨fibers, record, eq, same, hushed⟩ := machine.exists_eq
      rw [eq]
      unfold Machine.receive
      dsimp only
      split
      · exact ⟨same, hushed, rfl, machine.lone⟩
      · refine EffectFibers.Veiled.resumeCallback ?_ _ _
        exact ⟨same, hushed, rfl, machine.lone⟩
  | fire =>
      refine .inl ⟨veiled.taken, ?_⟩
      simp only [Moment.apply]
      obtain ⟨fibers, record, eq, same, hushed⟩ := machine.exists_eq
      rw [eq]
      unfold Machine.fireNext
      dsimp only
      split
      · refine EffectFibers.Veiled.resume ?_ _ _
        exact ⟨same, hushed, rfl, machine.lone⟩
      · exact ⟨same, hushed, rfl, machine.lone⟩
  | elapse instant =>
      refine .inl ⟨veiled.taken, ?_⟩
      simp only [Moment.apply]
      obtain ⟨fibers, record, eq, same, hushed⟩ := machine.exists_eq
      rw [eq]
      exact ⟨same, hushed, rfl, machine.lone⟩
  | takeResult g =>
      refine .inl ⟨veiled.taken, ?_⟩
      have status := machine.statusOf_eq
      simp only [Moment.apply]
      obtain ⟨fibers, record, eq, same, hushed⟩ := machine.exists_eq
      rw [eq] at status ⊢
      unfold Machine.takeResult Machine.isFinished Machine.status
      rw [status]
      dsimp only
      split
      · split
        · exact ⟨same, hushed, rfl, machine.lone⟩
        · exact ⟨same, hushed, rfl, machine.lone⟩
      · exact ⟨same, hushed, rfl, machine.lone⟩
  | work => exact veiled.work coherent shielded

/-- The same events lead to moments that are the same under the veil, as long as a region of the
fiber is open and it has no children. -/
theorem run {events : List (Event σ)} (veiled : Veiled f μ ν) (coherent : IsCoherent μ none none)
    (shielded : Through (fun κ => 0 < κ.shield f) μ events)
    (childless : Through (fun κ => κ.children f = []) μ events) :
    Veiled f (μ.run events) (ν.run events) := by
  induction events generalizing μ ν with
  | nil => exact veiled
  | cons event events ih =>
      have coherent' : IsCoherent (μ.apply event) none none := isCoherent_run coherent [event]
      rcases veiled.apply coherent shielded.1 event with after | ⟨fiber, row, parent, -⟩
      · exact ih after coherent' shielded.2 childless.2
      · have none := childless.2.head
        rw [children, row] at none
        exact absurd none parent

end Veiled

end Moment

end EffectFibers
