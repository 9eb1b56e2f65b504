import EffectFibers.Proofs.Coherence.Answer
import Mathlib.Logic.Relation

/-!
# The changes that operations are made of

There are few ways in which an operation changes a machine: it marks a fiber, ends a wait, adds a
row to a table, changes its own row.  Every operation is a sequence of such changes, so what each
of them keeps is kept by all operations.

The actor is the fiber on whose behalf an operation is done.  Some changes are made for the actor
only, and some only to fibers that have given a reason: a fiber is taken out of its wait only if
it is marked, and an exit comes to a fiber without a wait only if the fiber has started a group.

Few operations deal with the ends of fibers.  All others leave alone who wants to know of the end of
a fiber, and what is kept of its exit, and they add no end to the record.

## Main definitions

* `Machine.Tidy` – who is told of the end of a fiber or of a layer does not wait for a timer.
* `Change` – the ways in which a machine changes.
* `Evolves` – a sequence of changes.

## Main statements

* `Evolves.interrupt`, `Evolves.perform`, `Evolves.wake` – interrupts, user code and layers.
-/

namespace EffectFibers

variable {σ : Type}

/-! ## The kinds of changes -/

/-- A fiber with a mark. -/
def Fiber.marked (fiber : Fiber σ) : Fiber σ := { fiber with interrupted := true }

/-- A row that nobody has touched since it was made. -/
structure Fiber.Newborn (fiber : Fiber σ) : Prop where
  run : ∃ node context, fiber.run = some { next := .eval node, context }
  input : fiber.input = none
  pending : fiber.pending = none
  status : fiber.status = .running
  children : fiber.children = []
  closing : fiber.closing = none
  observers : fiber.observers = []
  exit : fiber.exit = none

/-- What a fiber knows of its end stays the same: who gets the exit, the exit that is kept, and who
is told. -/
structure Fiber.SameBook (before after : Fiber σ) : Prop where
  reader : after.reader = before.reader
  exit : after.exit = before.exit
  observers : after.observers = before.observers

theorem Fiber.SameBook.refl (fiber : Fiber σ) : fiber.SameBook fiber := ⟨rfl, rfl, rfl⟩

/-- A fiber keeps what it was born with: its parent, the scope of its run, and who gets its exit. -/
structure Fiber.SameSeat (before after : Fiber σ) : Prop where
  parent : after.parent = before.parent
  scope : after.scope = before.scope
  reader : after.reader = before.reader

theorem Fiber.SameSeat.trans {a b c : Fiber σ} (first : a.SameSeat b) (second : b.SameSeat c) :
    a.SameSeat c :=
  ⟨second.parent.trans first.parent, second.scope.trans first.scope,
    second.reader.trans first.reader⟩

/-- A change to a row that does not concern the fiber's own program. -/
structure Fiber.Mild (before after : Fiber σ) : Prop where
  run : after.run = before.run
  input : after.input = before.input
  pending : after.pending = before.pending
  status : after.status = before.status
  interrupted : after.interrupted = before.interrupted
  closing : after.closing.isSome = before.closing.isSome
  children : after.children ⊆ before.children
  watchers : ∀ w how, .watcher w how ∈ after.observers → .watcher w how ∈ before.observers
  seat : before.SameSeat after

namespace Machine

/-- A wait that no timer ends. -/
def Untimed (m : Machine σ) (w : WaitId) : Prop :=
  ∃ wait, m.waits.get? w = some wait ∧ wait.source ≠ .timer

/-- A wait that ends with the build of a layer. -/
def AwaitsBuild (m : Machine σ) (w : WaitId) : Prop :=
  ∃ scope layer, w ∈ (m.memo scope).waiters layer

/-- A fiber that has started a group. -/
def LeadsGroup (m : Machine σ) (p : FiberId) : Prop :=
  ∃ g group, m.groups.get? g = some group ∧ group.parent = p

/-- The waits that fibers and layers know of are not for timers, and groups have parents. -/
structure Tidy (m : Machine σ) : Prop where
  watchers : ∀ {g fiber w how}, m.fiber? g = some fiber → .watcher w how ∈ fiber.observers →
    m.Untimed w
  builders : ∀ {w}, m.AwaitsBuild w → m.Untimed w
  parents : ∀ {p}, m.LeadsGroup p → (m.fiber? p).isSome

/-- A new fiber belongs to the run of its parent, and a root to a run that there is. -/
def Admits (m : Machine σ) (fiber : Fiber σ) : Prop :=
  match fiber.parent with
  | some p => fiber.scope = ((m.fiber? p).map (·.scope)).getD .none
  | none => (m.scopes.get? fiber.scope).isSome

/-- A change to anything but fibers, waits, groups and the worker. -/
structure Quiet (m m' : Machine σ) : Prop where
  fibers : m'.fibers = m.fibers
  waits : m'.waits = m.waits
  groups : m'.groups = m.groups
  running : m'.running = m.running
  budget : m'.stepBudget = m.stepBudget
  runs : ∀ s, (m.scopes.get? s).isSome → (m'.scopes.get? s).isSome
  builders : ∀ w, m'.AwaitsBuild w → m.AwaitsBuild w ∨ m.Untimed w

/-- A change that leaves the layers alone as well. -/
theorem Quiet.of_scopes {m m' : Machine σ} (fibers : m'.fibers = m.fibers)
    (waits : m'.waits = m.waits) (groups : m'.groups = m.groups) (running : m'.running = m.running)
    (budget : m'.stepBudget = m.stepBudget) (scopes : m'.scopes = m.scopes) : Quiet m m' := by
  refine ⟨fibers, waits, groups, running, budget, fun s known => scopes ▸ known, fun w => ?_⟩
  rintro ⟨scope, layer, listed⟩
  refine .inl ⟨scope, layer, ?_⟩
  rwa [memo, scopes] at listed

end Machine

/-- The ways in which a machine changes on behalf of an actor, in an operation that deals with the
ends of fibers or in one that does not. -/
inductive Change (actor : Option FiberId) (deals : Bool) : Machine σ → Machine σ → Prop
  | quiet {m m'} (same : m.Quiet m')
    (told : deals = false → EffectFibers.exits m'.record = EffectFibers.exits m.record) :
    Change actor deals m m'
  /-- The worker takes up or leaves the actor. -/
  | worker {p} (m running) (own : actor = some p) : Change actor deals m { m with running }
  | mark (m) (g) : Change actor deals m (m.mark g)
  /-- A marked fiber is taken out of its wait. -/
  | breakWait {m g fiber} (row : m.fiber? g = some fiber) (marked : fiber.interrupted = true) :
    Change actor deals m (m.breakWait g fiber).2
  /-- A wait ends; one for a timer ends in one way only. -/
  | resume {m w x} (rightful : ∀ wait, m.waits.get? w = some wait → wait.source = .timer →
      x = .ok .null) : Change actor deals m (m.resume w x)
  /-- A group tells its parent, which sleeps on it. -/
  | deliver {m p g} (x) (leads : m.LeadsGroup p) (asleep : m.core.awaits p = some g) :
    Change actor deals m (m.deliver p x)
  | openWait {p} (m source) (own : actor = some p) : Change actor deals m (m.openWait p source).2
  | claim {m w} (own : ∀ wait, m.waits.get? w = some wait → wait.claimed = false →
      actor = some wait.owner) : Change actor deals m (m.claim w).2
  | pushGroup {m} {group : Group σ} (own : actor = some group.parent)
      (row : (m.fiber? group.parent).isSome) :
    Change actor deals m { m with groups := m.groups.push group }
  | setGroup {m g group} (parent : ∀ before, m.groups.get? g = some before →
      group.parent = before.parent) : Change actor deals m (m.setGroup g group)
  | pushFiber {m fiber} (newborn : fiber.Newborn) (admitted : m.Admits fiber) :
    Change actor deals m { m with fibers := m.fibers.push fiber }
  /-- A fiber gets a child, by itself or by a group of its own. -/
  | adopt {m p} (c) (own : actor = some p ∨ m.LeadsGroup p) : Change actor deals m
    (m.modifyFiber p fun fiber => { fiber with children := fiber.children ++ [c] })
  | mild {m g} {change : Fiber σ → Fiber σ}
      (mild : ∀ fiber, m.fiber? g = some fiber → fiber.Mild (change fiber))
      (kept : deals = false → ∀ fiber, m.fiber? g = some fiber → fiber.SameBook (change fiber)) :
    Change actor deals m (m.modifyFiber g change)
  | watch {m w} (g how) (untimed : m.Untimed w) (allowed : deals = true) :
    Change actor deals m (m.modifyFiber g fun fiber =>
      { fiber with observers := fiber.observers ++ [.watcher w how] })
  /-- The actor changes its own row. -/
  | own {m p change} (own : actor = some p) (kept : ∀ fiber : Fiber σ,
      (change fiber).interrupted = fiber.interrupted ∧ fiber.SameBook (change fiber))
      (seat : ∀ fiber : Fiber σ, fiber.SameSeat (change fiber)) :
    Change actor deals m (m.modifyFiber p change)
  /-- A fiber ends whose program has ended. -/
  | ended {m g} (x) (allowed : deals = true) (gone : actor = some g ∨
      ∃ fiber, m.fiber? g = some fiber ∧ fiber.closing.isSome) :
    Change actor deals m (m.modifyFiber g fun fiber => fiber.ended x)

/-- A sequence of changes on behalf of an actor. -/
def Evolves (actor : Option FiberId) (deals : Bool) : Machine σ → Machine σ → Prop :=
  Relation.ReflTransGen (Change actor deals)

/-! ## What every change keeps -/

namespace Machine

variable {m m' : Machine σ} {f g p : FiberId} {w : WaitId}

theorem fiber?_modifyFiber (m : Machine σ) (g f : FiberId) (change : Fiber σ → Fiber σ) :
    (m.modifyFiber g change).fiber? f =
      if g = f then (m.fiber? f).map change else m.fiber? f :=
  Table.get?_modify _ _ _ _

theorem fiber?_mark (m : Machine σ) (g f : FiberId) :
    (m.mark g).fiber? f = if g = f then (m.fiber? f).map Fiber.marked else m.fiber? f :=
  fiber?_modifyFiber m g f _

/-- The row of a fiber that was marked. -/
theorem row_of_mark {m : Machine σ} {f : FiberId} {fiber : Fiber σ}
    (row : m.fiber? f = some fiber) : (m.mark f).fiber? f = some fiber.marked := by
  rw [fiber?_mark, if_pos rfl, row, Option.map_some]

/-- A row after a change to one of them. -/
theorem fiber?_of_modifyFiber {m : Machine σ} {f g : FiberId} {change : Fiber σ → Fiber σ}
    {after : Fiber σ} (row : (m.modifyFiber g change).fiber? f = some after) :
    ∃ fiber, m.fiber? f = some fiber ∧ (after = fiber ∨ f = g ∧ after = change fiber) := by
  rw [fiber?_modifyFiber] at row
  split at row
  · rename_i same
    obtain ⟨fiber, row', rfl⟩ := Option.map_eq_some_iff.1 row
    exact ⟨fiber, row', .inr ⟨same.symm, rfl⟩⟩
  · exact ⟨after, row, .inl rfl⟩

theorem claim_eq (m : Machine σ) (w : WaitId) : ∃ waits, (m.claim w).2 = { m with waits } := by
  unfold claim
  split
  · exact ⟨_, rfl⟩
  · exact ⟨m.waits, rfl⟩

/-- Waits keep their owners and their sources, and stay claimed. -/
def KeepsWaits (m m' : Machine σ) : Prop :=
  ∀ ⦃w wait⦄, m.waits.get? w = some wait → ∃ wait', m'.waits.get? w = some wait' ∧
    wait'.owner = wait.owner ∧ wait'.source = wait.source ∧
    (wait.claimed = true → wait'.claimed = true)

theorem KeepsWaits.of_eq (same : m'.waits = m.waits) : m.KeepsWaits m' := by
  intro w wait row
  exact ⟨wait, same ▸ row, rfl, rfl, id⟩

theorem keepsWaits_claim (m : Machine σ) (w : WaitId) : m.KeepsWaits (m.claim w).2 := by
  unfold claim
  split
  · intro v wait row
    rw [Table.get?_modify]
    split
    · exact ⟨{ wait with claimed := true }, by rw [row]; rfl, rfl, rfl, fun _ => rfl⟩
    · exact ⟨wait, row, rfl, rfl, id⟩
  · exact .of_eq rfl

theorem Untimed.mono (untimed : m.Untimed w) (kept : m.KeepsWaits m') : m'.Untimed w := by
  obtain ⟨wait, row, other⟩ := untimed
  obtain ⟨wait', row', -, same, -⟩ := kept row
  exact ⟨wait', row', same ▸ other⟩

/-- Rows stay, they keep their marks, and their new watchers do not wait for timers. -/
structure KeepsRows (m m' : Machine σ) : Prop where
  marks : ∀ ⦃f⦄, m.isInterrupted f = true → m'.isInterrupted f = true
  rows : ∀ ⦃f⦄, (m.fiber? f).isSome → (m'.fiber? f).isSome
  watchers : ∀ ⦃f fiber w how⦄, m'.fiber? f = some fiber → .watcher w how ∈ fiber.observers →
    m.Untimed w ∨ ∃ before, m.fiber? f = some before ∧ .watcher w how ∈ before.observers

theorem KeepsRows.of_eq (same : m'.fibers = m.fibers) : m.KeepsRows m' := by
  have row : ∀ f, m'.fiber? f = m.fiber? f := fun f => by rw [fiber?, same]; rfl
  refine ⟨fun f marked => ?_, fun f some => ?_, fun f fiber w how found listed => ?_⟩
  · rwa [isInterrupted, row]
  · rwa [row]
  · exact .inr ⟨fiber, row f ▸ found, listed⟩

/-- A change to one row. -/
theorem KeepsRows.of_modify {change : Fiber σ → Fiber σ}
    (same : m'.fibers = m.fibers.modify g change)
    (marks : ∀ fiber, m.fiber? g = some fiber → fiber.interrupted = true →
      (change fiber).interrupted = true)
    (watchers : ∀ fiber w how, m.fiber? g = some fiber → .watcher w how ∈ (change fiber).observers →
      m.Untimed w ∨ .watcher w how ∈ fiber.observers) : m.KeepsRows m' := by
  have row : ∀ f, m'.fiber? f = if g = f then (m.fiber? f).map change else m.fiber? f := by
    intro f
    rw [fiber?, same]
    exact Table.get?_modify _ _ _ _
  refine ⟨fun f marked => ?_, fun f some => ?_, fun f fiber w how found listed => ?_⟩
  · unfold isInterrupted at marked ⊢
    rw [row]
    split
    · rename_i same
      subst same
      cases known : m.fiber? g with
      | none => simp [known] at marked
      | some fiber =>
          rw [known] at marked
          exact marks fiber known marked
    · exact marked
  · rw [row]
    split
    · simpa using some
    · exact some
  · rw [row] at found
    split at found
    · rename_i same
      subst same
      obtain ⟨before, known, rfl⟩ := Option.map_eq_some_iff.1 found
      exact (watchers before w how known listed).imp_right fun listed => ⟨before, known, listed⟩
    · exact .inr ⟨fiber, found, listed⟩

theorem KeepsRows.push {fiber : Fiber σ} (newborn : fiber.Newborn) :
    m.KeepsRows { m with fibers := m.fibers.push fiber } := by
  have old : ∀ {f before}, m.fiber? f = some before →
      ({ m with fibers := m.fibers.push fiber } : Machine σ).fiber? f = some before :=
    fun row => Table.get?_push_of_some fiber row
  refine ⟨fun f marked => ?_, fun f some => ?_, fun f after w how found listed => ?_⟩
  · unfold isInterrupted at marked ⊢
    cases known : m.fiber? f with
    | none => simp [known] at marked
    | some before =>
        rw [known] at marked
        rw [old known]
        exact marked
  · obtain ⟨before, known⟩ := Option.isSome_iff_exists.1 some
    rw [old known]
    rfl
  · rw [fiber?, Table.get?_push] at found
    split at found
    · obtain rfl := Option.some.inj found
      rw [newborn.observers] at listed
      cases listed
    · exact .inr ⟨after, found, listed⟩

/-- What all fibers know of their ends stays the same, new fibers know of nothing, and the record
tells of no further end. -/
structure KeepsBooks (m m' : Machine σ) : Prop where
  rows : ∀ ⦃f fiber⦄, m.fiber? f = some fiber → ∃ after, m'.fiber? f = some after ∧
    fiber.SameBook after
  born : ∀ ⦃f after⦄, m.fiber? f = none → m'.fiber? f = some after →
    after.exit = none ∧ after.observers = []
  exits : EffectFibers.exits m'.record = EffectFibers.exits m.record

theorem KeepsBooks.of_eq (same : m'.fibers = m.fibers)
    (exits : EffectFibers.exits m'.record = EffectFibers.exits m.record) : m.KeepsBooks m' := by
  have row : ∀ f, m'.fiber? f = m.fiber? f := fun f => by rw [fiber?, same]; rfl
  refine ⟨fun f fiber known => ⟨fiber, (row f).trans known, .refl fiber⟩,
    fun f after missing born => ?_,
    exits⟩
  cases missing.symm.trans ((row f).symm.trans born)

/-- A change to one row. -/
theorem KeepsBooks.of_modify {change : Fiber σ → Fiber σ}
    (same : m'.fibers = m.fibers.modify g change)
    (record : m'.record = m.record)
    (kept : ∀ fiber, m.fiber? g = some fiber → fiber.SameBook (change fiber)) :
    m.KeepsBooks m' := by
  have row : ∀ f, m'.fiber? f = if g = f then (m.fiber? f).map change else m.fiber? f := by
    intro f
    rw [fiber?, same]
    exact Table.get?_modify _ _ _ _
  refine ⟨fun f fiber known => ?_, fun f after missing born => ?_, by rw [record]⟩
  · rw [row]
    split
    · rename_i here
      subst here
      exact ⟨change fiber, by rw [known]; rfl, kept fiber known⟩
    · exact ⟨fiber, known, .refl fiber⟩
  · rw [row, missing] at born
    split at born <;> cases born

theorem KeepsBooks.push {fiber : Fiber σ} (newborn : fiber.Newborn) :
    m.KeepsBooks { m with fibers := m.fibers.push fiber } := by
  refine ⟨fun f before known => ⟨before, Table.get?_push_of_some fiber known, .refl before⟩,
    fun f after missing born => ?_, rfl⟩
  rw [fiber?, Table.get?_push] at born
  split at born
  · obtain rfl := Option.some.inj born
    exact ⟨newborn.exit, newborn.observers⟩
  · cases missing.symm.trans born

theorem KeepsBooks.trans {m'' : Machine σ} (first : m.KeepsBooks m') (second : m'.KeepsBooks m'') :
    m.KeepsBooks m'' := by
  refine ⟨fun f fiber known => ?_, fun f after missing born => ?_, second.exits.trans first.exits⟩
  · obtain ⟨middle, known', same⟩ := first.rows known
    obtain ⟨after, known'', same'⟩ := second.rows known'
    exact ⟨after, known'', same'.reader.trans same.reader, same'.exit.trans same.exit,
      same'.observers.trans same.observers⟩
  · cases middle : m'.fiber? f with
    | none => exact second.born middle born
    | some fiber =>
        obtain ⟨after', known, same⟩ := second.rows middle
        obtain rfl := Option.some.inj (known.symm.trans born)
        obtain ⟨exit, observers⟩ := first.born missing middle
        exact ⟨same.exit.trans exit, same.observers.trans observers⟩

/-- All fibers keep what they were born with. -/
def KeepsSeats (m m' : Machine σ) : Prop :=
  ∀ ⦃f fiber⦄, m.fiber? f = some fiber →
    ∃ after, m'.fiber? f = some after ∧ fiber.SameSeat after

namespace KeepsSeats

theorem of_eq (same : m'.fibers = m.fibers) : m.KeepsSeats m' := by
  intro f fiber row
  exact ⟨fiber, by rw [fiber?, same]; exact row, rfl, rfl, rfl⟩

/-- A change to one row. -/
theorem of_modify {change : Fiber σ → Fiber σ} (same : m'.fibers = m.fibers.modify g change)
    (kept : ∀ fiber, m.fiber? g = some fiber → fiber.SameSeat (change fiber)) :
    m.KeepsSeats m' := by
  intro f fiber row
  rw [fiber?, same, Table.get?_modify]
  split
  · rename_i here
    subst here
    exact ⟨change fiber, by rw [show m.fibers.get? g = some fiber from row]; rfl, kept fiber row⟩
  · exact ⟨fiber, row, rfl, rfl, rfl⟩

theorem trans {m'' : Machine σ} (first : m.KeepsSeats m') (second : m'.KeepsSeats m'') :
    m.KeepsSeats m'' := by
  intro f fiber row
  obtain ⟨middle, row', same⟩ := first row
  obtain ⟨after, row'', same'⟩ := second row'
  exact ⟨after, row'', same.trans same'⟩

theorem deliver (m : Machine σ) (p : FiberId) (x : Exit) : m.KeepsSeats (m.deliver p x) := by
  unfold Machine.deliver
  split
  · exact of_modify rfl fun _ _ => ⟨rfl, rfl, rfl⟩
  · exact of_modify rfl fun _ _ => ⟨rfl, rfl, rfl⟩
  · exact of_eq rfl

end KeepsSeats

/-- Handing an exit to a fiber changes at most its row. -/
theorem deliver_cases (m : Machine σ) (p : FiberId) (x : Exit) :
    m.deliver p x = m ∨
      ∃ (change : Fiber σ → Fiber σ) (ready : ReadyQueue FiberId),
        m.deliver p x = { m.modifyFiber p change with ready } ∧
        ∀ fiber, (change fiber).interrupted = fiber.interrupted ∧
          fiber.SameBook (change fiber) := by
  unfold deliver
  split
  · exact .inr ⟨_, _, rfl, fun _ => ⟨rfl, rfl, rfl, rfl⟩⟩
  · exact .inr ⟨_, _, rfl, fun _ => ⟨rfl, rfl, rfl, rfl⟩⟩
  · exact .inl rfl

/-- A change that leaves groups, layers and the worker alone, and what is known about the runs. -/
structure Spares (m m' : Machine σ) : Prop where
  groups : m'.groups = m.groups
  scopes : m'.scopes = m.scopes
  running : m'.running = m.running
  budget : m'.stepBudget = m.stepBudget
  roots : m'.roots = m.roots
  results : m'.results = m.results

/-- Who ends a wait or hands over an exit leaves all of them alone. -/
theorem spares_deliver (m : Machine σ) (p : FiberId) (x : Exit) : m.Spares (m.deliver p x) := by
  rcases m.deliver_cases p x with same | ⟨change, ready, same, -⟩ <;> rw [same]
  · exact ⟨rfl, rfl, rfl, rfl, rfl, rfl⟩
  · exact ⟨rfl, rfl, rfl, rfl, rfl, rfl⟩

theorem waits_deliver (m : Machine σ) (p : FiberId) (x : Exit) :
    (m.deliver p x).waits = m.waits := by
  rcases m.deliver_cases p x with same | ⟨change, ready, same, -⟩ <;> rw [same]
  rfl

theorem spares_claim (m : Machine σ) (w : WaitId) : m.Spares (m.claim w).2 := by
  obtain ⟨waits, same⟩ := m.claim_eq w
  rw [same]
  exact ⟨rfl, rfl, rfl, rfl, rfl, rfl⟩

theorem spares_resume (m : Machine σ) (w : WaitId) (x : Exit) : m.Spares (m.resume w x) := by
  obtain ⟨same, -⟩ | ⟨wait, -, -, same⟩ := m.resume_cases w x <;> rw [same]
  · exact ⟨rfl, rfl, rfl, rfl, rfl, rfl⟩
  · obtain ⟨waits, same⟩ := m.claim_eq w
    rw [same]
    obtain ⟨groups, scopes, running, budget, roots, results⟩ :=
      spares_deliver { m with waits } wait.owner x
    exact ⟨groups, scopes, running, budget, roots, results⟩

theorem spares_breakWait (m : Machine σ) (g : FiberId) (fiber : Fiber σ) :
    m.Spares (m.breakWait g fiber).2 := by
  obtain ⟨same, -⟩ | ⟨w, canceler, -, -, same⟩ := m.breakWait_cases g fiber <;> rw [same]
  · exact ⟨rfl, rfl, rfl, rfl, rfl, rfl⟩
  · obtain ⟨waits, same⟩ := m.claim_eq w
    simp only [same]
    exact ⟨rfl, rfl, rfl, rfl, rfl, rfl⟩

/-- They change only the row of the fiber that they are about. -/
theorem fiber?_deliver (other : f ≠ p) (m : Machine σ) (x : Exit) :
    (m.deliver p x).fiber? f = m.fiber? f := by
  rcases m.deliver_cases p x with same | ⟨change, ready, same, -⟩
  · rw [same]
  · rw [same]
    exact (fiber?_modifyFiber m p f change).trans (if_neg (Ne.symm other))

theorem fiber?_claim (m : Machine σ) (w : WaitId) (f : FiberId) :
    (m.claim w).2.fiber? f = m.fiber? f := by
  obtain ⟨waits, same⟩ := m.claim_eq w
  rw [same]
  rfl

theorem fiber?_breakWait (other : f ≠ g) (m : Machine σ) (fiber : Fiber σ) :
    (m.breakWait g fiber).2.fiber? f = m.fiber? f := by
  obtain ⟨same, -⟩ | ⟨w, canceler, -, -, same⟩ := m.breakWait_cases g fiber <;> rw [same]
  rw [fiber?_modifyFiber, if_neg (Ne.symm other), fiber?_claim]

theorem KeepsRows.deliver (m : Machine σ) (p : FiberId) (x : Exit) :
    m.KeepsRows (m.deliver p x) := by
  rcases m.deliver_cases p x with same | ⟨change, ready, same, kept⟩
  · exact .of_eq (by rw [same])
  · refine .of_modify (g := p) (by rw [same]; rfl)
      (fun fiber _ => ?_) fun fiber w how _ listed => ?_
    · rw [(kept fiber).1]
      exact id
    · rw [(kept fiber).2.observers] at listed
      exact .inr listed

theorem KeepsBooks.deliver (m : Machine σ) (p : FiberId) (x : Exit) :
    m.KeepsBooks (m.deliver p x) := by
  rcases m.deliver_cases p x with same | ⟨change, ready, same, kept⟩
  · exact .of_eq (by rw [same]) (by rw [same])
  · exact .of_modify (g := p) (by rw [same]; rfl) (by rw [same]; rfl) fun fiber _ => (kept fiber).2

theorem KeepsBooks.resume (m : Machine σ) (w : WaitId) (x : Exit) :
    m.KeepsBooks (m.resume w x) := by
  obtain ⟨same, -⟩ | ⟨wait, -, -, same⟩ := m.resume_cases w x <;> rw [same]
  · exact .of_eq rfl rfl
  · obtain ⟨waits, same⟩ := m.claim_eq w
    rw [same]
    have claimed : m.KeepsBooks { m with waits } := .of_eq rfl rfl
    exact claimed.trans (.deliver _ _ x)

end Machine

namespace Change

variable {actor : Option FiberId} {deals : Bool} {m m' : Machine σ}

theorem keepsRows (change : Change actor deals m m') : m.KeepsRows m' := by
  cases change with
  | quiet same told => exact .of_eq same.fibers
  | worker m running own => exact .of_eq rfl
  | mark m g => exact .of_modify (g := g) rfl (fun _ _ _ => rfl) fun _ _ _ _ => .inr
  | @breakWait m g fiber row marked =>
      obtain ⟨same, -⟩ | ⟨w, canceler, -, -, same⟩ := m.breakWait_cases g fiber <;> rw [same]
      · exact .of_eq rfl
      · obtain ⟨waits, same⟩ := m.claim_eq w
        have taken : ((m.claim w).2.modifyFiber g (Coherent.answered .interrupted)).fibers =
            m.fibers.modify g (Coherent.answered .interrupted) := by
          rw [same]
          rfl
        exact .of_modify taken (fun _ _ => id) fun _ _ _ _ => .inr
  | @resume m w x rightful =>
      obtain ⟨same, -⟩ | ⟨wait, -, -, same⟩ := m.resume_cases w x <;> rw [same]
      · exact .of_eq rfl
      · obtain ⟨waits, same⟩ := m.claim_eq w
        rw [same]
        rcases ({ m with waits } : Machine σ).deliver_cases wait.owner x with
          same | ⟨change, ready, same, kept⟩
        · exact .of_eq (by rw [same])
        · refine .of_modify (g := wait.owner) (by rw [same]; rfl) (fun fiber _ => ?_)
            fun fiber w how _ listed => ?_
          · rw [(kept fiber).1]
            exact id
          · rw [(kept fiber).2.observers] at listed
            exact .inr listed
  | @deliver m p g x leads asleep => exact .deliver m p x
  | openWait m source own => exact .of_eq rfl
  | @claim m w own =>
      obtain ⟨waits, same⟩ := m.claim_eq w
      exact .of_eq (by rw [same])
  | pushGroup own row => exact .of_eq rfl
  | setGroup parent => exact .of_eq rfl
  | pushFiber newborn admitted => exact .push newborn
  | adopt c own => exact .of_modify rfl (fun _ _ => id) fun _ _ _ _ => .inr
  | mild mild kept =>
      refine .of_modify rfl (fun fiber row => ?_) fun fiber w how row listed => .inr ?_
      · rw [(mild fiber row).interrupted]
        exact id
      · exact (mild fiber row).watchers w how listed
  | watch g how untimed allowed =>
      refine .of_modify rfl (fun _ _ => id) fun fiber w how _ listed => ?_
      rcases List.mem_append.1 listed with old | new
      · exact .inr old
      · obtain ⟨rfl, rfl⟩ := by simpa using new
        exact .inl untimed
  | own own kept =>
      refine .of_modify rfl (fun fiber _ => ?_) fun fiber w how _ listed => .inr ?_
      · rw [(kept fiber).1]
        exact id
      · rwa [(kept fiber).2.observers] at listed
  | ended x allowed gone =>
      refine .of_modify rfl (fun _ _ => id) fun fiber w how _ listed => ?_
      cases listed

/-- Operations that do not deal with the ends of fibers leave the books alone. -/
theorem keepsBooks (change : Change actor false m m') : m.KeepsBooks m' := by
  cases change with
  | quiet same told => exact .of_eq same.fibers (told rfl)
  | mark m g => exact .of_modify (g := g) rfl rfl fun _ _ => ⟨rfl, rfl, rfl⟩
  | @breakWait m g fiber row marked =>
      obtain ⟨same, -⟩ | ⟨w, canceler, -, -, same⟩ := m.breakWait_cases g fiber <;> rw [same]
      · exact .of_eq rfl rfl
      · obtain ⟨waits, same⟩ := m.claim_eq w
        simp only [same]
        exact .of_modify (g := g) rfl rfl fun _ _ => ⟨rfl, rfl, rfl⟩
  | @resume m w x rightful => exact .resume m w x
  | @deliver m p g x leads asleep => exact .deliver m p x
  | @claim m w own =>
      obtain ⟨waits, same⟩ := m.claim_eq w
      exact .of_eq (by rw [same]) (by rw [same])
  | pushFiber newborn admitted => exact .push newborn
  | adopt c own => exact .of_modify rfl rfl fun _ _ => ⟨rfl, rfl, rfl⟩
  | mild mild kept => exact .of_modify rfl rfl (kept rfl)
  | watch g how untimed allowed => cases allowed
  | own own kept => exact .of_modify rfl rfl fun fiber _ => (kept fiber).2
  | ended x allowed gone => cases allowed
  | _ => exact .of_eq rfl rfl

/-- Nobody loses what it was born with. -/
theorem keepsSeats (change : Change actor deals m m') : m.KeepsSeats m' := by
  cases change with
  | quiet same told => exact .of_eq same.fibers
  | mark m g => exact .of_modify rfl fun _ _ => ⟨rfl, rfl, rfl⟩
  | @breakWait m g fiber row marked =>
      obtain ⟨same, -⟩ | ⟨w, canceler, -, -, same⟩ := m.breakWait_cases g fiber <;> rw [same]
      · exact .of_eq rfl
      · obtain ⟨waits, same⟩ := m.claim_eq w
        simp only [same]
        exact .of_modify (g := g) rfl fun _ _ => ⟨rfl, rfl, rfl⟩
  | @resume m w x rightful =>
      obtain ⟨same, -⟩ | ⟨wait, -, -, same⟩ := m.resume_cases w x <;> rw [same]
      · exact .of_eq rfl
      · obtain ⟨waits, same⟩ := m.claim_eq w
        rw [same]
        have claimed : m.KeepsSeats { m with waits } := .of_eq rfl
        exact claimed.trans (.deliver _ _ x)
  | @deliver m p g x leads asleep => exact .deliver m p x
  | @claim m w own =>
      obtain ⟨waits, same⟩ := m.claim_eq w
      exact .of_eq (by rw [same])
  | pushFiber newborn admitted =>
      intro f fiber row
      exact ⟨fiber, Table.get?_push_of_some _ row, rfl, rfl, rfl⟩
  | adopt c own => exact .of_modify rfl fun _ _ => ⟨rfl, rfl, rfl⟩
  | mild mild kept => exact .of_modify rfl fun fiber row => (mild fiber row).seat
  | watch g how untimed allowed => exact .of_modify rfl fun _ _ => ⟨rfl, rfl, rfl⟩
  | own own kept seat => exact .of_modify rfl fun fiber _ => seat fiber
  | ended x allowed gone => exact .of_modify rfl fun _ _ => ⟨rfl, rfl, rfl⟩
  | _ => exact .of_eq rfl

theorem keepsWaits (change : Change actor deals m m') : m.KeepsWaits m' := by
  cases change with
  | quiet same told => exact .of_eq same.waits
  | @breakWait m g fiber row marked =>
      obtain ⟨same, -⟩ | ⟨w, canceler, -, -, same⟩ := m.breakWait_cases g fiber <;> rw [same]
      · exact .of_eq rfl
      · exact m.keepsWaits_claim w
  | @resume m w x rightful =>
      obtain ⟨same, -⟩ | ⟨wait, -, -, same⟩ := m.resume_cases w x <;> rw [same]
      · exact .of_eq rfl
      · intro v before row
        rw [Machine.waits_deliver]
        exact m.keepsWaits_claim w row
  | @deliver m p g x leads asleep => exact .of_eq (m.waits_deliver p x)
  | openWait m source own =>
      intro w wait row
      exact ⟨wait, Table.get?_push_of_some _ row, rfl, rfl, id⟩
  | @claim m w own => exact m.keepsWaits_claim w
  | _ => exact .of_eq rfl

theorem builders (change : Change actor deals m m') {w : WaitId} (awaits : m'.AwaitsBuild w) :
    m.AwaitsBuild w ∨ m.Untimed w := by
  have same : ∀ {n : Machine σ}, n.scopes = m.scopes → n.AwaitsBuild w → m.AwaitsBuild w := by
    rintro n scopes ⟨scope, layer, listed⟩
    refine ⟨scope, layer, ?_⟩
    rwa [Machine.memo, scopes] at listed
  cases change with
  | quiet same told => exact same.builders w awaits
  | @breakWait m g fiber row marked => exact .inl (same (m.spares_breakWait g fiber).scopes awaits)
  | @resume m v x rightful => exact .inl (same (m.spares_resume v x).scopes awaits)
  | @deliver m p g x leads asleep => exact .inl (same (m.spares_deliver p x).scopes awaits)
  | @claim m v own => exact .inl (same (m.spares_claim v).scopes awaits)
  | _ => exact .inl (same rfl awaits)

theorem leadsGroup (change : Change actor deals m m') {p : FiberId} (leads : m'.LeadsGroup p) :
    m.LeadsGroup p ∨ actor = some p ∧ (m.fiber? p).isSome := by
  have same : ∀ {n : Machine σ}, n.groups = m.groups → n.LeadsGroup p → m.LeadsGroup p := by
    rintro n groups ⟨g, group, row, parent⟩
    exact ⟨g, group, groups ▸ row, parent⟩
  cases change with
  | quiet quiet told => exact .inl (same quiet.groups leads)
  | @breakWait m g fiber row marked => exact .inl (same (m.spares_breakWait g fiber).groups leads)
  | @resume m v x rightful => exact .inl (same (m.spares_resume v x).groups leads)
  | @deliver m q g x _ _ => exact .inl (same (m.spares_deliver q x).groups leads)
  | @claim m v own => exact .inl (same (m.spares_claim v).groups leads)
  | @pushGroup m group own row =>
      obtain ⟨g, group', row', rfl⟩ := leads
      rw [Table.get?_push] at row'
      split at row'
      · obtain rfl := Option.some.inj row'
        exact .inr ⟨own, row⟩
      · exact .inl ⟨g, group', row', rfl⟩
  | @setGroup m g group parent =>
      obtain ⟨k, group', row', rfl⟩ := leads
      simp only [Machine.setGroup, Table.get?_modify] at row'
      split at row'
      · obtain ⟨before, row, rfl⟩ := Option.map_eq_some_iff.1 row'
        rename_i at_g
        exact .inl ⟨k, before, row, (parent before (at_g ▸ row)).symm⟩
      · exact .inl ⟨k, group', row', rfl⟩
  | _ => exact .inl (same rfl leads)

/-- Who has started a group has started it for good. -/
theorem leadsGroup_after (change : Change actor deals m m') {p : FiberId} (leads : m.LeadsGroup p) :
    m'.LeadsGroup p := by
  obtain ⟨k, group, row, parent⟩ := leads
  have same : ∀ {n : Machine σ}, n.groups = m.groups → n.LeadsGroup p := fun groups =>
    ⟨k, group, groups ▸ row, parent⟩
  cases change with
  | quiet quiet told => exact same quiet.groups
  | @breakWait m g fiber row marked => exact same (m.spares_breakWait g fiber).groups
  | @resume m v x rightful => exact same (m.spares_resume v x).groups
  | @deliver m q g x _ _ => exact same (m.spares_deliver q x).groups
  | @claim m v own => exact same (m.spares_claim v).groups
  | @pushGroup m group' own _ => exact ⟨k, group, Table.get?_push_of_some group' row, parent⟩
  | @setGroup m g group' kept =>
      by_cases here : g = k
      · refine ⟨k, group', ?_, ?_⟩
        · simp [Machine.setGroup, Table.get?_modify, here, row]
        · rw [kept group (here ▸ row), parent]
      · refine ⟨k, group, ?_, parent⟩
        simp [Machine.setGroup, Table.get?_modify, here, row]
  | _ => exact same rfl

/-- Only on behalf of a fiber the worker takes up a fiber or leaves it. -/
theorem running (change : Change none deals m m') : m'.running = m.running := by
  cases change with
  | quiet quiet told => exact quiet.running
  | worker m running own => cases own
  | @breakWait m g fiber row marked => exact (m.spares_breakWait g fiber).running
  | @resume m v x rightful => exact (m.spares_resume v x).running
  | @deliver m q g x _ _ => exact (m.spares_deliver q x).running
  | @claim m v own => exact (m.spares_claim v).running
  | _ => rfl

/-- The step budget is given once and for all. -/
theorem stepBudget (change : Change actor deals m m') : m'.stepBudget = m.stepBudget := by
  cases change with
  | quiet quiet told => exact quiet.budget
  | @breakWait m g fiber row marked => exact (m.spares_breakWait g fiber).budget
  | @resume m v x rightful => exact (m.spares_resume v x).budget
  | @deliver m q g x _ _ => exact (m.spares_deliver q x).budget
  | @claim m v own => exact (m.spares_claim v).budget
  | _ => rfl

theorem tidy (change : Change actor deals m m') (tidy : m.Tidy) : m'.Tidy := by
  have rows := change.keepsRows
  have waits := change.keepsWaits
  refine ⟨fun found listed => ?_, fun awaits => ?_, fun leads => ?_⟩
  · rcases rows.watchers found listed with untimed | ⟨before, known, listed⟩
    · exact untimed.mono waits
    · exact (tidy.watchers known listed).mono waits
  · rcases change.builders awaits with awaits | untimed
    · exact (tidy.builders awaits).mono waits
    · exact untimed.mono waits
  · rcases change.leadsGroup leads with leads | ⟨-, some⟩
    · exact rows.rows (tidy.parents leads)
    · exact rows.rows some

end Change

namespace Evolves

variable {actor : Option FiberId} {deals : Bool} {m m' m'' : Machine σ} {f g p : FiberId}
  {w : WaitId}

theorem refl (m : Machine σ) : Evolves actor deals m m := Relation.ReflTransGen.refl

theorem trans (first : Evolves actor deals m m') (second : Evolves actor deals m' m'') :
    Evolves actor deals m m'' :=
  Relation.ReflTransGen.trans first second

theorem of_change (change : Change actor deals m m') : Evolves actor deals m m' :=
  Relation.ReflTransGen.single change

theorem tidy (evolves : Evolves actor deals m m') (tidy : m.Tidy) : m'.Tidy := by
  induction evolves with
  | refl => exact tidy
  | tail _ change ih => exact change.tidy ih

theorem marked (evolves : Evolves actor deals m m') (marked : m.isInterrupted f = true) :
    m'.isInterrupted f = true := by
  induction evolves with
  | refl => exact marked
  | tail _ change ih => exact change.keepsRows.marks ih

theorem keepsWaits (evolves : Evolves actor deals m m') : m.KeepsWaits m' := by
  induction evolves with
  | refl => exact .of_eq rfl
  | tail _ change ih =>
      intro w wait row
      obtain ⟨wait₁, row₁, owner₁, source₁, claimed₁⟩ := ih row
      obtain ⟨wait₂, row₂, owner₂, source₂, claimed₂⟩ := change.keepsWaits row₁
      exact ⟨wait₂, row₂, owner₂.trans owner₁, source₂.trans source₁, claimed₂ ∘ claimed₁⟩

theorem leadsGroup (evolves : Evolves actor deals m m') (leads : m.LeadsGroup p) :
    m'.LeadsGroup p := by
  induction evolves with
  | refl => exact leads
  | tail _ change ih => exact change.leadsGroup_after ih

theorem running (evolves : Evolves none deals m m') : m'.running = m.running := by
  induction evolves with
  | refl => rfl
  | tail _ change ih => exact change.running.trans ih

theorem stepBudget (evolves : Evolves actor deals m m') : m'.stepBudget = m.stepBudget := by
  induction evolves with
  | refl => rfl
  | tail _ change same => exact change.stepBudget.trans same

theorem keepsSeats (evolves : Evolves actor deals m m') : m.KeepsSeats m' := by
  induction evolves with
  | refl => exact .of_eq rfl
  | tail _ change ih => exact ih.trans change.keepsSeats

theorem rows (evolves : Evolves actor deals m m') (row : (m.fiber? f).isSome) :
    (m'.fiber? f).isSome := by
  induction evolves with
  | refl => exact row
  | tail _ change ih => exact change.keepsRows.rows ih

theorem keepsBooks (evolves : Evolves actor false m m') : m.KeepsBooks m' := by
  induction evolves with
  | refl => exact .of_eq rfl rfl
  | tail _ change ih => exact ih.trans change.keepsBooks

theorem foldl {α : Type} {step : Machine σ → α → Machine σ} (m : Machine σ)
    (steps : ∀ m a, Evolves actor deals m (step m a)) (as : List α) :
    Evolves actor deals m (as.foldl step m) := by
  induction as generalizing m with
  | nil => exact refl m
  | cons a as ih => exact (steps m a).trans (ih _)

/-! ## Operations without an actor -/

theorem write (m : Machine σ) {entry : Entry} (other : deals = true ∨ entry.exit? = none) :
    Evolves actor deals m (m.write entry) := by
  refine of_change (.quiet (.of_scopes rfl rfl rfl rfl rfl rfl) fun leaves => ?_)
  have none := other.resolve_left (by simp [leaves])
  simp [Machine.write, exits, none]

theorem trace (m : Machine σ) {event : TraceEvent}
    (other : deals = true ∨ Entry.exit? (.trace event) = none) :
    Evolves actor deals m (m.trace event) :=
  write m other

theorem enqueue (m : Machine σ) (f : FiberId) : Evolves actor deals m (m.enqueue f) :=
  of_change (.quiet (.of_scopes rfl rfl rfl rfl rfl rfl) fun _ => rfl)

theorem setWorld (m : Machine σ) (world : World σ) : Evolves actor deals m { m with world } :=
  of_change (.quiet (.of_scopes rfl rfl rfl rfl rfl rfl) fun _ => rfl)

theorem note (m : Machine σ) (request : Request) :
    Evolves actor deals m (match request with
      | .note v => m.write (.note v)
      | _ => m) := by
  cases request with
  | note v => exact write m (.inr rfl)
  | _ => exact refl m

theorem runCanceler (m : Machine σ) (f : FiberId) (canceler : Canceler σ) :
    Evolves actor deals m (m.runCanceler f canceler) := by
  cases canceler with
  | none => exact refl m
  | timer handle => exact of_change (.quiet (.of_scopes rfl rfl rfl rfl rfl rfl) fun _ => rfl)
  | code cleanup =>
      simp only [Machine.runCanceler, Machine.runCleanup]
      split
      · exact (setWorld m _).trans (foldl _ note _)
      · exact ((setWorld m _).trans (foldl _ note _)).trans (trace _ (.inr rfl))

/-- What an interrupt does once it has marked its fiber. -/
theorem interruptWithin_of_mark {depth : Nat}
    (below : ∀ (m : Machine σ) f, Evolves actor deals m (m.interruptWithin depth f)) (m : Machine σ)
    (f : FiberId) : Evolves actor deals (m.mark f) (m.interruptWithin (depth + 1) f) := by
  unfold Machine.interruptWithin
  simp only
  split
  · exact refl _
  rename_i fiber row
  split
  · exact refl _
  have mark : fiber.interrupted = true := by
    simp only [Machine.mark, Machine.fiber?_modifyFiber, ↓reduceIte] at row
    obtain ⟨before, -, rfl⟩ := Option.map_eq_some_iff.1 row
    rfl
  have broken : Evolves actor deals (m.mark f) ((m.mark f).breakWait f fiber).2 :=
    of_change (.breakWait row mark)
  generalize (m.mark f).breakWait f fiber = result at broken ⊢
  obtain ⟨canceler, m'⟩ := result
  have told : Evolves actor deals m' (m'.trace (.interrupting f fiber.children.length)) :=
    trace m' (.inr rfl)
  have all := broken.trans (told.trans (foldl _ (fun m c => below m c) fiber.children))
  cases canceler with
  | none => exact all
  | some canceler => exact (all.trans (runCanceler _ f canceler)).trans (enqueue _ f)

theorem interruptWithin (depth : Nat) (m : Machine σ) (f : FiberId) :
    Evolves actor deals m (m.interruptWithin depth f) := by
  induction depth generalizing m f with
  | zero => exact refl m
  | succ depth ih => exact (of_change (.mark m f)).trans (interruptWithin_of_mark ih m f)

theorem interrupt (m : Machine σ) (f : FiberId) : Evolves actor deals m (m.interrupt f) :=
  interruptWithin _ m f

theorem interruptAll (m : Machine σ) (fibers : List FiberId) :
    Evolves actor deals m (m.interruptAll fibers) := foldl m (fun m f => interrupt m f) fibers

/-- Whoever is interrupted is marked. -/
theorem marked_interruptAll {fibers : List FiberId} (listed : f ∈ fibers)
    (born : (m.fiber? f).isSome) : (m.interruptAll fibers).isInterrupted f = true := by
  have first : ∀ n : Machine σ, (n.fiber? f).isSome → (n.interrupt f).isInterrupted f = true := by
    intro n born
    have kept : Evolves none false (n.mark f) (n.interrupt f) :=
      interruptWithin_of_mark (fun n g => interruptWithin _ n g) n f
    refine kept.marked ?_
    obtain ⟨fiber, row⟩ := Option.isSome_iff_exists.1 born
    rw [Machine.isInterrupted, Machine.row_of_mark row]
    rfl
  unfold Machine.interruptAll
  induction fibers generalizing m with
  | nil => cases listed
  | cons g fibers ih =>
      have one : Evolves none false m (m.interrupt g) := interrupt m g
      have others : Evolves none false (m.interrupt g) ((m.interrupt g).interruptAll fibers) :=
        interruptAll _ fibers
      rcases List.mem_cons.1 listed with rfl | later
      · exact others.marked (first m born)
      · exact ih later (one.rows born)

theorem enqueueAll (m : Machine σ) (fibers : List FiberId) :
    Evolves actor deals m (m.enqueueAll fibers) :=
  foldl m (fun m f => enqueue m f) fibers

/-- A wait that is not for a timer may end in any way. -/
theorem resume (untimed : m.Untimed w) (x : Exit) : Evolves actor deals m (m.resume w x) := by
  refine of_change (.resume fun wait row timer => ?_)
  obtain ⟨wait', row', other⟩ := untimed
  obtain rfl := Option.some.inj (row.symm.trans row')
  exact absurd timer other

/-- Any wait may end with nothing. -/
theorem resume_null (m : Machine σ) (w : WaitId) : Evolves actor deals m (m.resume w (.ok .null)) :=
  of_change (.resume fun _ _ _ => rfl)

theorem resumeCallback (m : Machine σ) (w : WaitId) (x : Exit) :
    Evolves actor deals m (m.resumeCallback w x) := by
  unfold Machine.resumeCallback
  split
  · rename_i callback
    obtain ⟨wait, row, source⟩ := (Option.any_eq_true _ _).1 callback
    refine resume ⟨wait, row, ?_⟩ x
    rw [eq_of_beq source]
    exact nofun
  · exact refl m

theorem serve (m : Machine σ) (request : Request) : Evolves actor deals m (m.serve request) := by
  cases request with
  | note v => exact write m (.inr rfl)
  | resume w x => exact resumeCallback m w x
  | resumeLater w x => exact of_change (.quiet (.of_scopes rfl rfl rfl rfl rfl rfl) fun _ => rfl)
  | interrupt f => exact interrupt m f
  | shutdown =>
      exact (foldl m (fun m f => interrupt m f) m.roots).trans
        (of_change (.quiet (.of_scopes rfl rfl rfl rfl rfl rfl) fun _ => rfl))

theorem perform {α : Type} (m : Machine σ) (code : Action σ α) :
    Evolves actor deals m (m.perform code).2 :=
  (setWorld m _).trans (foldl _ serve _)

/-! ## Layers -/

theorem wake (m : Machine σ) {waiters : List WaitId} {x : Exit}
    (rightful : x = .ok .null ∨ ∀ w ∈ waiters, m.Untimed w) :
    Evolves actor deals m (m.wake waiters x) := by
  induction waiters generalizing m with
  | nil => exact refl m
  | cons w waiters ih =>
      have first : Evolves actor deals m (m.resume w x) := by
        rcases rightful with rfl | untimed
        · exact resume_null m w
        · exact resume (untimed w (by simp)) x
      refine first.trans (ih _ (rightful.imp_right fun untimed v listed => ?_))
      exact (untimed v (by simp [listed])).mono first.keepsWaits

/-- A change to what is known about the layers of a run. -/
theorem modifyMemo (m : Machine σ) (scope : ScopeId) {change : Memo → Memo}
    (kept : ∀ layer w, w ∈ (change (m.memo scope)).waiters layer →
      m.AwaitsBuild w ∨ m.Untimed w) : Evolves actor deals m (m.modifyMemo scope change) := by
  refine of_change (.quiet ⟨rfl, rfl, rfl, rfl, rfl, fun s known => ?_, ?_⟩ fun _ => rfl)
  · rw [Machine.modifyMemo, Table.get?_modify]
    split
    · simpa using known
    · exact known
  rintro w ⟨s, layer, listed⟩
  simp only [Machine.memo, Machine.modifyMemo, Table.get?_modify] at listed
  split at listed
  · rename_i same
    subst same
    cases row : m.scopes.get? scope with
    | none => simp [row, Memo.waiters, Memo.get?] at listed
    | some memo =>
        refine kept layer w ?_
        simpa [Machine.memo, row] using listed
  · exact .inl ⟨s, layer, listed⟩

theorem waiters_insert (memo : Memo) (l k : LayerId) (entry : MemoEntry) :
    (memo.insert l entry).waiters k =
      if l = k then (match entry with | .building _ waiters => waiters | .built _ => [])
      else memo.waiters k := by
  unfold Memo.waiters
  rw [Memo.get?_insert]
  by_cases same : l = k
  · rw [if_pos same, if_pos same]
    cases entry <;> rfl
  · rw [if_neg same, if_neg same]

theorem lookUpLayer (m : Machine σ) (scope : ScopeId) (layer : LayerNode σ) (f : FiberId) :
    Evolves actor deals m (m.lookUpLayer scope layer f).2 := by
  unfold Machine.lookUpLayer
  split
  · exact refl m
  · exact refl m
  · refine (modifyMemo m scope fun k w listed => .inl ⟨scope, k, ?_⟩).trans (trace _ (.inr rfl))
    rw [waiters_insert] at listed
    split at listed
    · cases listed
    · exact listed

theorem joinBuild (scope : ScopeId) (layer : LayerId) (untimed : m.Untimed w) :
    Evolves actor deals m (m.joinBuild scope layer w) := by
  unfold Machine.joinBuild
  split
  · rename_i owner waiters building
    refine modifyMemo m scope fun k v listed => ?_
    rw [waiters_insert] at listed
    split at listed
    · rename_i same
      rcases List.mem_append.1 listed with old | new
      · refine .inl ⟨scope, k, ?_⟩
        rwa [Memo.waiters, ← same, building]
      · obtain rfl := List.mem_singleton.1 new
        exact .inr untimed
    · exact .inl ⟨scope, k, listed⟩
  · exact resume_null m w

theorem completeBuild (m : Machine σ) (scope : ScopeId) (layer : LayerNode σ)
    (context : Context Value) : Evolves actor deals m (m.completeBuild scope layer context) := by
  refine (modifyMemo m scope fun k w listed => .inl ⟨scope, k, ?_⟩).trans
    ((trace _ (.inr rfl)).trans (wake _ (.inl rfl)))
  rw [waiters_insert] at listed
  split at listed
  · cases listed
  · exact listed

theorem forgetBuild (tidy : m.Tidy) (scope : ScopeId) (layer : LayerNode σ)
    (outcome : BuildOutcome) (x : Exit) :
    Evolves actor deals m (m.forgetBuild scope layer outcome x) := by
  unfold Machine.forgetBuild
  split
  · rename_i owner waiters building
    have erased : Evolves actor deals m (m.modifyMemo scope (·.erase layer.id)) := by
      refine modifyMemo m scope fun k w listed => .inl ⟨scope, k, ?_⟩
      unfold Memo.waiters at listed ⊢
      rw [Memo.get?_erase] at listed
      split at listed
      · rename_i found
        split at found
        · cases found
        · rw [found]
          exact listed
      · cases listed
    refine (erased.trans (trace _ (.inr rfl))).trans (wake _ (.inr fun w listed => ?_))
    have known : m.AwaitsBuild w := by
      refine ⟨scope, layer.id, ?_⟩
      rwa [Memo.waiters, building]
    exact (tidy.builders known).mono (erased.trans (trace _ (.inr rfl))).keepsWaits
  · exact refl m

end Evolves

end EffectFibers
