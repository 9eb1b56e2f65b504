import EffectFibers.Machine.Tick
import EffectFibers.Machine.Launch
import EffectFibers.Proofs.Changes.Spares

/-!
# Laws about what the machine keeps for later

Programs reach the machine piece by piece: the nodes of a group that wait for a place, the programs
of fibers that have not taken a step yet, the cleanups of waits.  A law says of all that the machine
keeps of this kind that it is fit for its use.  Most operations have no program to start, and merely
pass on what is kept; so a law that small changes keep is kept by all of them.

## Main definitions

* `Machine.RowsFit` – what the rows of fibers keep for later is fit for its use.
* `Machine.Law` – a property of machines that small changes keep.

## Main statements

* `Machine.Law.interrupt`, `Machine.Law.serve` – interrupts and the requests of user code.
* `Machine.Law.finish` – the end of a program, which may start others.
* `Machine.Law.follow`, `Machine.Law.dispatch` – what the worker does besides steps.
-/

namespace EffectFibers

variable {σ : Type}

/-- A row keeps its run, and nothing of its program or its wait is new. -/
structure Fiber.Fades (before after : Fiber σ) : Prop where
  scope : after.scope = before.scope
  run : after.run = before.run ∨ after.run = none
  pending : after.pending = before.pending ∨ after.pending = none

namespace Machine

/-! ## What the rows keep -/

/-- What the rows keep for later is fit for its use: whatever tidies up after a wait, and the programs
of fibers that have not begun, as far as they are not old. -/
structure RowsFit (old : FiberId → Prop) (tame : Pending σ → Prop)
    (starts : ScopeId → RunState σ → Prop) (m : Machine σ) : Prop where
  tame : ∀ f fiber pending, m.fiber? f = some fiber → fiber.pending = some pending → tame pending
  starts : ∀ f fiber run, ¬ old f → m.fiber? f = some fiber → fiber.run = some run →
    starts fiber.scope run

namespace RowsFit

variable {old : FiberId → Prop} {tame : Pending σ → Prop} {starts : ScopeId → RunState σ → Prop}
  {m m' : Machine σ}

theorem congr (fit : m.RowsFit old tame starts) (fibers : m'.fibers = m.fibers) :
    m'.RowsFit old tame starts := by
  have rows : ∀ f, m'.fiber? f = m.fiber? f := fun f => by rw [fiber?, fibers, fiber?]
  refine ⟨fun f fiber pending row => ?_, fun f fiber run new row => ?_⟩
  · exact fit.tame f fiber pending (rows f ▸ row)
  · exact fit.starts f fiber run new (rows f ▸ row)

/-- A change to a row.  Only an old fiber may get a program, and what tidies up after a new wait has
to be tame. -/
theorem modify (g : FiberId) {change : Fiber σ → Fiber σ} (fit : m.RowsFit old tame starts)
    (scope : ∀ fiber, (change fiber).scope = fiber.scope)
    (run : old g ∨ ∀ fiber, (change fiber).run = fiber.run ∨ (change fiber).run = none)
    (pending : ∀ fiber p, (change fiber).pending = some p → fiber.pending = some p ∨ tame p) :
    (m.modifyFiber g change).RowsFit old tame starts := by
  refine ⟨fun f after p row waits => ?_, fun f after rest new row saved => ?_⟩
  · obtain ⟨fiber, row', rfl | ⟨-, rfl⟩⟩ := fiber?_of_modifyFiber row
    · exact fit.tame f _ p row' waits
    · exact (pending fiber p waits).elim (fit.tame f fiber p row') id
  · obtain ⟨fiber, row', rfl | ⟨rfl, rfl⟩⟩ := fiber?_of_modifyFiber row
    · exact fit.starts f _ rest new row' saved
    · rw [scope]
      rcases run.resolve_left new fiber with kept | gone
      · exact fit.starts _ fiber rest new row' (kept ▸ saved)
      · simp [gone] at saved

/-- A fiber is born with a program that can be started. -/
theorem push (fit : m.RowsFit old tame starts) {fiber : Fiber σ} (awake : fiber.pending = none)
    (begins : ∀ run, fiber.run = some run → starts fiber.scope run) :
    { m with fibers := m.fibers.push fiber }.RowsFit old tame starts := by
  have rows : ∀ g after, { m with fibers := m.fibers.push fiber }.fiber? g = some after →
      after = fiber ∨ m.fiber? g = some after := by
    intro g after row
    rw [fiber?, Table.get?_push] at row
    split at row
    · exact .inl (Option.some.inj row).symm
    · exact .inr row
  refine ⟨fun g after pending row waits => ?_, fun g after run new row saved => ?_⟩
  · obtain rfl | row' := rows g after row
    · simp [awake] at waits
    · exact fit.tame g after pending row' waits
  · obtain rfl | row' := rows g after row
    · exact begins run saved
    · exact fit.starts g after run new row' saved

end RowsFit

/-! ## Laws -/

/-- A property of machines that depends on the world, the fibers, the groups and the layers only,
and that small changes keep: a row fades, a wait is given up, the exit of a member reaches its
group, and further members start.  Only an old fiber may get a program, and a fiber may only wait
for something tame. -/
structure Law (old : FiberId → Prop) (tame : Pending σ → Prop) (P : Machine σ → Prop) : Prop where
  congr : ∀ {m m' : Machine σ}, P m → m'.world = m.world → m'.fibers = m.fibers →
    m'.groups = m.groups → m'.scopes = m.scopes → P m'
  row : ∀ {m : Machine σ} (g : FiberId) {change : Fiber σ → Fiber σ}, P m →
    (∀ fiber, (change fiber).scope = fiber.scope) →
    (old g ∨ ∀ fiber, (change fiber).run = fiber.run ∨ (change fiber).run = none) →
    (∀ fiber p, (change fiber).pending = some p → fiber.pending = some p ∨ tame p) →
    P (m.modifyFiber g change)
  pending : ∀ {m : Machine σ} {f fiber pending}, P m → m.fiber? f = some fiber →
    fiber.pending = some pending → tame pending
  cleanup : ∀ {m : Machine σ} {w cleanup}, P m → tame (.wait w (.code cleanup)) →
    P { m with world := (cleanup (statusOf m.fibers) m.world).world }
  race : ∀ {m : Machine σ} (g : GroupId) (race : Race), P m → P (m.setGroup g (.race race))
  settle : ∀ {m : Machine σ} {g all} (i : Nat) (x : Exit) (late : Bool), P m →
    m.groups.get? g = some (.all all) → P (m.setGroup g (.all (all.settle i x late).2))
  fill : ∀ {m : Machine σ} {g all}, P m → m.groups.get? g = some (.all all) → P (m.fill g all)

namespace Law

variable {old : FiberId → Prop} {tame : Pending σ → Prop} {P : Machine σ → Prop} {m : Machine σ}
  (law : Law old tame P)

include law

/-! ## Rows and the record -/

/-- A change to a row that brings neither a program nor a wait. -/
theorem modifyFiber (holds : P m) (g : FiberId) {change : Fiber σ → Fiber σ}
    (fades : ∀ fiber : Fiber σ, fiber.Fades (change fiber)) : P (m.modifyFiber g change) := by
  refine law.row g holds (fun fiber => (fades fiber).scope) (.inr fun fiber => (fades fiber).run)
    fun fiber p waits => .inl ?_
  rcases (fades fiber).pending with kept | gone
  · exact kept ▸ waits
  · simp [gone] at waits

theorem write (holds : P m) (entry : Entry) : P (m.write entry) := law.congr holds rfl rfl rfl rfl

theorem trace (holds : P m) (event : TraceEvent) : P (m.trace event) := law.write holds _

theorem enqueue (holds : P m) (f : FiberId) : P (m.enqueue f) := law.congr holds rfl rfl rfl rfl

omit law in
theorem foldl {α : Type} {step : Machine σ → α → Machine σ} (as : List α)
    (steps : ∀ m, P m → ∀ a ∈ as, P (step m a)) (holds : P m) : P (as.foldl step m) := by
  induction as generalizing m with
  | nil => exact holds
  | cons a as ih =>
      exact ih (fun m holds b listed => steps m holds b (List.mem_cons_of_mem a listed))
        (steps m holds a List.mem_cons_self)

/-! ## Waits -/

theorem openWait (holds : P m) (f : FiberId) (source : WaitSource) : P (m.openWait f source).2 :=
  law.congr holds rfl rfl rfl rfl

theorem claim (holds : P m) (w : WaitId) : P (m.claim w).2 := by
  obtain ⟨waits, same⟩ := m.claim_eq w
  rw [same]
  exact law.congr holds rfl rfl rfl rfl

theorem deliver (holds : P m) (f : FiberId) (x : Exit) : P (m.deliver f x) := by
  unfold Machine.deliver
  split
  · refine law.enqueue (law.modifyFiber holds f fun _ => ?_) f
    exact ⟨rfl, .inl rfl, .inr rfl⟩
  · exact law.modifyFiber holds f fun _ => ⟨rfl, .inl rfl, .inl rfl⟩
  · exact holds

theorem resume (holds : P m) (w : WaitId) (x : Exit) : P (m.resume w x) := by
  obtain ⟨same, -⟩ | ⟨wait, -, -, same⟩ := m.resume_cases w x <;> rw [same]
  · exact holds
  · exact law.deliver (law.claim holds w) _ x

theorem wake (holds : P m) (waiters : List WaitId) (x : Exit) : P (m.wake waiters x) :=
  foldl waiters (fun _ holds w _ => law.resume holds w x) holds

theorem resumeCallback (holds : P m) (w : WaitId) (x : Exit) : P (m.resumeCallback w x) := by
  unfold Machine.resumeCallback
  split
  · exact law.resume holds w x
  · exact holds

/-! ## Interrupts -/

theorem runCanceler (holds : P m) (f : FiberId) {w : WaitId} {canceler : Canceler σ}
    (fine : tame (.wait w canceler)) : P (m.runCanceler f canceler) := by
  cases canceler with
  | none => exact holds
  | timer handle => exact law.congr holds rfl rfl rfl rfl
  | code cleanup =>
      have ran := law.cleanup holds fine
      unfold Machine.runCanceler runCleanup
      dsimp only
      generalize noted : List.foldl _ _ _ = served
      have kept : P served := by
        subst noted
        refine foldl _ (fun n holds request _ => ?_) ran
        cases request with
        | note v => exact law.write holds _
        | _ => exact holds
      split
      · exact kept
      · exact law.trace kept _

/-- A fiber that is taken out of its wait leaves a cleanup that was kept for it. -/
theorem breakWait (holds : P m) {f : FiberId} {fiber : Fiber σ} (row : m.fiber? f = some fiber) :
    P (m.breakWait f fiber).2 ∧
      ∀ canceler, (m.breakWait f fiber).1 = some canceler → ∃ w, tame (.wait w canceler) := by
  obtain ⟨same, -⟩ | ⟨w, canceler, breakable, -, same⟩ := m.breakWait_cases f fiber <;> rw [same]
  · exact ⟨holds, fun _ broken => by cases broken⟩
  · obtain ⟨-, waits, -⟩ := Fiber.breakable?_eq_some_iff.1 breakable
    refine ⟨law.modifyFiber (law.claim holds w) f fun _ => ⟨rfl, .inl rfl, .inr rfl⟩, ?_⟩
    intro c broken
    exact ⟨w, Option.some.inj broken ▸ law.pending holds row waits⟩

theorem interruptWithin (holds : P m) (depth : Nat) (f : FiberId) :
    P (m.interruptWithin depth f) := by
  induction depth generalizing m f with
  | zero => exact holds
  | succ depth ih =>
      unfold Machine.interruptWithin
      have marked : P (m.mark f) := law.modifyFiber holds f fun _ => ⟨rfl, .inl rfl, .inl rfl⟩
      dsimp only
      split
      · exact marked
      rename_i fiber row
      split
      · exact marked
      -- the cleanup of the wait was kept in the row, and it runs after the children are interrupted
      obtain ⟨broken, fine⟩ := law.breakWait marked row
      generalize (m.mark f).breakWait f fiber = result at broken fine ⊢
      obtain ⟨canceler, n⟩ := result
      have below : P (fiber.children.foldl (Machine.interruptWithin depth)
          (n.trace (.interrupting f fiber.children.length))) :=
        foldl fiber.children (fun _ holds c _ => ih holds c) (law.trace broken _)
      cases canceler with
      | none => exact below
      | some canceler =>
          obtain ⟨w, fine⟩ := fine canceler rfl
          exact law.enqueue (law.runCanceler below f fine) f

theorem interrupt (holds : P m) (f : FiberId) : P (m.interrupt f) :=
  law.interruptWithin holds _ f

theorem interruptAll (holds : P m) (fibers : List FiberId) : P (m.interruptAll fibers) :=
  foldl fibers (fun _ holds f _ => law.interrupt holds f) holds

theorem serve (holds : P m) (request : Request) : P (m.serve request) := by
  cases request with
  | note v => exact law.write holds _
  | resume w x => exact law.resumeCallback holds w x
  | resumeLater w x => exact law.congr holds rfl rfl rfl rfl
  | interrupt f => exact law.interrupt holds f
  | shutdown =>
      exact law.congr (foldl m.roots (fun _ holds f _ => law.interrupt holds f) holds)
        rfl rfl rfl rfl

/-- The requests of user code are served when its world has been taken back. -/
theorem perform {α : Type} {code : Action σ α}
    (holds : P { m with world := (code (statusOf m.fibers) m.world).world }) :
    P (m.perform code).2 :=
  foldl _ (fun _ holds request _ => law.serve holds request) holds

/-! ## Groups -/

theorem raceExit (holds : P m) (g : GroupId) (race : Race) (x : Exit) :
    P (m.raceExit g race x) := by
  let settled : Race :=
    { race with remaining := race.remaining - 1, winner := some (race.winner.getD x) }
  have told : P (if race.winner.isSome then m.setGroup g (.race settled)
      else ((m.setGroup g (.race settled)).trace
        (.raceSettled race.parent (race.members.length - 1))).interruptAll race.members) := by
    have set : P (m.setGroup g (.race settled)) := law.race g settled holds
    split
    · exact set
    · exact law.interruptAll (law.trace set _) _
  unfold Machine.raceExit
  dsimp only
  split
  · exact law.deliver told _ _
  · exact told

theorem allExit (holds : P m) {g : GroupId} {all : Gathering σ}
    (row : m.groups.get? g = some (.all all)) (i : Nat) (x : Exit) : P (m.allExit g all i x) := by
  have settled := law.settle i x (m.isInterrupted all.parent) holds row
  unfold Machine.allExit
  generalize all.settle i x (m.isInterrupted all.parent) = result at settled ⊢
  obtain ⟨siblings, after⟩ := result
  have row' : (m.setGroup g (.all after)).groups.get? g = some (.all after) := by
    rw [setGroup, Table.get?_modify, if_pos rfl, row]
    rfl
  let told := ((m.setGroup g (.all after)).trace
    (.allFailed after.parent siblings.length)).interruptAll siblings
  -- interrupts do not touch the group, so what waits in it for a place is what the exit left there
  have both : P (if siblings.isEmpty then m.setGroup g (.all after) else told) ∧
      (if siblings.isEmpty then m.setGroup g (.all after) else told).groups.get? g =
        some (.all after) := by
    split
    · exact ⟨settled, row'⟩
    · refine ⟨law.interruptAll (law.trace settled _) _, ?_⟩
      rw [(spares_interruptAll _ siblings).groups]
      exact row'
  dsimp only
  split
  · exact law.deliver both.1 _ _
  · exact law.fill both.1 both.2

theorem memberExit (holds : P m) (g : GroupId) (i : Nat) (x : Exit) :
    P (m.memberExit g i x) := by
  unfold Machine.memberExit
  split
  · exact law.raceExit holds g _ x
  · rename_i all row
    exact law.allExit holds row i x
  · exact holds

/-! ## The end of a fiber -/

theorem takeExit (holds : P m) (f : FiberId) : P (m.takeExit f).2 := by
  unfold Machine.takeExit
  split
  · exact law.modifyFiber holds f fun _ => ⟨rfl, .inl rfl, .inl rfl⟩
  · exact holds

theorem tellWatcher (holds : P m) (f : FiberId) (w : WaitId) (how : Watch) :
    P (m.tellWatcher f w how) := by
  cases how with
  | join => exact law.resume (law.takeExit holds f) w _
  | await => exact law.resume (law.takeExit holds f) w _
  | interrupt => exact law.resume holds w _

theorem watch (holds : P m) (f : FiberId) (w : WaitId) (how : Watch) : P (m.watch f w how) := by
  unfold Machine.watch
  split
  · exact law.tellWatcher holds f w how
  · exact law.modifyFiber holds f fun _ => ⟨rfl, .inl rfl, .inl rfl⟩

theorem detach (holds : P m) (f : FiberId) (parent : Option FiberId) : P (m.detach f parent) := by
  cases parent with
  | none => exact law.congr holds rfl rfl rfl rfl
  | some p => exact law.modifyFiber holds p fun _ => ⟨rfl, .inl rfl, .inl rfl⟩

theorem handOver (holds : P m) (f : FiberId) (reader : ExitReader) (x : Exit) :
    P (m.handOver f reader x) := by
  cases reader with
  | joiner => exact holds
  | group g place => exact law.memberExit holds g place x
  | handle => exact law.congr holds rfl rfl rfl rfl

theorem childGone (holds : P m) (p : FiberId) : P (m.childGone p).2 := by
  unfold Machine.childGone
  split
  · exact holds
  · exact law.modifyFiber holds p fun _ => ⟨rfl, .inl rfl, .inl rfl⟩

theorem completeWithin (holds : P m) (height : Nat) (f : FiberId) (x : Exit) :
    P (m.completeWithin height f x) := by
  induction height generalizing m f x with
  | zero => exact holds
  | succ height ih =>
      unfold Machine.completeWithin
      split
      · exact holds
      rename_i fiber row
      have ended : P ((m.modifyFiber f fun fiber => fiber.ended x).trace (.exited f x)) := by
        refine law.trace (law.modifyFiber holds f fun _ => ?_) _
        exact ⟨rfl, .inr rfl, .inr rfl⟩
      refine foldl fiber.observers (fun n holds observer _ => ?_)
        (law.handOver (law.detach ended f fiber.parent) f fiber.reader x)
      cases observer with
      | watcher w how => exact law.tellWatcher holds f w how
      | closing p =>
          -- the last child of a fiber that is closing completes this fiber as well
          have counted := law.childGone holds p
          dsimp only
          split
          · rename_i heard
            rw [heard] at counted
            exact ih counted p _
          · rename_i heard
            rw [heard] at counted
            exact counted

/-- The program of a fiber has an exit. -/
theorem finish (holds : P m) (f : FiberId) (x : Exit) : P (m.finish f x) := by
  unfold Machine.finish
  dsimp only
  split
  · exact law.completeWithin holds _ f x
  · refine foldl _ (fun n holds c _ => ?_) (law.interruptAll
      (law.modifyFiber (law.trace holds _) f fun _ => ?_) _)
    · exact law.modifyFiber holds c fun _ => ⟨rfl, .inl rfl, .inl rfl⟩
    · exact ⟨rfl, .inl rfl, .inl rfl⟩

/-! ## The worker and the host -/

theorem suspend (holds : P m) {f : FiberId} (known : old f) (run : RunState σ)
    {pending : Pending σ} (fine : tame pending) : P (m.suspend f run pending) :=
  law.row f holds (fun _ => rfl) (.inl known) fun _ _ waits => .inr (Option.some.inj waits ▸ fine)

theorem requeue (holds : P m) {f : FiberId} (known : old f) (run : RunState σ) :
    P (m.requeue f run) := by
  refine law.enqueue (law.row f holds (fun _ => ?_) (.inl known) fun _ _ waits => ?_) f
  · rfl
  · exact .inl waits

theorem park (holds : P m) {slice : Slice σ} (known : old slice.fiber) {pending : Pending σ}
    (fine : tame pending) : P (m.park slice pending) := by
  unfold Machine.park
  dsimp only
  split
  · refine law.congr (law.modifyFiber holds slice.fiber fun _ => ?_) rfl rfl rfl rfl
    exact ⟨rfl, .inl rfl, .inl rfl⟩
  · exact law.suspend holds known _ fine
  · rename_i w canceler _
    split
    · have claimed := law.claim holds w
      split
      · exact law.congr (law.runCanceler claimed slice.fiber fine) rfl rfl rfl rfl
      · exact law.suspend claimed known _ fine
    · exact law.suspend holds known _ fine

/-- The worker goes on as a step has said. -/
theorem follow (holds : P m) {slice : Slice σ} (known : old slice.fiber) {control : Control σ}
    (fine : ∀ pending, control = .suspend pending → tame pending) :
    P (m.follow slice control) := by
  cases control with
  | next step =>
      unfold Machine.follow
      dsimp only
      split
      · exact law.requeue holds known _
      · exact law.congr holds rfl rfl rfl rfl
  | yield step => exact law.requeue holds known _
  | suspend pending => exact law.park holds known (fine pending rfl)
  | finish exit => exact law.finish holds _ exit

theorem dispatch (holds : P m) : P m.dispatch := by
  unfold Machine.dispatch
  split
  · exact holds
  · rename_i f ready _
    have popped : P { m with ready } := law.congr holds rfl rfl rfl rfl
    dsimp only
    split
    · exact popped
    · split
      · exact popped
      · refine law.congr (law.modifyFiber popped f fun _ => ?_) rfl rfl rfl rfl
        exact ⟨rfl, .inr rfl, .inl rfl⟩

theorem receive (holds : P m) : P m.receive := by
  unfold Machine.receive
  split
  · exact holds
  · refine law.resumeCallback (law.congr holds ?_ ?_ ?_ ?_) _ _ <;> rfl

theorem fireNext (holds : P m) : P m.fireNext := by
  unfold Machine.fireNext
  split
  · refine law.resume (law.congr holds ?_ ?_ ?_ ?_) _ _ <;> rfl
  · exact law.congr holds rfl rfl rfl rfl

theorem takeResult (holds : P m) (f : FiberId) : P (m.takeResult f).2 := by
  unfold Machine.takeResult
  split
  · split
    · exact law.congr holds rfl rfl rfl rfl
    · exact holds
  · exact holds

end Law

end Machine

end EffectFibers
