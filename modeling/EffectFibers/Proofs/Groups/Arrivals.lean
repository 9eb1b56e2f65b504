import EffectFibers.Proofs.Endings.Run
import EffectFibers.Proofs.Groups.Steps

/-!
# Exits arrive at groups

When a member of a group ends, its exit reaches the group.  The fiber that waits for the group is
not ending itself, so a chain of fibers that end together is over when it comes to a member: in one
event at most one exit arrives, and it is the last one that anybody ends with.  Before it, groups
and marks are as they were at the beginning of the event; after it, only watchers are told.

## Main definitions

* `Log.deliveries` – the exits that reach groups.
* `Machine.Arrives` – the machine in the moment in which an exit reaches its group.
* `Machine.OnlyTells` – what comes after it in the same event.
* `Moment.Delivers` – what an event does to groups.

## Main statements

* `Passing.Reach.steps` – a chain of ends reaches at most one group, at its end.
* `Moment.Reachable.delivers` – in an event at most one exit reaches a group.
-/

namespace EffectFibers

variable {σ : Type}

/-- The exit of a fiber reaches its group: the group, the fiber, its place and the exit. -/
def Act.delivery? (c : FiberId) : Act → Option (GroupId × FiberId × Nat × Exit)
  | .hands (.group g i) x => some (g, c, i, x)
  | _ => none

/-- The exits that reach groups, in order. -/
def Log.deliveries (log : Log) : List (GroupId × FiberId × Nat × Exit) :=
  log.filterMap fun entry => entry.2.delivery? entry.1

namespace Log

theorem deliveries_append (log more : Log) :
    (log ++ more).deliveries = log.deliveries ++ more.deliveries := List.filterMap_append ..

theorem deliveries_about (f : FiberId) (acts : List Act) :
    (about f acts).deliveries = acts.filterMap (Act.delivery? f) := by
  simp [deliveries, about, List.filterMap_map]

theorem deliveries_tellActs (m : Machine σ) (f : FiberId) (observer : Observer) :
    deliveries (m.tellActs f observer) = [] := by
  rw [Machine.tellActs, deliveries_about, Observer.acts]
  split
  · cases (m.fiber? f).bind (·.exit) <;> simp [Act.delivery?]
  · simp [Act.delivery?]

/-- Only the exit of a member reaches a group. -/
theorem deliveries_ends (f : FiberId) (reader : ExitReader) (x : Exit) :
    deliveries (about f (.ends x :: reader.acts x)) =
      match reader with
      | .group g i => [(g, f, i, x)]
      | _ => [] := by
  rw [deliveries_about, ExitReader.acts]
  cases reader <;> simp [Act.delivery?, List.filterMap_cons]

end Log

namespace Machine

variable {m m' m'' : Machine σ} {f p c : FiberId} {g : GroupId} {i : Nat} {x y : Exit} {φ : Focus}

/-- Groups stay as they are, nobody is born, and no mark is set. -/
structure Steady (m m' : Machine σ) : Prop where
  groups : m'.groups = m.groups
  size : m'.fibers.size = m.fibers.size
  marks : ∀ f, m'.isInterrupted f = m.isInterrupted f

namespace Steady

theorem refl (m : Machine σ) : m.Steady m := ⟨rfl, rfl, fun _ => rfl⟩

theorem trans (first : m.Steady m') (second : m'.Steady m'') : m.Steady m'' :=
  ⟨second.groups.trans first.groups, second.size.trans first.size,
    fun f => (second.marks f).trans (first.marks f)⟩

theorem of_eq (groups : m'.groups = m.groups) (same : m'.fibers = m.fibers) : m.Steady m' :=
  ⟨groups, by rw [same], fun f => by rw [isInterrupted, fiber?, same]; rfl⟩

/-- A change to one row. -/
theorem of_modify {change : Fiber σ → Fiber σ} (groups : m'.groups = m.groups)
    (same : m'.fibers = m.fibers.modify f change)
    (mark : ∀ fiber, (change fiber).interrupted = fiber.interrupted) : m.Steady m' := by
  refine ⟨groups, by rw [same, Table.size_modify], fun g => ?_⟩
  rw [isInterrupted, isInterrupted, fiber?, fiber?, same, Table.get?_modify]
  split
  · cases m.fibers.get? g with
    | none => rfl
    | some fiber => exact mark fiber
  · rfl

theorem modifyFiber (m : Machine σ) (f : FiberId) {change : Fiber σ → Fiber σ}
    (mark : ∀ fiber, (change fiber).interrupted = fiber.interrupted) :
    m.Steady (m.modifyFiber f change) := .of_modify rfl rfl mark

theorem deliver (m : Machine σ) (p : FiberId) (x : Exit) : m.Steady (m.deliver p x) := by
  rcases m.deliver_cases p x with same | ⟨change, ready, same, kept⟩
  · rw [same]
    exact refl m
  · exact .of_modify (m.spares_deliver p x).groups (by rw [same]; rfl) fun fiber => (kept fiber).1

theorem resume (m : Machine σ) (w : WaitId) (x : Exit) : m.Steady (m.resume w x) := by
  obtain ⟨same, -⟩ | ⟨wait, -, -, same⟩ := m.resume_cases w x <;> rw [same]
  · exact refl m
  · have claimed : m.Steady (m.claim w).2 := by
      obtain ⟨waits, same⟩ := m.claim_eq w
      exact .of_eq (m.spares_claim w).groups (by rw [same])
    exact claimed.trans (.deliver _ _ x)

theorem takeExit (m : Machine σ) (f : FiberId) : m.Steady (m.takeExit f).2 := by
  unfold Machine.takeExit
  split
  · exact .modifyFiber m f fun _ => rfl
  · exact refl m

theorem tellWatcher (m : Machine σ) (f : FiberId) (w : WaitId) (how : Watch) :
    m.Steady (m.tellWatcher f w how) := by
  cases how with
  | join => exact (takeExit m f).trans (.resume _ w _)
  | await => exact (takeExit m f).trans (.resume _ w _)
  | interrupt => exact .resume m w _

theorem detach (m : Machine σ) (f : FiberId) (parent : Option FiberId) :
    m.Steady (m.detach f parent) := by
  cases parent with
  | none => exact .of_eq rfl rfl
  | some parent => exact .modifyFiber m parent fun _ => rfl

theorem childGone (m : Machine σ) (p : FiberId) : m.Steady (m.childGone p).2 := by
  unfold Machine.childGone
  split
  · exact refl m
  · exact .modifyFiber m p fun _ => rfl

end Steady

/-- Nothing is done but to tell watchers: programs stay as they are, and so do the answers that have
been given. -/
structure OnlyTells (m m' : Machine σ) : Prop where
  steady : m.Steady m'
  runs : ∀ ⦃f fiber⦄, m.fiber? f = some fiber →
    ∃ after, m'.fiber? f = some after ∧ after.run = fiber.run
  inputs : ∀ ⦃p x⦄, m.core.input p = some x → m'.core.input p = some x

namespace OnlyTells

theorem refl (m : Machine σ) : m.OnlyTells m :=
  ⟨.refl m, fun _ fiber row => ⟨fiber, row, rfl⟩, fun _ _ => id⟩

theorem trans (first : m.OnlyTells m') (second : m'.OnlyTells m'') : m.OnlyTells m'' := by
  refine ⟨first.steady.trans second.steady, fun f fiber row => ?_,
    fun p x answered => second.inputs (first.inputs answered)⟩
  obtain ⟨middle, row', same⟩ := first.runs row
  obtain ⟨after, row'', same'⟩ := second.runs row'
  exact ⟨after, row'', same'.trans same⟩

theorem runs_modify (m : Machine σ) (p : FiberId) {change : Fiber σ → Fiber σ} ⦃f : FiberId⦄
    ⦃fiber : Fiber σ⦄ (row : m.fiber? f = some fiber)
    (kept : (change fiber).run = fiber.run) :
    ∃ after, (m.modifyFiber p change).fiber? f = some after ∧ after.run = fiber.run := by
  rw [fiber?_modifyFiber]
  split
  · exact ⟨change fiber, by rw [row]; rfl, kept⟩
  · exact ⟨fiber, row, rfl⟩

theorem runs_deliver (m : Machine σ) (p : FiberId) (x : Exit) ⦃f : FiberId⦄ ⦃fiber : Fiber σ⦄
    (row : m.fiber? f = some fiber) :
    ∃ after, (m.deliver p x).fiber? f = some after ∧ after.run = fiber.run := by
  unfold Machine.deliver
  split
  · exact runs_modify m p row rfl
  · exact runs_modify m p row rfl
  · exact ⟨fiber, row, rfl⟩

theorem runs_resume (m : Machine σ) (w : WaitId) (x : Exit) ⦃f : FiberId⦄ ⦃fiber : Fiber σ⦄
    (row : m.fiber? f = some fiber) :
    ∃ after, (m.resume w x).fiber? f = some after ∧ after.run = fiber.run := by
  obtain ⟨same, -⟩ | ⟨wait, -, -, same⟩ := m.resume_cases w x <;> rw [same]
  · exact ⟨fiber, row, rfl⟩
  · exact runs_deliver _ _ x ((m.fiber?_claim w f).trans row)

theorem runs_tellWatcher (m : Machine σ) (g : FiberId) (w : WaitId) (how : Watch) ⦃f : FiberId⦄
    ⦃fiber : Fiber σ⦄ (row : m.fiber? f = some fiber) :
    ∃ after, (m.tellWatcher g w how).fiber? f = some after ∧ after.run = fiber.run := by
  obtain ⟨middle, row', same⟩ : ∃ after, (m.takeExit g).2.fiber? f = some after ∧
      after.run = fiber.run := by
    unfold Machine.takeExit
    split
    · exact runs_modify m g row rfl
    · exact ⟨fiber, row, rfl⟩
  have told : ∀ y, ∃ after, ((m.takeExit g).2.resume w y).fiber? f = some after ∧
      after.run = fiber.run := by
    intro y
    obtain ⟨after, row'', same'⟩ := runs_resume (m.takeExit g).2 w y row'
    exact ⟨after, row'', same'.trans same⟩
  cases how with
  | join => exact told _
  | await => exact told _
  | interrupt => exact runs_resume m w _ row

/-- A coherent machine keeps the answers that it has. -/
theorem keep (coherent : Coherent m.core φ) (answered : m.core.input p = some x) :
    Coherent m.core { φ with kept := some (p, x) } :=
  { coherent with waiting := coherent.waiting.keep answered }

/-- A watcher is told. -/
theorem tellWatcher (coherent : Coherent m.core φ) (g : FiberId) (w : WaitId) (how : Watch) :
    m.OnlyTells (m.tellWatcher g w how) :=
  ⟨.tellWatcher m g w how, runs_tellWatcher m g w how, fun _ _ answered =>
    ((keep coherent answered).tellWatcher g w how).waiting.input_kept rfl⟩

end OnlyTells

/-- A member of a group has ended, and its exit is about to reach the group.  Until now the groups
and the marks are what they were. -/
structure Arrives (m : Machine σ) (g : GroupId) (c : FiberId) (i : Nat) (n : Machine σ) : Prop where
  steady : m.Steady n
  coherent : Coherent n.core { settling := some c, idle := some g }
  placed : n.core.place c = some (g, i)
  gone : n.core.live c = some false

end Machine

namespace Passing

variable {m n : Machine σ} {s s' : Passing σ} {log : Log} {f : FiberId} {fiber : Fiber σ} {x : Exit}
  {owed : List (FiberId × List Observer)}

/-- In the midst of an end that began in some machine: no member has ended so far, or one has ended,
its group knows, and only watchers are left to be told. -/
inductive Reach (m : Machine σ) (s : Passing σ) : Prop
  | nobody (quiet : s.log.deliveries = []) (steady : m.Steady s.machine)
  | member {g c i x n} (delivered : s.log.deliveries = [(g, c, i, x)])
      (arrives : m.Arrives g c i n) (silent : s.debts.filterMap Observer.asker? = [])
      (tells : (n.memberExit g i x).OnlyTells s.machine)

/-- The parent of a member is not ending, so nobody asks a member for a report. -/
theorem askers_of_member (coherent : Coherent n.core { leaving := some f })
    (row : n.fiber? f = some fiber) (running : fiber.status = .running) {g : GroupId} {i : Nat}
    (reader : fiber.reader = .group g i) : fiber.observers.filterMap Observer.asker? = [] := by
  have kin : n.core.kin f = some fiber.kin := Table.view_of_row _ row
  have live : fiber.kin.verdict = none := by
    simp [Fiber.kin, Fiber.verdict, running, FiberStatus.isTerminal]
  have placed : n.core.place f = some (g, i) :=
    (Table.find_of_row _ row).trans (by simp [Fiber.place, ExitReader.place, reader])
  have counted : Counted n.core.live none f := by
    left
    exact (Table.view_of_row _ row).trans (by simp [Fiber.live, running, FiberStatus.isTerminal])
  refine List.eq_nil_iff_forall_not_mem.2 fun q asks => ?_
  obtain ⟨parent, -, kq, kinQ, closing⟩ := (coherent.family.mem_askers kin live).1 asks
  obtain ⟨G, known, parent'⟩ := coherent.seating.member placed
  have leader : n.core.parent f = some q := (Table.find_of_row _ row).trans parent
  obtain rfl : q = G.parent := Option.some.inj (leader.symm.trans parent')
  rcases coherent.seating.awaited placed counted known with asleep | ⟨held, -⟩
  · obtain ⟨leader, rowL, pending⟩ := Coherent.row_of_awaits asleep
    obtain rfl := Option.some.inj (kinQ.symm.trans (Table.view_of_row Fiber.kin rowL))
    have shaped := coherent.shaped rowL
    have suspended := shaped.asleep.2 (by rw [pending]; rfl)
    rw [(shaped.closed closing).1] at suspended
    cases suspended
  · cases held

/-- A fiber ends, and no member has ended before. -/
theorem Reach.enter (quiet : log.deliveries = []) (steady : m.Steady n)
    (coherent : Coherent n.core { leaving := some f }) (ends : Coherent.Ends n.core f)
    (row : n.fiber? f = some fiber)
    (others : (owed.flatMap (·.2)).filterMap Observer.asker? = []) :
    Reach m (enter log n f fiber x owed) := by
  obtain ⟨fiber', row', running, unsaved, silent⟩ := ends
  obtain rfl := Option.some.inj (row.symm.trans row')
  have left : m.Steady (((n.modifyFiber f fun fiber => fiber.ended x).trace (.exited f x)).detach f
      fiber.parent) := by
    have ended : n.Steady (n.modifyFiber f fun fiber => fiber.ended x) :=
      .modifyFiber n f fun _ => rfl
    have noted : n.Steady ((n.modifyFiber f fun fiber => fiber.ended x).trace (.exited f x)) :=
      ended.trans (.of_eq rfl rfl)
    exact steady.trans (noted.trans (.detach _ f fiber.parent))
  have delivered : (Passing.enter log n f fiber x owed).log.deliveries =
      match fiber.reader with
      | .group g i => [(g, f, i, x)]
      | _ => [] := by
    rw [Passing.enter, Log.deliveries_append, quiet, Log.deliveries_ends, List.nil_append]
  cases reader : fiber.reader with
  | group g i =>
      rw [reader] at delivered
      have askers := askers_of_member coherent row running reader
      have place : fiber.place = some (g, i) := by simp [Fiber.place, ExitReader.place, reader]
      have retired := coherent.retire row' running unsaved silent x (by simp) (.inl rfl)
      obtain ⟨placed, gone⟩ := Coherent.place_retired row' x fiber.parent
      rw [place, Coherent.asker, askers] at retired
      refine .member delivered ⟨left, retired, placed.trans place, gone⟩ ?_ ?_
      · simp only [Passing.enter, debts, List.flatMap_cons, List.filterMap_append, askers, others,
          List.append_nil]
      · simp only [Passing.enter, Machine.leave, reader]
        exact .refl _
  | joiner =>
      rw [reader] at delivered
      refine .nobody delivered ?_
      simp only [Passing.enter, Machine.leave, reader]
      exact left
  | handle =>
      rw [reader] at delivered
      refine .nobody delivered ?_
      simp only [Passing.enter, Machine.leave, reader]
      exact left.trans (.of_eq rfl rfl)

/-- A small step: after the end of a member only watchers are told. -/
theorem Reach.step (reach : Reach m s) (sound : Sound none s) (step : Step s s') : Reach m s' := by
  cases step with
  | settled =>
      cases reach with
      | nobody quiet steady => exact .nobody quiet steady
      | member delivered arrives silent tells => exact .member delivered arrives silent tells
  | @tells log n f w how rest owed =>
      have same : Log.deliveries (log ++ n.tellActs f (.watcher w how)) = log.deliveries := by
        rw [Log.deliveries_append, Log.deliveries_tellActs, List.append_nil]
      cases reach with
      | nobody quiet steady =>
          exact .nobody (same.trans quiet) (steady.trans (.tellWatcher n f w how))
      | member delivered arrives silent tells =>
          exact .member (same.trans delivered) arrives silent
            (tells.trans (.tellWatcher sound.coherent f w how))
  | @counts log n n' f p rest owed counted =>
      cases reach with
      | nobody quiet steady =>
          have gone := Machine.Steady.childGone n p
          rw [counted] at gone
          refine .nobody ?_ (steady.trans gone)
          rw [Log.deliveries_append, Log.deliveries_tellActs, List.append_nil]
          exact quiet
      | member delivered arrives silent tells => simp [debts, Observer.asker?] at silent
  | @closes log n n' f p x fiber rest owed counted row =>
      cases reach with
      | nobody quiet steady =>
          have gone := Machine.Steady.childGone n p
          rw [counted] at gone
          obtain ⟨leaving, -, ends⟩ := Coherent.childGone sound.coherent counted
          refine .enter ?_ (steady.trans gone) leaving ends row ?_
          · rw [Log.deliveries_append, Log.deliveries_tellActs, List.append_nil]
            exact quiet
          · have few := sound.few
            simpa [debts, Observer.asker?] using few
      | member delivered arrives silent tells => simp [debts, Observer.asker?] at silent

theorem Reach.steps (reach : Reach m s) (sound : Sound none s) (steps : Steps s s') :
    Reach m s' := by
  induction steps with
  | refl => exact reach
  | tail before next ih => exact ih.step (sound.steps before) next

end Passing

/-! ## Events -/

theorem Log.deliveries_watchActs (m : Machine σ) (f : FiberId) (w : WaitId) (how : Watch) :
    (m.watchActs f w how).deliveries = [] := by
  unfold Machine.watchActs
  split
  · rfl
  · rw [← List.singleton_append, Log.deliveries_append]
    split
    · rw [deliveries_tellActs]
      rfl
    · rfl

namespace Moment

variable {μ : Moment σ}

/-- What an event does to the groups that there are: nothing, or one exit arrives. -/
inductive Delivers (μ : Moment σ) (event : Event σ) : Prop
  | nobody (quiet : (μ.actsAt event).deliveries = [])
      (kept : μ.machine.KeepsGroups (μ.apply event).machine)
  | member {g c i x n} (delivered : (μ.actsAt event).deliveries = [(g, c, i, x)])
      (arrives : μ.machine.Arrives g c i n)
      (tells : (n.memberExit g i x).OnlyTells (μ.apply event).machine)

/-- The exit of a program. -/
theorem delivers_of_finish (coherent : IsCoherent μ none none) {slice : Slice σ} {x : Exit}
    (taken : μ.taken = some (slice, .finish x)) : μ.Delivers .work := by
  obtain ⟨fiber, row, -⟩ := (holds_of_finish coherent taken).row_of_held rfl
  have row' : μ.machine.fiber? slice.fiber = some fiber := row
  by_cases alone : fiber.children = []
  · obtain ⟨leaving, ends, steps⟩ := passing_of_finish coherent taken row' alone []
    have start : Passing.Reach μ.machine (.enter [] μ.machine slice.fiber fiber x []) :=
      .enter rfl (.refl _) leaving ends row' rfl
    rw [List.nil_append] at steps
    cases start.steps (.enter leaving ends row' rfl) steps with
    | nobody quiet steady => exact .nobody quiet (.of_eq steady.groups)
    | member delivered arrives silent tells => exact .member delivered arrives tells
  · have work : (μ.apply .work).machine = μ.machine.finish slice.fiber x := by
      simp only [apply, work, taken, Machine.follow]
    refine .nobody ?_ (work ▸ .of_eq (μ.machine.spares_finish slice.fiber x row' alone).groups)
    simp [actsAt, taken, Machine.finishActs, row', alone, Log.deliveries, List.filterMap_map,
      Act.delivery?]

/-- What the worker does. -/
theorem delivers_work (coherent : IsCoherent μ none none) : μ.Delivers .work := by
  cases taken : μ.taken with
  | some step =>
      obtain ⟨slice, control⟩ := step
      by_cases ends : ∃ x, control = .finish x
      · obtain ⟨x, rfl⟩ := ends
        exact delivers_of_finish coherent taken
      · have goes : ∀ x, control ≠ .finish x := fun x same => ends ⟨x, same⟩
        have work : (μ.apply .work).machine = μ.machine.follow slice control := by
          simp only [apply, work, taken]
        have calm : ¬ μ.Deals .work := by
          rintro (⟨slice', x, taken'⟩ | ⟨free, -⟩)
          · exact goes x (Prod.mk.inj (Option.some.inj (taken.symm.trans taken'))).2
          · cases taken.symm.trans free
        refine .nobody (by rw [actsAt_of_calm calm]; rfl) ?_
        exact work ▸ .of_eq (μ.machine.spares_follow slice goes).groups
  | none =>
      cases running : μ.machine.running with
      | none =>
          have work : (μ.apply .work).machine = μ.machine.dispatch := by
            simp only [apply, work, taken, running]
          exact .nobody (by simp [actsAt, taken, running, Log.deliveries])
            (work ▸ .of_eq μ.machine.spares_dispatch.groups)
      | some slice =>
          have kept : μ.machine.KeepsGroups (μ.apply .work).machine := by
            simp only [apply, work, taken, running]
            exact Machine.keepsGroups_stepRun { μ.machine with running := none } slice.fiber _
              slice.run
          refine .nobody ?_ kept
          simp only [actsAt, taken, running]
          split
          · split
            · rfl
            · exact Log.deliveries_watchActs ..
          · rfl

/-- In an event at most one exit reaches a group; otherwise the groups stay what they are. -/
theorem Reachable.delivers (reachable : Reachable μ) (event : Event σ) : μ.Delivers event := by
  cases event with
  | work => exact delivers_work reachable.isCoherent
  | start node => exact .nobody rfl (.of_eq rfl)
  | request request => exact .nobody rfl (.of_eq (μ.machine.spares_serve request).groups)
  | host change => exact .nobody rfl (.of_eq rfl)
  | receive =>
      refine .nobody rfl (.of_eq ?_)
      show μ.machine.receive.groups = μ.machine.groups
      unfold Machine.receive
      split
      · rfl
      · exact (Machine.spares_resumeCallback ..).groups
  | fire =>
      refine .nobody rfl (.of_eq ?_)
      show μ.machine.fireNext.groups = μ.machine.groups
      unfold Machine.fireNext
      split
      · exact (Machine.spares_resume ..).groups
      · rfl
  | elapse instant => exact .nobody rfl (.of_eq rfl)
  | takeResult g =>
      refine .nobody rfl (.of_eq ?_)
      show (μ.machine.takeResult g).2.groups = μ.machine.groups
      unfold Machine.takeResult
      split
      · split <;> rfl
      · rfl

end Moment

end EffectFibers
