import EffectFibers.Proofs.Progress.Position

/-!
# The end of a fiber is final

Once a fiber has ended, nothing that happens afterwards changes its status or the exit that the
record holds for it.  A fiber without children ends as soon as its program has its exit.

## Main definitions

* `Moment.EndedWith` – a fiber has ended with an exit.

## Main statements

* `Moment.Reachable.endedWith_run` – a fiber that has ended stays so.
* `Moment.Reachable.ends_at_once` – a fiber without children ends with its program.
-/

namespace EffectFibers

variable {σ : Type}

theorem Exit.isTerminal_status (x : Exit) : (Exit.status x).isTerminal = true := by
  rcases x with (_ | _ | _) | _ <;> rfl

namespace Moment

variable {μ : Moment σ} {f : FiberId} {fiber : Fiber σ} {x : Exit} {event : Event σ}

/-- A fiber has ended with an exit: its status says so, and the record holds this exit and no other
one for it. -/
def EndedWith (μ : Moment σ) (f : FiberId) (x : Exit) : Prop :=
  ∃ fiber, μ.machine.fiber? f = some fiber ∧ fiber.status = Exit.status x ∧
    exitsOf (exits μ.machine.record) f = [x]

/-- A fiber with a terminal status has ended with some exit. -/
theorem Reachable.exists_endedWith (reachable : Reachable μ)
    (row : μ.machine.fiber? f = some fiber) (gone : fiber.status.isTerminal) :
    ∃ x, μ.EndedWith f x := by
  have kin : μ.machine.core.kin f = some fiber.kin := Table.view_of_row _ row
  have verdict : fiber.kin.verdict = some fiber.status := by
    show fiber.verdict = _
    rw [Fiber.verdict, if_pos gone]
  obtain ⟨x, once, status⟩ := (family_of_isCoherent reachable.isCoherent).exits_one kin verdict
  exact ⟨x, fiber, row, status.symm, once⟩

/-- A fiber ends with one exit. -/
theorem EndedWith.unique {y : Exit} (ended : μ.EndedWith f x) (ended' : μ.EndedWith f y) :
    x = y := by
  obtain ⟨-, -, -, once⟩ := ended
  obtain ⟨-, -, -, once'⟩ := ended'
  exact List.singleton_inj.1 (once.symm.trans once')

/-- The exit of a fiber that has ended is held on to. -/
theorem isCoherent_promise (coherent : IsCoherent μ none none) (ended : μ.EndedWith f x) :
    IsCoherent μ (some (f, x)) none := by
  obtain ⟨fiber, row, -, once⟩ := ended
  have kin : μ.machine.core.kin f = some fiber.kin := Table.view_of_row _ row
  have family : ∀ {kin births leaving late unasked},
      kin f = some fiber.kin →
      Family kin births μ.machine.core.exits leaving late unasked none →
      Family kin births μ.machine.core.exits leaving late unasked (some (f, x)) := by
    intro kin births leaving late unasked row family
    refine { family with promised := fun kept => ?_ }
    obtain ⟨rfl, rfl⟩ := Prod.mk.inj (Option.some.inj kept)
    exact ⟨_, row, .inr once⟩
  unfold IsCoherent focus Control.focus at coherent ⊢
  split at coherent
  · split at coherent <;>
      exact ⟨coherent.worker, coherent.shaped, family kin coherent.family, coherent.heirs,
        coherent.agenda, coherent.waiting, coherent.seating⟩
  · exact ⟨coherent.worker, coherent.shaped, family kin coherent.family, coherent.heirs,
      coherent.agenda, coherent.waiting, coherent.seating⟩

/-- A fiber that has ended is not on the worker, and the worker does not take it up. -/
theorem idle_of_terminal (coherent : IsCoherent μ none none)
    (row : μ.machine.fiber? f = some fiber) (gone : fiber.status.isTerminal) (event : Event σ) :
    μ.held ≠ some f ∧ μ.actor event ≠ some f := by
  have resting : ∀ task, μ.machine.core.task f = some task → task = .resting := by
    intro task known
    rw [show μ.machine.core.task f = some fiber.task from Table.view_of_row _ row,
      Option.some.injEq] at known
    rw [← known, Fiber.task, if_neg]
    intro running
    rw [running] at gone
    cases gone
  have free : μ.held ≠ some f := fun held => by
    cases resting _ ((agenda_of_isCoherent coherent).held_works held)
  refine ⟨free, fun own => ?_⟩
  cases event with
  | work =>
      rcases Option.or_eq_some_iff.1 own with held | ⟨-, first⟩
      · exact free held
      · cases resting _ ((agenda_of_isCoherent coherent).mem_iff.1
          (by simpa using List.mem_of_mem_head? first : f ∈ μ.machine.ready.toList ++ []))
  | _ => cases own

/-- A status that is terminal does not change. -/
theorem Reachable.status_stays (reachable : Reachable μ) (row : μ.machine.fiber? f = some fiber)
    (gone : fiber.status.isTerminal) (event : Event σ) :
    ∃ after, (μ.apply event).machine.fiber? f = some after ∧ after.status = fiber.status := by
  have coherent := reachable.isCoherent
  have shaped := shaped_of_isCoherent coherent row
  obtain ⟨free, other⟩ := idle_of_terminal coherent row gone event
  cases beside_of_saved coherent reachable.tidy row free other with
  | spared row' kept _ _ => exact ⟨_, row', kept.status⟩
  | answered _ _ why _ _ =>
      obtain ⟨run, pending, saved, -⟩ := wakes_of_answers shaped why
      cases (shaped.ended gone).1.symm.trans saved
  | ended _ closing _ _ =>
      rw [(shaped.closed closing).1] at gone
      cases gone

theorem Reachable.endedWith_apply (reachable : Reachable μ) (ended : μ.EndedWith f x) :
    (μ.apply event).EndedWith f x := by
  have coherent := isCoherent_promise reachable.isCoherent ended
  obtain ⟨fiber, row, status, -⟩ := ended
  have gone : fiber.status.isTerminal := status ▸ Exit.isTerminal_status x
  obtain ⟨after, row', same⟩ := reachable.status_stays row gone event
  have promised := isCoherent_run coherent [event]
  cases concluded_of_promise promised with
  | draining row'' live _ _ _ _ =>
      obtain rfl := Option.some.inj (row'.symm.trans row'')
      rw [same, gone] at live
      cases live
  | ended row'' status' once => exact ⟨_, row'', status', once⟩

/-- A fiber without children ends as soon as its program has its exit. -/
theorem Reachable.ends_at_once (reachable : Reachable μ) {slice : Slice σ}
    (taken : μ.taken = some (slice, .finish x))
    (row : μ.machine.fiber? slice.fiber = some fiber) (childless : fiber.children = []) :
    (μ.apply .work).EndedWith slice.fiber x := by
  have coherent : Coherent μ.machine.core { held := some slice.fiber } := by
    have finishing := reachable.isCoherent
    unfold IsCoherent focus at finishing
    rw [taken] at finishing
    exact finishing
  obtain ⟨leaving, ends⟩ := coherent.leave_of_held row childless
  have work : (μ.apply .work).machine = μ.machine.complete slice.fiber x := by
    show μ.work.machine = _
    simp [Moment.work, taken, Machine.follow, Machine.finish, row, childless]
  -- what happens after the end of the fiber does not concern it
  have ended : (μ.machine.modifyFiber slice.fiber fun fiber => fiber.ended x).fiber? slice.fiber =
      some (fiber.ended x) := by
    rw [Machine.fiber?_modifyFiber, if_pos rfl, row]
    rfl
  have closed : ∀ w, ¬ (μ.machine.modifyFiber slice.fiber fun fiber => fiber.ended x).OpenFor
      slice.fiber w := by
    intro w opened
    have opened' : μ.machine.OpenFor slice.fiber w := opened
    have held : μ.held = some slice.fiber := by simp [Moment.held, taken]
    have awake := (row_of_held reachable.isCoherent held row).2.2.1
    rcases openFor_cases reachable.isCoherent row opened' with asleep | ⟨-, asking, -⟩
    · simp [Fiber.sleepsOn, awake] at asleep
    · simp [Moment.asking, focus, taken, Control.focus] at asking
  have onward : Evolves none true (μ.machine.modifyFiber slice.fiber fun fiber => fiber.ended x)
      (μ.apply .work).machine := by
    rw [work]
    exact Evolves.afterEnd reachable.tidy leaving ends x
  have beside : Machine.Beside slice.fiber (fiber.ended x) none (μ.apply .work).machine :=
    (Machine.Beside.of_row ended fun w opened => absurd opened (closed w)).evolves
      (.of_awake rfl (by simp [Fiber.ended])) onward (by simp)
  obtain ⟨after, row', status⟩ : ∃ after, (μ.apply .work).machine.fiber? slice.fiber = some after ∧
      after.status = Exit.status x := by
    cases beside with
    | spared row' kept _ _ => exact ⟨_, row', kept.status⟩
    | answered _ _ why _ _ =>
        cases why with
        | interrupt _ breakable => simp [Fiber.breakable?, Fiber.ended] at breakable
        | wait asked _ _ => cases asked
        | group asleep => cases asleep
    | ended _ closing _ _ => cases closing
  have concluded := reachable.concluded taken []
  rw [run_nil] at concluded
  cases concluded with
  | draining row'' live _ _ _ _ =>
      obtain rfl := Option.some.inj (row'.symm.trans row'')
      rw [status, Exit.isTerminal_status] at live
      cases live
  | ended row'' status' once => exact ⟨_, row'', status', once⟩

end Moment

end EffectFibers
