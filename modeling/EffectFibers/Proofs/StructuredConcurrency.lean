import EffectFibers.Proofs.Coherence.Reachable
import Mathlib.Logic.Relation

/-!
# Structured concurrency

No fiber outlives the fiber that has started it: when a fiber has ended, so have all fibers below
it.  A fiber whose program has an exit may have to wait for its children first, but then it ends
with that very exit, whatever its children end with and whoever interrupts whom meanwhile.

## Main statements

* `Moment.Reachable.started_iff` – the record tells of exactly the children that there are.
* `Moment.Reachable.children_do_not_outlive` – both halves of structured concurrency.
-/

namespace EffectFibers

variable {σ : Type}

namespace Machine

/-- The record tells that a fiber was started as a child of another one, by a fork, a race or many
effects at once. -/
def Started (m : Machine σ) (parent child : FiberId) : Prop := (child, parent) ∈ births m.record

/-- A fiber was started below another one. -/
def Below (m : Machine σ) : FiberId → FiberId → Prop := Relation.TransGen m.Started

/-- How a fiber stands whose program had an exit: it still waits for a child and keeps the exit, or
it has ended with it, once. -/
inductive Concluded (m : Machine σ) (f : FiberId) (exit : Exit) : Prop
  | draining {fiber : Fiber σ} {closing : Closing} {child : FiberId}
      (row : m.fiber? f = some fiber) (live : fiber.status.isTerminal = false)
      (waits : fiber.closing = some closing) (keeps : closing.exit = exit)
      (started : m.Started f child) (childLive : (m.status child).isTerminal = false)
  | ended {fiber : Fiber σ} (row : m.fiber? f = some fiber)
      (status : fiber.status = Exit.status exit) (once : exitsOf (exits m.record) f = [exit])

end Machine

namespace Moment

variable {μ : Moment σ}

theorem verdict_eq_none_iff {fiber : Fiber σ} :
    fiber.kin.verdict = none ↔ fiber.status.isTerminal = false := by
  simp [Fiber.kin, Fiber.verdict]

/-- The record tells of exactly the children that there are. -/
theorem Reachable.started_iff (reachable : Reachable μ) {p c : FiberId} :
    μ.machine.Started p c ↔
      ∃ fiber, μ.machine.fiber? c = some fiber ∧ fiber.parent = some p := by
  have family := family_of_isCoherent reachable.isCoherent
  constructor
  · intro started
    obtain ⟨k, kin, parent⟩ := family.birth started
    obtain ⟨fiber, row, rfl⟩ := Table.exists_row_of_view kin
    exact ⟨fiber, row, parent⟩
  · rintro ⟨fiber, row, parent⟩
    have kin : μ.machine.core.kin c = some fiber.kin := Table.view_of_row _ row
    exact family.born kin parent

/-- When a fiber has ended, so has each of its children. -/
theorem Reachable.child_ended (reachable : Reachable μ) {p c : FiberId}
    (ended : (μ.machine.status p).isTerminal) (started : μ.machine.Started p c) :
    (μ.machine.status c).isTerminal := by
  have family := family_of_isCoherent reachable.isCoherent
  obtain ⟨fiber, row, parent⟩ := reachable.started_iff.1 started
  have kin : μ.machine.core.kin c = some fiber.kin := Table.view_of_row _ row
  obtain ⟨kp, kinP⟩ := Option.isSome_iff_exists.1 (family.parent_older kin parent).2
  obtain ⟨fiberP, rowP, rfl⟩ := Table.exists_row_of_view kinP
  rw [Coherent.status_of_row rowP] at ended
  rw [Coherent.status_of_row row]
  by_contra live
  have listed := (family.mem_children kinP).2
    ⟨fiber.kin, kin, parent, verdict_eq_none_iff.2 (by simpa using live)⟩
  have alone := (family.ended_alone kinP (by simp [verdict_eq_none_iff, ended])).1
  simp [alone] at listed

/-- When a fiber has ended, so have all fibers below it. -/
theorem Reachable.below_ended (reachable : Reachable μ) {f d : FiberId}
    (ended : (μ.machine.status f).isTerminal) (below : μ.machine.Below f d) :
    (μ.machine.status d).isTerminal := by
  induction below with
  | single started => exact reachable.child_ended ended started
  | tail _ started ih => exact reachable.child_ended ih started

/-- An exit that is promised is kept. -/
theorem concluded_of_promise {f : FiberId} {exit : Exit}
    (coherent : IsCoherent μ (some (f, exit)) none) : μ.machine.Concluded f exit := by
  have family := family_of_isCoherent coherent
  obtain ⟨k, kin, h⟩ := family.promised rfl
  obtain ⟨fiber, row, rfl⟩ := Table.exists_row_of_view kin
  rcases h with ⟨live, closing, waits, keeps⟩ | once
  · obtain ⟨c, kc, kinC, parent, liveC⟩ := family.exists_child_of_closing kin waits nofun nofun
    obtain ⟨child, rowC, rfl⟩ := Table.exists_row_of_view kinC
    refine .draining row (verdict_eq_none_iff.1 live) waits keeps (family.born kinC parent) ?_
    rw [Coherent.status_of_row rowC]
    exact verdict_eq_none_iff.1 liveC
  · cases verdict : fiber.kin.verdict with
    | none =>
        have empty := family.exits_none (f := f) fun k kin' => by
          obtain rfl := Option.some.inj (kin.symm.trans kin')
          exact verdict
        simp [empty] at once
    | some status =>
        obtain ⟨x, once', same⟩ := family.exits_one kin verdict
        obtain rfl : exit = x := by simpa using once.symm.trans once'
        refine .ended row ?_ once
        rw [same]
        have : fiber.verdict = Option.some status := verdict
        unfold Fiber.verdict at this
        split at this
        · exact Option.some.inj this
        · cases this

/-- When the program of a fiber has an exit, the fiber ends with it or waits to do so. -/
theorem Reachable.concluded (reachable : Reachable μ) {slice : Slice σ} {exit : Exit}
    (taken : μ.taken = some (slice, .finish exit)) (events : List (Event σ)) :
    ((μ.apply .work).run events).machine.Concluded slice.fiber exit := by
  have coherent : Coherent μ.machine.core { held := some slice.fiber } := by
    have := reachable.isCoherent
    unfold IsCoherent focus at this
    rw [taken] at this
    exact this
  have finished : Coherent (μ.machine.finish slice.fiber exit).core
      { promise := some (slice.fiber, exit) } := coherent.finish exit (.inr rfl)
  have work : μ.apply .work = { machine := μ.machine.finish slice.fiber exit } := by
    show μ.work = _
    simp only [Moment.work, taken, Machine.follow]
  refine concluded_of_promise (isCoherent_run ?_ events)
  have worker := finished.worker
  simp only [Machine.core] at worker
  rw [work]
  show Coherent _ (focus _ _ _)
  simp only [focus, worker]
  exact finished

/-- When a fiber has ended, so have all fibers below it; and from the moment on at which the program
of a fiber has an exit, the fiber waits for its children and then ends with that exit, whatever
else happens. -/
theorem Reachable.children_do_not_outlive (reachable : Reachable μ) :
    (∀ f d, (μ.machine.status f).isTerminal → μ.machine.Below f d →
      (μ.machine.status d).isTerminal) ∧
    ∀ slice exit, μ.taken = some (slice, .finish exit) → ∀ events,
      ((μ.apply .work).run events).machine.Concluded slice.fiber exit :=
  ⟨fun _ _ ended below => reachable.below_ended ended below,
    fun _ _ taken events => reachable.concluded taken events⟩

/-! ## A fiber that ends before its child -/

/-- A program that starts a child and ends at once. -/
def forkAndEnd : Node Unit := .flatMap (.fork .yield) fun v => (pure (.succeed v) : Action _ _)

/-- That program after some operations of the worker. -/
def forking (works : Nat) : Moment Unit :=
  (initial { host := () } 10).run (.start forkAndEnd :: List.replicate works .work)

theorem reachable_forking (works : Nat) : Reachable (forking works) := (Reachable.initial _ _).run _

/-- The child is live when the program of its parent has its exit; in the end both have ended, and
an interrupt on the way changes nothing about the exit. -/
theorem forked_child_does_not_outlive :
    ((forking 10).machine.status ⟨2⟩).isTerminal = false ∧
      (((forking 10).apply .work).run [.request (.interrupt ⟨1⟩), .work]).machine.Concluded ⟨1⟩
        (.ok (.fiber ⟨2⟩)) ∧
      ((forking 16).machine.status ⟨1⟩).isTerminal = true ∧
      ((forking 16).machine.status ⟨2⟩).isTerminal = true :=
  ⟨by decide, (reachable_forking 10).children_do_not_outlive.2 _ _ rfl _, by decide,
    (reachable_forking 16).children_do_not_outlive.1 ⟨1⟩ ⟨2⟩ (by decide)
      (.single (by unfold Machine.Started; decide))⟩

end Moment

end EffectFibers
