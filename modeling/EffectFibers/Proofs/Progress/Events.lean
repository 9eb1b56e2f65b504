import EffectFibers.Proofs.Changes.Law
import EffectFibers.Proofs.Progress.Position

/-!
# What becomes of a fiber in an event

Whoever stands somewhere after an event was born in it, or has taken a step in it, or was moved by
it.  So what is to hold of every position needs to be shown in these three cases only.  An event in
which nobody takes a step leaves alone what the machine keeps for later, unless a program is started
in it.

## Main definitions

* `Moment.Comes` – how a fiber came to stand where it stands after an event.

## Main statements

* `Moment.Reachable.comes` – there are just these ways.
* `Moment.Reachable.law_still` – what an event does without a step to the rest of the machine.
-/

namespace EffectFibers

variable {σ : Type}

namespace Moment

variable {μ : Moment σ} {event : Event σ} {f : FiberId} {p : Position σ} {s t : Stride σ}

/-- How a fiber came to stand where it stands after an event: it was born in it, with a program that
the machine has for it, or it stood somewhere before. -/
inductive Comes (μ : Moment σ) (event : Event σ) (f : FiberId) : Position σ → Prop
  | born {fiber node context} (missing : μ.machine.fiber? f = none)
    (row : (μ.apply event).machine.fiber? f = some fiber)
    (saved : fiber.run = some { next := .eval node, context }) :
    Comes μ event f (.ready { next := .eval node, context })
  | moved {before after} (stood : μ.position? f = some before)
    (still : μ.strideAt f event = none)
    (moves : μ.machine.Moves (μ.apply event).machine f before after) : Comes μ event f after
  | stepped {t answer} (stride : μ.strideAt f event = some t)
    (ready : μ.position? f = some (.ready t.slice.run)) :
    Comes μ event f (.stepped t.result.run t.result.control answer)

/-- There are no other ways. -/
theorem Reachable.comes (reachable : Reachable μ) (position : (μ.apply event).position? f = some p) :
    μ.Comes event f p := by
  cases before : μ.position? f with
  | none =>
      have missing : μ.machine.fiber? f = none := Option.map_eq_none_iff.1 before
      obtain ⟨fiber, row, -⟩ := Option.map_eq_some_iff.1 position
      obtain ⟨⟨node, context, saved, stands⟩, -⟩ := reachable.born missing row
      obtain rfl := Option.some.inj (stands.symm.trans position)
      exact .born missing row saved
  | some p₀ =>
      cases stride : μ.strideAt f event with
      | none =>
          obtain ⟨p', position', moves⟩ := reachable.moves before stride
          obtain rfl := Option.some.inj (position'.symm.trans position)
          exact .moved before stride moves
      | some t =>
          obtain ⟨-, ready, answer, stepped, -⟩ := reachable.stride stride
          obtain rfl := Option.some.inj (stepped.symm.trans position)
          exact .stepped stride ready

/-- Before the first event nobody stands anywhere. -/
theorem position?_initial {world : World σ} {budget : Nat} :
    (initial world budget).position? f = none := by
  rw [position?, show (initial world budget).machine.fiber? f = none from Table.get?_empty _]
  rfl

/-- The worker has one fiber only. -/
theorem stride_unique {g : FiberId} (stride : μ.strideAt f event = some s)
    (stride' : μ.strideAt g event = some t) : f = g ∧ s = t := by
  obtain ⟨-, -, running, own, machine⟩ := strideAt_eq_some_iff.1 stride
  obtain ⟨-, -, running', own', machine'⟩ := strideAt_eq_some_iff.1 stride'
  cases s
  cases t
  simp_all

/-- An event in which no fiber takes a step keeps every law, if a program that is started in it
does, and the state of the host does not matter.  Whatever a fiber has asked to wait for has to be
tame. -/
theorem Reachable.law_still {tame : Pending σ → Prop} {P : Machine σ → Prop}
    (reachable : Reachable μ) (law : Machine.Law (fun f => (μ.machine.fiber? f).isSome) tame P)
    (holds : P μ.machine)
    (asks : ∀ f run pending answer,
      μ.position? f = some (.stepped run (.suspend pending) answer) → tame pending)
    (starts : ∀ node, event = .start node → P (μ.machine.startRoot node).2)
    (hosts : ∀ host, P { μ.machine with world := { μ.machine.world with host } })
    (still : ∀ f, μ.strideAt f event = none) : P (μ.apply event).machine := by
  cases event with
  | start node => exact starts node rfl
  | request request => exact law.serve holds request
  | host change => exact hosts _
  | receive => exact law.receive holds
  | fire => exact law.fireNext holds
  | elapse instant => exact law.congr holds rfl rfl rfl rfl
  | takeResult g => exact law.takeResult holds g
  | work =>
      show P μ.work.machine
      unfold Moment.work
      cases taken : μ.taken with
      | some step =>
          -- the worker goes on with a step that it has taken before
          obtain ⟨slice, control⟩ := step
          have held : μ.held = some slice.fiber := by simp [Moment.held, taken]
          obtain ⟨fiber, row, -⟩ := Table.exists_row_of_view
            ((agenda_of_isCoherent reachable.isCoherent).held_works held)
          have stepped : μ.position? slice.fiber =
              some (.stepped slice.run control fiber.input) := by
            rw [position?_of_row row, grip, taken]
            simp [Fiber.positionOn]
          refine law.follow holds (Option.isSome_iff_exists.2 ⟨fiber, row⟩) ?_
          rintro pending rfl
          exact asks _ _ pending _ stepped
      | none =>
          cases running : μ.machine.running with
          | none => exact law.dispatch holds
          | some slice =>
              have strides : μ.strideAt slice.fiber .work =
                  some ⟨{ μ.machine with running := none }, slice⟩ :=
                strideAt_eq_some_iff.2 ⟨rfl, taken, running, rfl, rfl⟩
              cases (still slice.fiber).symm.trans strides

end Moment

end EffectFibers
