import EffectFibers.Proofs.Meaning.Step
import EffectFibers.Proofs.Progress.Ends

/-!
# Programs do what they mean

A fiber that is never interrupted does what its tree means, however its steps are cut into slices,
whatever other fibers do in between, and however long it waits for its answers.  At every moment
the meaning of the tree is what the fiber has done so far, followed by what is left of its program;
so the fiber has an exit exactly when the meaning gives it for what the fiber has done.

## Main definitions

* `Moment.deeds` – what is done for a fiber in a run.
* `Moment.steps` – how many steps it takes.
* `Moment.HasExit` – its program has an exit.

## Main statements

* `Moment.Reachable.leaves_run` – what is left of a program after a run.
* `Moment.Begins.does_what_it_means` – the exit of a fiber and the exit of its tree.
-/

namespace EffectFibers

variable {σ : Type}

/-! ## What is done in a run -/

/-- The answer that has come in the meantime. -/
def Deed.news : Option Exit → Option Exit → List (Deed σ)
  | none, some x => [.answered x]
  | _, _ => []

namespace Moment

/-- The answer that a fiber has and has not gone on with. -/
def answer? (μ : Moment σ) (f : FiberId) : Option Exit := (μ.machine.fiber? f).bind (·.input)

/-- The answer that comes to a fiber in an event. -/
def answersAt (μ : Moment σ) (f : FiberId) (event : Event σ) : List (Deed σ) :=
  Deed.news (μ.answer? f) ((μ.apply event).answer? f)

/-- What is done for a fiber in an event. -/
def deedsAt (μ : Moment σ) (f : FiberId) (event : Event σ) : List (Deed σ) :=
  (match μ.strideAt f event with
  | some s => s.machine.deeds s.slice.run
  | none => []) ++ μ.answersAt f event

/-- What is done for a fiber in a run. -/
def deeds (f : FiberId) : Moment σ → List (Event σ) → List (Deed σ)
  | _, [] => []
  | μ, event :: events => μ.deedsAt f event ++ deeds f (μ.apply event) events

/-- How many steps a fiber takes in a run. -/
def steps (f : FiberId) : Moment σ → List (Event σ) → Nat
  | _, [] => 0
  | μ, event :: events =>
    (if (μ.strideAt f event).isSome then 1 else 0) + steps f (μ.apply event) events

/-- The program of a fiber has an exit: the fiber is about to end with it, or has done so. -/
def HasExit (μ : Moment σ) (f : FiberId) (x : Exit) : Prop :=
  (∃ run, μ.position? f = some (.stepped run (.finish x) none)) ∨ μ.EndedWith f x

/-- A fiber is on the worker, or it is queued. -/
def AtWork (μ : Moment σ) (f : FiberId) : Prop :=
  μ.held = some f ∨ f ∈ μ.machine.ready.toList

/-- A fiber has just been born, with a tree and a context. -/
structure Begins (μ : Moment σ) (f : FiberId) (node : Node σ) (context : Context Value) : Prop where
  born : ∃ before event, Reachable before ∧ before.machine.fiber? f = none ∧ before.apply event = μ
  row : ∃ fiber, μ.machine.fiber? f = some fiber ∧ fiber.run = some { next := .eval node, context }

end Moment

/-! ## Several steps -/

/-- Some steps lead from one behaviour to another, and do some deeds. -/
def Behaviour.LeadsIn (P : Behaviour σ) (n : Nat) (ds : List (Deed σ)) (P' : Behaviour σ) : Prop :=
  ∀ deeds x k, P (ds ++ deeds) x k ↔ ∃ l, k = l + n ∧ P' deeds x l

namespace Behaviour.LeadsIn

variable {P P' P'' : Behaviour σ} {n n' : Nat} {ds ds' : List (Deed σ)}

theorem refl (P : Behaviour σ) : P.LeadsIn 0 [] P := by
  intro deeds x k
  simp

theorem trans (first : P.LeadsIn n ds P') (second : P'.LeadsIn n' ds' P'') :
    P.LeadsIn (n + n') (ds ++ ds') P'' := by
  intro deeds x k
  rw [List.append_assoc, first]
  constructor
  · rintro ⟨l, rfl, h⟩
    obtain ⟨l', rfl, h'⟩ := (second deeds x l).1 h
    exact ⟨l', by omega, h'⟩
  · rintro ⟨l', rfl, h'⟩
    exact ⟨l' + n', by omega, (second deeds x _).2 ⟨l', rfl, h'⟩⟩

/-- An answer that comes to a wait. -/
theorem answered {context : Context Value} {timer : Bool} {stack : List (Frame σ)} {x : Exit}
    (rightful : timer → x = .ok .null) :
    (awaits context timer stack).LeadsIn 0 [.answered x] (unwinds context stack x) := by
  intro deeds y k
  simp [awaits_answered rightful]

end Behaviour.LeadsIn

section

open Behaviour

variable {context : Context Value} {deeds : List (Deed σ)} {x : Exit} {k : Nat}

/-- It takes a step to find that nothing is left. -/
theorem unwinds_costs {stack : List (Frame σ)} {y : Exit}
    (unwound : unwinds context stack y deeds x k) : 0 < k := by
  induction stack generalizing y deeds k with
  | nil =>
      obtain ⟨-, -, rfl⟩ := unwound
      exact Nat.one_pos
  | cons frame stack ih =>
      obtain ⟨_, _, _, _, _, -, rfl, -, rest⟩ := unwound
      have := ih rest
      omega

theorem goes_costs {step : Step σ} {stack : List (Frame σ)}
    (gone : goes context step stack deeds x k) : 0 < k := by
  cases step with
  | eval node =>
      obtain ⟨_, _, _, _, _, -, rfl, -, rest⟩ := gone
      have := unwinds_costs rest
      omega
  | done y => exact unwinds_costs gone

end

/-! ## Fibers without children -/

namespace Machine

variable {m m' : Machine σ} {f : FiberId}

/-- A fiber that has neither children nor groups. -/
structure Lone (m : Machine σ) (f : FiberId) : Prop where
  childless : (m.fiber? f).map (·.children) = some []
  alone : ¬ m.LeadsGroup f

namespace Lone

theorem of_core (lone : m.Lone f) (same : m'.core = m.core) : m'.Lone f := by
  obtain ⟨childless, alone⟩ := lone
  have fibers : m'.fiber? f = m.fiber? f :=
    congrArg (fun core : Core σ => core.fibers.get? f) same
  have groups : m'.groups = m.groups := congrArg Core.groups same
  refine ⟨by rw [fibers]; exact childless, ?_⟩
  unfold LeadsGroup
  rw [groups]
  exact alone

theorem modifyFiber (lone : m.Lone f) (g : FiberId) {change : Fiber σ → Fiber σ}
    (kept : ∀ fiber, (change fiber).children = fiber.children) :
    (m.modifyFiber g change).Lone f := by
  refine ⟨?_, lone.alone⟩
  have same : (·.children) ∘ change = (·.children) := funext kept
  rw [fiber?_modifyFiber]
  split
  · rw [Option.map_map, same]
    exact lone.childless
  · exact lone.childless

theorem claim (lone : m.Lone f) (w : WaitId) : (m.claim w).2.Lone f := by
  obtain ⟨childless, alone⟩ := lone
  refine ⟨by rwa [fiber?_claim], ?_⟩
  unfold LeadsGroup
  rw [(m.spares_claim w).groups]
  exact alone

theorem requeue (lone : m.Lone f) (run : RunState σ) : (m.requeue f run).Lone f := by
  have modified : (m.modifyFiber f fun fiber => { fiber with run := some run }).Lone f :=
    lone.modifyFiber f fun _ => rfl
  exact ⟨modified.childless, modified.alone⟩

theorem suspend (lone : m.Lone f) (run : RunState σ) (pending : Pending σ) :
    (m.suspend f run pending).Lone f :=
  lone.modifyFiber f fun _ => rfl

theorem park {slice : Slice σ} (lone : m.Lone slice.fiber) (pending : Pending σ) :
    (m.park slice pending).Lone slice.fiber := by
  unfold Machine.park
  simp only
  split
  · have modified : (m.modifyFiber slice.fiber fun fiber => { fiber with input := none }).Lone
        slice.fiber := lone.modifyFiber _ fun _ => rfl
    exact ⟨modified.childless, modified.alone⟩
  · exact lone.suspend _ _
  · rename_i w canceler _
    split
    · have claimed := lone.claim w
      generalize m.claim w = result at claimed ⊢
      obtain ⟨won, m'⟩ := result
      cases won with
      | true =>
          have canceled := claimed.of_core (Coherent.core_runCanceler m' slice.fiber canceler)
          exact ⟨canceled.childless, canceled.alone⟩
      | false => exact claimed.suspend _ _
    · exact lone.suspend _ _

theorem dispatch (lone : m.Lone f) : m.dispatch.Lone f := by
  unfold Machine.dispatch
  split
  · exact lone
  · rename_i g ready _
    simp only
    split
    · exact ⟨lone.childless, lone.alone⟩
    · split
      · exact ⟨lone.childless, lone.alone⟩
      · have modified : (m.modifyFiber g fun fiber =>
            { fiber with run := none, input := none }).Lone f := lone.modifyFiber g fun _ => rfl
        exact ⟨modified.childless, modified.alone⟩

/-- A fiber has no children by what comes of its step, unless it is over. -/
theorem follow {slice : Slice σ} {control : Control σ} (lone : m.Lone slice.fiber)
    (goes : ∀ x, control ≠ .finish x) : (m.follow slice control).Lone slice.fiber := by
  cases control with
  | next step =>
      simp only [Machine.follow]
      split
      · exact lone.requeue _
      · exact ⟨lone.childless, lone.alone⟩
  | yield step => exact lone.requeue _
  | suspend pending => exact lone.park pending
  | finish x => exact absurd rfl (goes x)

end Lone

end Machine

/-! ## What is left at a position -/

namespace Position

/-- What is left of a program at a position. -/
def left? : Position σ → Option (Left σ)
  | .ready run => some (.going run.next run.stack)
  | .stepped run control answer => some (control.left run.stack answer)
  | .asleep run pending => some (.waiting pending.timed run.stack)
  | .answered run x => some (.going (.done x) run.stack)
  | .gone => none

/-- The answer that a fiber has at a position. -/
def answer? : Position σ → Option Exit
  | .stepped _ _ answer => answer
  | .answered _ x => some x
  | _ => none

/-- What a fiber is about to sleep on, or sleeps on. -/
def pending? : Position σ → Option (Pending σ)
  | .stepped _ (.suspend pending) _ | .asleep _ pending => some pending
  | _ => none

end Position

/-- A timed wait is ended by a timer. -/
def Machine.Times (m : Machine σ) (p : Position σ) : Prop :=
  ∀ pending, p.pending? = some pending → pending.timed = true → ∃ w wait,
    pending.wait? = some w ∧ m.waits.get? w = some wait ∧ wait.source = .timer

/-- A fiber that waits for nothing has no timed wait. -/
theorem Machine.Times.of_still {m : Machine σ} {p : Position σ} (still : p.pending? = none) :
    m.Times p := by
  intro pending asks
  cases still.symm.trans asks

namespace Moment

variable {μ : Moment σ} {f : FiberId} {event : Event σ} {context : Context Value} {left : Left σ}
  {p : Position σ}

/-- The answer that a fiber has shows at its position. -/
theorem answer?_eq (coherent : IsCoherent μ none none) (position : μ.position? f = some p) :
    μ.answer? f = p.answer? := by
  obtain ⟨fiber, row, rfl⟩ := Option.map_eq_some_iff.1 position
  have same : μ.answer? f = fiber.input := by rw [answer?, row]; rfl
  rw [same]
  cases grip : μ.grip f with
  | none =>
      have shaped := shaped_of_isCoherent coherent row
      unfold Fiber.positionOn Fiber.position
      cases saved : fiber.run with
      | some run => cases fiber.input <;> cases fiber.pending <;> rfl
      | none =>
          -- who has nothing left to do has no answer
          have idle : fiber.task ≠ .working := fun working => by
            have task : μ.machine.core.task f = some .working :=
              (Table.view_of_row _ row).trans (congrArg some working)
            rcases (agenda_of_isCoherent coherent).working task with held | leaving
            · exact grip_eq_none_iff.1 grip held
            · cases leaving
          have status : fiber.status ≠ .suspended := fun asleep => by
            have parked := (shaped.parked asleep).1
            simp [saved] at parked
          rw [Ne, Fiber.task_eq_working_iff] at idle
          cases known : fiber.status with
          | suspended => exact absurd known status
          | running =>
              have closing : fiber.closing.isSome := by
                rw [Option.isSome_iff_ne_none]
                exact fun going => idle ⟨known, saved, going⟩
              exact (shaped.closed closing).2.2
          | _ => exact (shaped.ended (by rw [known]; rfl)).2.1
  | some grip' =>
      obtain ⟨run, control⟩ := grip'
      cases control with
      | some control => rfl
      | none =>
          have held := held_of_grip grip
          have waiting := waiting_of_isCoherent coherent
          by_contra answered
          have asking := waiting.held_input held (by
            rw [show μ.machine.core.input f = fiber.input from Table.find_of_row _ row]
            exact answered)
          unfold Moment.grip at grip
          unfold Moment.asking focus at asking
          split at grip <;> simp_all

/-- A program that is not over has not ended its fiber. -/
theorem closing_of_run? {fiber : Fiber σ} {run : RunState σ} (coherent : IsCoherent μ none none)
    (row : μ.machine.fiber? f = some fiber) (rest : (fiber.positionOn (μ.grip f)).run? = some run) :
    fiber.closing = none := by
  cases grip : μ.grip f with
  | some _ => exact (row_of_held coherent (held_of_grip grip) row).2.2.2
  | none =>
      by_contra ends
      have saved := ((shaped_of_isCoherent coherent row).closed
        (Option.isSome_iff_ne_none.2 ends)).2.1
      rw [grip] at rest
      simp [Fiber.positionOn, Fiber.position, saved, Position.run?] at rest

/-- A fiber that takes no step and does not end gets neither children nor groups. -/
theorem Reachable.lone_apply {run : RunState σ} (reachable : Reachable μ) (lone : μ.machine.Lone f)
    (position : μ.position? f = some p) (rest : p.run? = some run)
    (still : μ.strideAt f event = none) (goes : (μ.apply event).position? f ≠ some .gone) :
    (μ.apply event).machine.Lone f := by
  have coherent := reachable.isCoherent
  have tidy := reachable.tidy
  by_cases own : μ.actor event = some f
  · cases event with
    | work =>
        show μ.work.machine.Lone f
        unfold Moment.work
        cases taken : μ.taken with
        | some step =>
            obtain ⟨slice, control⟩ := step
            obtain rfl : slice.fiber = f := by simpa [actor, Moment.held, taken] using own
            refine lone.follow fun x ends => goes ?_
            exact position?_finish reachable (ends ▸ taken)
        | none =>
            cases running : μ.machine.running with
            | some slice =>
                have here : slice.fiber = f := by
                  simpa [actor, Moment.held, taken, running] using own
                simp [strideAt, stride?, taken, running, here] at still
            | none => exact lone.dispatch
    | _ => cases own
  · -- what others do gives a fiber no child, as it leads no group
    obtain ⟨childless, alone⟩ := lone
    obtain ⟨fiber, row, nobody⟩ := Option.map_eq_some_iff.1 childless
    have alone' := Machine.alone_after alone (evolves coherent tidy event) own
    have going : fiber.closing = none := by
      obtain rfl := Option.some.inj ((position?_of_row row).symm.trans position)
      exact closing_of_run? coherent row rest
    obtain ⟨asks, beside⟩ :
        ∃ asks, Machine.Beside f fiber asks (μ.apply event).machine := by
      by_cases held : μ.held = some f
      · exact ⟨_, beside_of_held coherent tidy row held own⟩
      · exact ⟨_, beside_of_saved coherent tidy row held own⟩
    obtain ⟨after, row', children⟩ : ∃ after, (μ.apply event).machine.fiber? f = some after ∧
        after.children ⊆ fiber.children := by
      cases beside with
      | spared row' _ _ children => exact ⟨_, row', children alone'⟩
      | answered row' _ _ _ children => exact ⟨_, row', children alone'⟩
      | ended _ closing _ _ =>
          rw [going] at closing
          cases closing
    refine ⟨?_, alone'⟩
    rw [nobody] at children
    rw [row', Option.map_some, List.subset_nil.1 children]

/-- A fiber that evaluates a sequential tree in a context, and what is left of the tree. -/
inductive Leaves (μ : Moment σ) (f : FiberId) (context : Context Value) : Left σ → Prop
  | going {p run left} (position : μ.position? f = some p) (rest : p.run? = some run)
    (same : run.context = context) (left_eq : p.left? = some left) (sequential : left.Sequential)
    (lone : μ.machine.Lone f) (times : μ.machine.Times p) : Leaves μ f context left
  | gone {x} (ended : μ.EndedWith f x) : Leaves μ f context (.gone x)

end Moment

section

variable {m m' : Machine σ} {f : FiberId} {p p' : Position σ} {run : RunState σ} {l : Left σ}
  {actor : Option FiberId}

/-- While no step is taken, only an answer changes what is left, and no program ends but one that
has its exit. -/
theorem Machine.Moves.left_cases (moves : m.Moves m' f p p') (evolves : Evolves actor true m m')
    (calm : m'.isInterrupted f = false) (rest : p.run? = some run) (left_eq : p.left? = some l)
    (times : m.Times p) :
    (∃ x, p = .stepped run (.finish x) none ∧ p' = .gone) ∨
    ∃ run', p'.run? = some run' ∧ run'.context = run.context ∧ m'.Times p' ∧
      ((p'.left? = some l ∧ (Deed.news p.answer? p'.answer? : List (Deed σ)) = []) ∨
        ∃ timer stack x, l = .waiting timer stack ∧ p'.left? = some (.going (.done x) stack) ∧
          (timer = true → x = .ok .null) ∧ p.answer? = none ∧ p'.answer? = some x) := by
  have unmarked : m.isInterrupted f = false := Machine.unmarked_before evolves calm
  have quiet : ∀ run : RunState σ, m.interruptPending f run = false := by
    simp [Machine.interruptPending, unmarked]
  have onward : ∀ run x, m.afterWait f run x = { run with next := .done x } := by
    simp [Machine.afterWait, quiet]
  have keeps : m'.Times p := by
    -- a wait keeps its source
    intro pending asks timed
    obtain ⟨w, wait, waits, found, source⟩ := times pending asks timed
    obtain ⟨wait', found', -, source', -⟩ := evolves.keepsWaits found
    exact ⟨w, wait', waits, found', source'.trans source⟩
  -- without an interrupt, nobody answers a timed wait but its timer
  have answered : ∀ {run pending x}, p.pending? = some pending → m'.Wakes f run pending x →
      pending.timed = true → x = .ok .null := by
    intro run pending x asks why timed
    obtain ⟨w, wait, waits, found, source⟩ := keeps pending asks timed
    cases why with
    | interrupt mark _ => cases calm.symm.trans mark
    | wait found' rightful =>
        obtain rfl := Option.some.inj waits
        obtain rfl := Option.some.inj (found.symm.trans found')
        exact rightful source
    | group => cases waits
  cases moves with
  | stays =>
      refine .inr ⟨run, rest, rfl, keeps, .inl ⟨left_eq, ?_⟩⟩
      unfold Deed.news
      split <;> simp_all
  | goesOn =>
      obtain rfl := Option.some.inj rest
      exact .inr ⟨_, rfl, rfl, .of_still rfl, .inl ⟨left_eq, rfl⟩⟩
  | noticed notices _ => cases (quiet _).symm.trans notices
  | yields =>
      obtain rfl := Option.some.inj rest
      exact .inr ⟨_, rfl, rfl, .of_still rfl, .inl ⟨left_eq, rfl⟩⟩
  | hears why =>
      obtain rfl := Option.some.inj rest
      obtain rfl := Option.some.inj left_eq
      exact .inr ⟨_, rfl, rfl, keeps, .inr ⟨_, _, _, rfl, rfl, answered rfl why, rfl, rfl⟩⟩
  | sleeps =>
      obtain rfl := Option.some.inj rest
      exact .inr ⟨_, rfl, rfl, keeps, .inl ⟨left_eq, rfl⟩⟩
  | givesUp notices => cases (quiet _).symm.trans notices
  | takes =>
      obtain rfl := Option.some.inj rest
      rw [onward]
      exact .inr ⟨_, rfl, rfl, .of_still rfl, .inl ⟨left_eq, rfl⟩⟩
  | ends =>
      obtain rfl := Option.some.inj rest
      exact .inl ⟨_, rfl, rfl⟩
  | wakes why =>
      obtain rfl := Option.some.inj rest
      obtain rfl := Option.some.inj left_eq
      exact .inr ⟨_, rfl, rfl, .of_still rfl, .inr ⟨_, _, _, rfl, rfl, answered rfl why, rfl, rfl⟩⟩
  | resumes =>
      obtain rfl := Option.some.inj rest
      rw [onward]
      exact .inr ⟨_, rfl, rfl, .of_still rfl, .inl ⟨left_eq, rfl⟩⟩

/-- What is left is sequential and behaves as before, but for the answer that has come. -/
theorem Machine.Moves.left (moves : m.Moves m' f p p') (evolves : Evolves actor true m m')
    (calm : m'.isInterrupted f = false) (rest : p.run? = some run) (left_eq : p.left? = some l)
    (times : m.Times p) :
    (∃ x, p = .stepped run (.finish x) none ∧ p' = .gone) ∨
    ∃ run' l', p'.run? = some run' ∧ run'.context = run.context ∧ p'.left? = some l' ∧
      (l.Sequential → l'.Sequential) ∧ m'.Times p' ∧ ∀ context,
        (l.does context).LeadsIn 0 (Deed.news p.answer? p'.answer?) (l'.does context) := by
  rcases moves.left_cases evolves calm rest left_eq times with
    ends | ⟨run', rest', context', times', ⟨same, silent⟩ |
      ⟨timer, stack, x, rfl, goes, rightful, before, after⟩⟩
  · exact .inl ends
  · exact .inr ⟨run', l, rest', context', same, id, times', fun _ => silent ▸ .refl _⟩
  · refine .inr ⟨run', _, rest', context', goes, fun frames => ⟨trivial, frames⟩, times',
      fun context => ?_⟩
    rw [before, after]
    exact .answered rightful

end

namespace Moment

variable {μ : Moment σ} {f : FiberId} {event : Event σ} {context : Context Value} {left : Left σ}

/-- The answer that comes in an event shows at the positions. -/
theorem Reachable.answersAt_eq {p p' : Position σ} (reachable : Reachable μ)
    (position : μ.position? f = some p) (position' : (μ.apply event).position? f = some p') :
    μ.answersAt f event = Deed.news p.answer? p'.answer? := by
  rw [answersAt, answer?_eq reachable.isCoherent position,
    answer?_eq (reachable.apply event).isCoherent position']

/-- A program that has its exit is on the worker. -/
theorem taken_of_finish {run : RunState σ} {x : Exit}
    (position : μ.position? f = some (.stepped run (.finish x) none)) :
    ∃ slice, μ.taken = some (slice, .finish x) ∧ slice.fiber = f := by
  obtain ⟨fiber, row, stands⟩ := Option.map_eq_some_iff.1 position
  have grip : μ.grip f = some (run, some (.finish x)) := by
    cases grip : μ.grip f with
    | none =>
        rw [grip, Fiber.positionOn, Fiber.position] at stands
        split at stands <;> cases stands
    | some grip' =>
        obtain ⟨run', control⟩ := grip'
        cases control with
        | none =>
            rw [grip] at stands
            cases stands
        | some control =>
            rw [grip, Fiber.positionOn, Position.stepped.injEq] at stands
            rw [stands.1, stands.2.1]
  unfold Moment.grip at grip
  split at grip <;> simp_all

/-- Only the worker takes a program with its exit off the worker. -/
theorem ending_of_gone {run : RunState σ} {x : Exit}
    (position : μ.position? f = some (.stepped run (.finish x) none))
    (position' : (μ.apply event).position? f = some .gone) :
    event = .work ∧ ∃ slice, μ.taken = some (slice, .finish x) ∧ slice.fiber = f := by
  obtain ⟨slice, taken, rfl⟩ := taken_of_finish position
  refine ⟨?_, slice, taken, rfl⟩
  by_contra other
  have taken' : (μ.apply event).taken = some (slice, .finish x) := by
    cases event with
    | work => exact absurd rfl other
    | _ => exact taken
  obtain ⟨fiber', row', stands'⟩ := Option.map_eq_some_iff.1 position'
  simp [Moment.grip, taken', Fiber.positionOn] at stands'

/-- A fiber that is about to be stepped. -/
theorem working_of_stride {s : Stride σ} (coherent : IsCoherent μ none none)
    (lone : μ.machine.Lone f) (stride : μ.strideAt f event = some s) :
    ∃ fiber, s.machine.Working f fiber := by
  obtain ⟨-, free, running, own, same⟩ := strideAt_eq_some_iff.1 stride
  obtain ⟨fiber, row, childless⟩ := Option.map_eq_some_iff.1 lone.childless
  refine ⟨fiber, ?_, ?_, childless, ?_⟩
  · unfold IsCoherent focus at coherent
    simp only [free, running, Option.map_some, own] at coherent
    obtain ⟨-, shaped, family, heirs, agenda, waiting, seating⟩ := coherent
    rw [same]
    exact ⟨rfl, shaped, family, heirs, agenda, waiting, seating⟩
  · rw [same]
    exact row
  · rw [same]
    exact lone.alone

/-- A step of the fiber leads from what was left to what is left then. -/
theorem Reachable.leaves_of_stride {s : Stride σ} (reachable : Reachable μ)
    (leaves : μ.Leaves f context left) (calm : (μ.apply event).machine.isInterrupted f = false)
    (stride : μ.strideAt f event = some s) :
    ∃ left', (μ.apply event).Leaves f context left' ∧
      (left.does context).LeadsIn 1 (μ.deedsAt f event) (left'.does context) := by
  have coherent := reachable.isCoherent
  obtain ⟨rfl, free, running, rfl, same⟩ := strideAt_eq_some_iff.1 stride
  cases leaves with
  | gone ended =>
      obtain ⟨fiber, row, status, -⟩ := ended
      have idle := idle_of_terminal coherent row (status ▸ Exit.isTerminal_status _) .work
      exact absurd (by simp [Moment.held, free, running]) idle.1
  | @going p run left position rest context_eq left_eq sequential lone times =>
      obtain ⟨-, ready, answer, stepped, -⟩ := reachable.stride stride
      obtain rfl := Option.some.inj (ready.symm.trans position)
      obtain rfl := Option.some.inj rest
      obtain rfl := Option.some.inj left_eq
      obtain ⟨fiber, working⟩ := working_of_stride coherent lone stride
      have result : (μ.apply .work).machine = s.result.machine := by
        show μ.work.machine = _
        simp only [Moment.work, free, running, ← same]
        rfl
      rw [result] at calm
      have advances : s.machine.Advances s.slice.fiber s.slice.run s.result :=
        working.advances sequential calm
      obtain ⟨context', alone, ⟨after, row, childless, sequential', leads⟩, timed, -⟩ := advances
      rw [← result] at row alone timed
      have answered : after.input = answer := by
        have shown := answer?_eq (reachable.apply .work).isCoherent stepped
        rwa [answer?, row] at shown
      have news : μ.answersAt s.slice.fiber .work = after.input.toList.map Deed.answered := by
        rw [reachable.answersAt_eq ready stepped, answered]
        cases answer <;> rfl
      refine ⟨_, .going stepped rfl (context'.trans context_eq) rfl (answered ▸ sequential')
        ⟨?_, alone⟩ ?_, ?_⟩
      · rw [row, Option.map_some, childless]
      · intro pending asks isTimed
        refine timed pending ?_ isTimed
        generalize s.result.control = control at asks
        cases control with
        | suspend pending' => rw [Option.some.inj asks]
        | _ => cases asks
      · rw [deedsAt, stride, news]
        rw [context_eq, answered] at leads
        rw [answered]
        exact leads

/-- What others do, and what comes of a step, leads from what was left to what is left then. -/
theorem Reachable.leaves_of_still (reachable : Reachable μ) (leaves : μ.Leaves f context left)
    (calm : (μ.apply event).machine.isInterrupted f = false) (still : μ.strideAt f event = none) :
    ∃ left', (μ.apply event).Leaves f context left' ∧
      (left.does context).LeadsIn 0 (μ.deedsAt f event) (left'.does context) := by
  have coherent := reachable.isCoherent
  have deeds : μ.deedsAt f event = μ.answersAt f event := by
    rw [deedsAt, still]
    rfl
  rw [deeds]
  cases leaves with
  | @gone x ended =>
      have ended' : (μ.apply event).EndedWith f x := reachable.endedWith_apply ended
      have silent : ∀ {μ' : Moment σ}, IsCoherent μ' none none → μ'.EndedWith f x →
          μ'.answer? f = none := by
        rintro μ' coherent' ⟨fiber, row, status, -⟩
        have shaped := shaped_of_isCoherent coherent' row
        rw [answer?, row]
        exact (shaped.ended (status ▸ Exit.isTerminal_status x)).2.1
      refine ⟨_, .gone ended', ?_⟩
      rw [answersAt, silent coherent ended, silent (reachable.apply event).isCoherent ended']
      exact .refl _
  | @going p run left position rest context_eq left_eq sequential lone times =>
      obtain ⟨p', position', moves⟩ := reachable.moves position still
      rw [reachable.answersAt_eq position position']
      rcases moves.left (evolves coherent reachable.tidy event) calm rest left_eq times with
        ⟨x, rfl, rfl⟩ | ⟨run', left', rest', context', left_eq', sequential', times', leads⟩
      · -- the program has its exit, and the fiber ends with it
        obtain rfl := Option.some.inj left_eq
        obtain ⟨rfl, slice, taken, rfl⟩ := ending_of_gone position position'
        obtain ⟨fiber, row, childless⟩ := Option.map_eq_some_iff.1 lone.childless
        exact ⟨_, .gone (reachable.ends_at_once taken row childless), .refl _⟩
      · have goes : (μ.apply event).position? f ≠ some .gone := by
          rintro gone
          obtain rfl := Option.some.inj (position'.symm.trans gone)
          cases rest'
        have lone' := reachable.lone_apply lone position rest still goes
        exact ⟨left', .going position' rest' (context'.trans context_eq) left_eq'
          (sequential' sequential) lone' times', leads context⟩

/-- What has happened so far leads from what was left to what is left. -/
theorem Reachable.leaves_run (reachable : Reachable μ) (leaves : μ.Leaves f context left)
    (events : List (Event σ)) (calm : (μ.run events).machine.isInterrupted f = false) :
    ∃ left', (μ.run events).Leaves f context left' ∧
      (left.does context).LeadsIn (μ.steps f events) (μ.deeds f events) (left'.does context) := by
  induction events generalizing μ left with
  | nil => exact ⟨left, leaves, .refl _⟩
  | cons event events ih =>
      -- a mark would stay to the end of the run
      have calm' : (μ.apply event).machine.isInterrupted f = false := by
        by_contra marked
        have stays := (reachable.apply event).stays_marked (by simpa using marked) events
        cases calm.symm.trans stays
      obtain ⟨left₁, leaves₁, first⟩ : ∃ left₁, (μ.apply event).Leaves f context left₁ ∧
          (left.does context).LeadsIn (if (μ.strideAt f event).isSome then 1 else 0)
            (μ.deedsAt f event) (left₁.does context) := by
        cases stride : μ.strideAt f event with
        | some s => exact reachable.leaves_of_stride leaves calm' stride
        | none => exact reachable.leaves_of_still leaves calm' stride
      obtain ⟨left₂, leaves₂, rest⟩ := ih (reachable.apply event) leaves₁ calm
      exact ⟨left₂, leaves₂, first.trans rest⟩

/-! ## From the birth of a fiber on -/

/-- A fiber that has just been born is ready to evaluate its tree, and has nobody below it. -/
theorem Begins.position {node : Node σ} (begins : μ.Begins f node context) :
    μ.position? f = some (.ready { next := .eval node, context }) ∧ μ.machine.Lone f := by
  obtain ⟨⟨before, event, reachable, missing, rfl⟩, fiber, row, start⟩ := begins
  obtain ⟨⟨node', context', start', position⟩, childless, alone⟩ := reachable.born missing row
  obtain ⟨same, -, rfl, -⟩ := RunState.mk.inj (Option.some.inj (start.symm.trans start'))
  obtain rfl := Step.eval.inj same
  refine ⟨position, ?_, alone⟩
  rw [row, Option.map_some, childless]

/-- A fiber that has just been born has all of its tree left. -/
theorem Begins.leaves {node : Node σ} (begins : μ.Begins f node context)
    (sequential : node.Sequential) : μ.Leaves f context (.going (.eval node) []) := by
  obtain ⟨position, lone⟩ := begins.position
  exact .going position rfl rfl rfl ⟨sequential, by simp⟩ lone (.of_still rfl)

theorem Begins.reachable {node : Node σ} (begins : μ.Begins f node context) : Reachable μ := by
  obtain ⟨before, event, reachable, -, rfl⟩ := begins.born
  exact reachable.apply event

/-- A fiber that has something to do is on the worker or queued. -/
theorem atWork_of_going {p : Position σ} {step : Step σ} {stack : List (Frame σ)}
    (coherent : IsCoherent μ none none) (position : μ.position? f = some p)
    (going : p.left? = some (.going step stack)) : μ.AtWork f := by
  by_cases held : μ.held = some f
  · exact .inl held
  right
  obtain ⟨fiber, row, rfl⟩ := Option.map_eq_some_iff.1 position
  have shaped := shaped_of_isCoherent coherent row
  rw [grip_eq_none_iff.2 held] at going
  have runnable : fiber.status = .running ∧ fiber.run.isSome := by
    have ended := shaped.ended
    have asleep := shaped.asleep
    have parked := shaped.parked
    unfold Fiber.positionOn Fiber.position at going
    cases known : fiber.status <;> cases saved : fiber.run <;> cases answer : fiber.input <;>
      cases sleeps : fiber.pending <;> simp_all [Position.left?, FiberStatus.isTerminal]
  have task : μ.machine.core.task f = some .runnable :=
    (Table.view_of_row _ row).trans (congrArg some (Fiber.task_eq_runnable_iff.2 runnable))
  simpa using (agenda_of_isCoherent coherent).mem_iff.2 task

/-- An exit after no more steps and deeds is there already, and before one the fiber is at work. -/
theorem Leaves.exit {x : Exit} {k : Nat} (coherent : IsCoherent μ none none)
    (leaves : μ.Leaves f context left) (gives : left.does context [] x k) :
    (k = 0 → μ.HasExit f x) ∧ (0 < k → μ.AtWork f) := by
  cases leaves with
  | gone ended =>
      obtain ⟨-, rfl, rfl⟩ := gives
      exact ⟨fun _ => .inr ended, fun more => absurd more (Nat.lt_irrefl 0)⟩
  | @going p run left position rest _ left_eq _ _ _ =>
      cases left with
      | going step stack =>
          refine ⟨fun none => ?_, fun _ => atWork_of_going coherent position left_eq⟩
          exact absurd (goes_costs gives) (by omega)
      | waiting timer stack =>
          obtain ⟨y, later, answers, -⟩ := gives
          cases answers
      | gone y =>
          obtain ⟨-, rfl, rfl⟩ := gives
          refine ⟨fun _ => .inl ?_, fun more => absurd more (Nat.lt_irrefl 0)⟩
          rw [position]
          cases p with
          | stepped run control answer =>
              cases answer with
              | some _ => cases left_eq
              | none =>
                  cases control with
                  | finish z =>
                      obtain rfl := Left.gone.inj (Option.some.inj left_eq)
                      exact ⟨_, rfl⟩
                  | _ => cases left_eq
          | _ => cases left_eq

/-- A fiber whose program has its exit ends with it, at the latest with the worker's next
operation. -/
theorem Leaves.ends {x : Exit} (reachable : Reachable μ) (leaves : μ.Leaves f context left)
    (exits : μ.HasExit f x) : μ.EndedWith f x ∨ (μ.apply .work).EndedWith f x := by
  rcases exits with ⟨run, stepped⟩ | ended
  · right
    obtain ⟨slice, taken, rfl⟩ := taken_of_finish stepped
    cases leaves with
    | gone ended' =>
        obtain ⟨fiber, row, status, -⟩ := ended'
        have gone := status ▸ Exit.isTerminal_status _
        have free := (idle_of_terminal reachable.isCoherent row gone .work).1
        exact absurd (by simp [Moment.held, taken]) free
    | going _ _ _ _ _ lone _ =>
        obtain ⟨fiber, row, childless⟩ := Option.map_eq_some_iff.1 lone.childless
        exact reachable.ends_at_once taken row childless
  · exact .inl ended

end Moment

end EffectFibers
