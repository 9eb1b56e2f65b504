import EffectFibers.Proofs.ManyAtOnce
import EffectFibers.Proofs.Results.Faces
import Mathlib.Data.List.Induction

/-!
# Members on their course

The members of many effects at once are fibers of their own.  They are born one after the other, as
there is room, and others go on in between; but as long as nobody interrupts it, each of them is on
the course of its program from its birth on.  So what arrives at the group is known beforehand, and
the order in which it arrives does not matter.

## Main definitions

* `Exit.ofResult` – the exit for a result.
* `Moment.Travels` – a fiber on its course, with nobody below it.
* `LeadTo` – trees whose results are known beforehand.
* `Moment.Undisturbed` – neither a fiber nor a child of it is interrupted.
* `Moment.Foresees` – many effects that have just begun, and whose results are known.

## Main statements

* `Moment.KnowsAll.travels_run` – every member is on its course.
* `Gathered.results_eq` – what is gathered if every result is known beforehand.
* `Moment.Foresees.gathers` – many effects at once whose results are known beforehand.
-/

namespace EffectFibers

variable {σ : Type}

/-- The exit for a result. -/
def Exit.ofResult : Except Failure Value → Exit
  | .ok v => .ok v
  | .error φ => .error (.fail φ)

/-! ## What is gathered -/

section

variable {a : Arrival} {heard : List Arrival} {results : List (Except Failure Value)} {y : Exit}
  {r : Except Failure Value}

/-- A result that comes in time is no failure when all are collected, and it is recorded. -/
theorem Arrival.of_result (exit : a.exit = Exit.ofResult r) (timely : a.late = false) :
    a.failing? .collectAll = none ∧ a.result? .collectAll = some r := by
  obtain ⟨c, i, x, late⟩ := a
  obtain rfl : x = Exit.ofResult r := exit
  obtain rfl : late = false := timely
  cases r <;> exact ⟨rfl, rfl⟩

/-- If every result is known beforehand, these are gathered, in whatever order they come. -/
theorem Gathered.results_eq (gathered : Gathered .collectAll results.length heard y)
    (known : ∀ a ∈ heard, ∃ r, results[a.place]? = some r ∧ a.exit = Exit.ofResult r)
    (timely : ∀ a ∈ heard, a.late = false) : y = .ok (.list (results.map .result)) := by
  cases gathered with
  | failed cause first =>
      obtain ⟨a, listed, failed⟩ := List.exists_of_findSome?_eq_some first
      obtain ⟨r, -, exit⟩ := known a listed
      rw [(Arrival.of_result exit (timely a listed)).1] at failed
      cases failed
  | full results' _ length slots =>
      have same : results' = results := by
        refine List.ext_getElem length fun i inside _ => ?_
        have slot_eq := slots i (length ▸ inside)
        rw [List.getElem?_eq_getElem inside] at slot_eq
        obtain ⟨a, listed, recorded⟩ := List.exists_of_findSome?_eq_some slot_eq.symm
        obtain ⟨rfl, recorded⟩ := Option.ite_none_right_eq_some.1 recorded
        obtain ⟨r, place, exit⟩ := known a listed
        rw [(Arrival.of_result exit (timely a listed)).2] at recorded
        obtain ⟨_, same⟩ := List.getElem?_eq_some_iff.1 place
        exact (Option.some.inj recorded).symm.trans same.symm
      rw [same]

end

namespace Moment

variable {μ ν : Moment σ} {g : GroupId} {c : FiberId} {i n bound : Nat} {x : Exit}
  {task : Gathering σ} {started : List FiberId} {event : Event σ} {holdings : Holdings}

/-! ## Steps in a run -/

theorem steps_append (f : FiberId) (events later : List (Event σ)) :
    μ.steps f (events ++ later) = μ.steps f events + (μ.run events).steps f later := by
  induction events generalizing μ with
  | nil => simp [steps]
  | cons event events ih => simp [steps, ih, Nat.add_assoc]

/-- A fiber that there is not yet takes no step. -/
theorem Reachable.strideAt_of_missing (reachable : Reachable μ)
    (missing : μ.machine.fiber? c = none) (event : Event σ) : μ.strideAt c event = none :=
  reachable.still_of_unready (fun run ready => by simp [position?, missing] at ready) event

/-- A fiber that there is not yet in the end has taken no steps. -/
theorem Reachable.steps_of_missing (reachable : Reachable μ) {events : List (Event σ)}
    (missing : (μ.run events).machine.fiber? c = none) : μ.steps c events = 0 := by
  induction events generalizing μ with
  | nil => rfl
  | cons event events ih =>
      have before : μ.machine.fiber? c = none := by
        by_contra there
        have stays := reachable.isSome_run (Option.isSome_iff_ne_none.2 there) (event :: events)
        rw [missing] at stays
        cases stays
      rw [steps, reachable.strideAt_of_missing before, ih (reachable.apply event) missing]
      rfl

/-! ## Fibers with nobody below them -/

/-- A fiber on its course to an exit, with nobody below it. -/
structure Travels (μ : Moment σ) (c : FiberId) (x : Exit) (n : Nat) : Prop where
  heads : μ.Heads c x n
  leaves : ∃ context l, μ.Leaves c context l

theorem Begins.travels {node : Node σ} {context : Context Value} (begins : μ.Begins c node context)
    (sequential : node.Sequential) (ends : (Left.going (.eval node) []).EndsIn x n) :
    μ.Travels c x n :=
  ⟨begins.heads ends, context, _, begins.leaves sequential⟩

theorem Reachable.travels_apply (reachable : Reachable μ) (thrifty : μ.Thrifty holdings)
    (travels : μ.Travels c x n) (calm : (μ.apply event).machine.isInterrupted c = false) :
    ∃ k, (μ.apply event).Travels c x k ∧
      k + (if (μ.strideAt c event).isSome then 1 else 0) ≤ n := by
  obtain ⟨heads, context, l, leaves⟩ := travels
  obtain ⟨k, heads', cost⟩ := reachable.heads_apply thrifty heads calm
  obtain ⟨l', leaves', -⟩ := reachable.leaves_run leaves [event] calm
  exact ⟨k, ⟨heads', context, l', leaves'⟩, cost⟩

/-- A fiber on its course with nobody below it is on its way, or it has ended. -/
theorem Travels.onward (reachable : Reachable μ) (travels : μ.Travels c x n) :
    μ.OnItsWay c ∨ μ.EndedWith c x := by
  obtain ⟨heads, context, l, leaves⟩ := travels
  rcases heads.onItsWay reachable with concluded | onward
  · -- it has nobody to wait for
    right
    have coherent := reachable.isCoherent
    cases concluded with
    | ended row status once => exact ⟨_, row, status, once⟩
    | draining row live waits _ _ _ =>
        cases leaves with
        | gone ended =>
            obtain ⟨fiber, row', status, -⟩ := ended
            obtain rfl := Option.some.inj (row.symm.trans row')
            rw [status, Exit.isTerminal_status] at live
            cases live
        | going position rest _ _ _ _ _ =>
            rw [position?_of_row row, Option.some.injEq] at position
            cases (closing_of_run? coherent row (position ▸ rest)).symm.trans waits
  · exact .inl onward

/-! ## The members of a group -/

section

variable (reachable : Reachable ν) (fresh : task.Fresh) (knows : ν.KnowsAll g task started [])
  (thrifty : ν.Thrifty holdings) {exits : Nat → Exit}
  (begun : ∀ i c, ν.machine.Placed g i c → ∃ n ≤ bound, ν.Travels c (exits i) n)
  (courses : ∀ (i : Nat) node, task.queue[i]? = some (i, node) → node.Sequential ∧
    ∃ n ≤ bound, (Left.going (.eval node) []).EndsIn (exits i) n)

include reachable fresh knows thrifty begun courses

/-- Every member that is not interrupted is on its course. -/
theorem KnowsAll.travels_run {later : List (Event σ)} (reusable : ∀ event ∈ later, event.Reusable)
    (placed : (ν.run later).machine.Placed g i c)
    (calm : (ν.run later).machine.isInterrupted c = false) :
    ∃ n, (ν.run later).Travels c (exits i) n ∧ n + ν.steps c later ≤ bound := by
  induction later using List.reverseRecOn with
  | nil =>
      obtain ⟨n, few, travels⟩ := begun i c placed
      exact ⟨n, travels, few⟩
  | append_singleton later event ih =>
      have reachable' := reachable.run later
      have reusable' : ∀ event ∈ later, event.Reusable := fun event' listed =>
        reusable event' (List.mem_append_left _ listed)
      obtain ⟨fiber, row, reader⟩ := placed
      have split : ν.steps c (later ++ [event]) = ν.steps c later +
          if ((ν.run later).strideAt c event).isSome then 1 else 0 := by
        rw [steps_append]
        rfl
      cases before : (ν.run later).machine.fiber? c with
      | none =>
          -- the member is born in this event
          obtain ⟨node, queued, starts⟩ := knows.born reachable fresh later event before row reader
          obtain ⟨sequential, n, few, ends⟩ := courses i node queued
          rw [run_append] at row ⊢
          have begins : ((ν.run later).apply event).Begins c node task.context :=
            ⟨⟨_, _, reachable', before, rfl⟩, fiber, row, starts.run⟩
          refine ⟨n, begins.travels sequential ends, ?_⟩
          rw [split, reachable.steps_of_missing before, reachable'.strideAt_of_missing before]
          exact few
      | some fiber' =>
          rw [run_append] at row calm ⊢
          obtain ⟨after, row', seat⟩ :=
            (evolves reachable'.isCoherent reachable'.tidy event).keepsSeats before
          obtain rfl := Option.some.inj (row.symm.trans row')
          have calm' := @Reachable.calm_before σ _ c reachable' [event] calm
          obtain ⟨n, travels, cost⟩ := ih reusable' ⟨fiber', before, seat.reader.symm.trans reader⟩
            calm'
          obtain ⟨_, thrifty'⟩ := reachable.thrifty_run thrifty reusable'
          obtain ⟨k, travels', cost'⟩ := reachable'.travels_apply thrifty' travels calm
          refine ⟨k, travels', ?_⟩
          rw [split]
          omega

end

/-! ## Many effects whose results are known -/

/-- A predicate of a run holds at first and does not hold in the end: there is an event in which it
ceases to hold. -/
theorem exists_turn {P : List (Event σ) → Prop} (first : P []) {events : List (Event σ)}
    (last : ¬ P events) : ∃ before event after, events = before ++ event :: after ∧ P before ∧
      ¬ P (before ++ [event]) := by
  induction events using List.reverseRecOn with
  | nil => exact absurd first last
  | append_singleton events event ih =>
      by_cases held : P events
      · exact ⟨events, event, [], rfl, held, last⟩
      · obtain ⟨before, event', after, rfl, holds, ceases⟩ := ih held
        exact ⟨before, event', after ++ [event], by simp, holds, ceases⟩

/-- Every reachable moment is the end of a run. -/
theorem Reachable.exists_run (reachable : Reachable μ) :
    ∃ world budget events, μ = (Moment.initial world budget).run events := by
  induction reachable with
  | initial world budget => exact ⟨world, budget, [], rfl⟩
  | apply event _ ih =>
      obtain ⟨world, budget, events, rfl⟩ := ih
      refine ⟨world, budget, events ++ [event], ?_⟩
      rw [run_append]
      rfl

/-- In a run every fiber keeps its parent and its reader. -/
theorem Reachable.seat_run {fiber : Fiber σ} (reachable : Reachable μ)
    (row : μ.machine.fiber? c = some fiber) (events : List (Event σ)) :
    ∃ after, (μ.run events).machine.fiber? c = some after ∧ fiber.SameSeat after := by
  induction events generalizing μ fiber with
  | nil => exact ⟨fiber, row, rfl, rfl, rfl⟩
  | cons event events ih =>
      obtain ⟨after, row', seat⟩ := (evolves reachable.isCoherent reachable.tidy event).keepsSeats row
      obtain ⟨last, row'', seat'⟩ := ih (reachable.apply event) row'
      exact ⟨last, row'', seat.trans seat'⟩

/-- Neither a fiber nor a child of it is interrupted. -/
def Undisturbed (μ : Moment σ) (f : FiberId) : Prop :=
  ∀ c fiber, μ.machine.fiber? c = some fiber → c = f ∨ fiber.parent = some f →
    μ.machine.isInterrupted c = false

theorem Undisturbed.calm {f : FiberId} (undisturbed : μ.Undisturbed f) :
    μ.machine.isInterrupted f = false := by
  cases row : μ.machine.fiber? f with
  | some fiber => exact undisturbed f fiber row (.inl rfl)
  | none =>
      rw [Machine.isInterrupted, row]
      rfl

/-- Nobody was interrupted before who is not interrupted in the end. -/
theorem Reachable.undisturbed_before {f : FiberId} (reachable : Reachable μ) {events : List (Event σ)}
    (undisturbed : (μ.run events).Undisturbed f) : μ.Undisturbed f := by
  intro c fiber row family
  obtain ⟨after, row', seat⟩ := reachable.seat_run row events
  refine reachable.calm_before (undisturbed c after row' ?_)
  exact family.imp_right fun parent => seat.parent.trans parent

/-- Nobody had a place in a group before there was one. -/
theorem Reachable.missing_of_placed (reachable : Reachable μ) {events : List (Event σ)}
    (placed : (μ.run events).machine.Placed μ.machine.groups.nextId i c) :
    μ.machine.fiber? c = none := by
  cases row : μ.machine.fiber? c with
  | none => rfl
  | some fiber =>
      obtain ⟨after, row', reader⟩ := placed
      obtain ⟨after', row'', seat⟩ := reachable.seat_run row events
      obtain rfl := Option.some.inj (row'.symm.trans row'')
      have placed' := Machine.placed_iff.1 ⟨fiber, row, seat.reader.symm.trans reader⟩
      obtain ⟨group, known, -⟩ := (seating_of_isCoherent reachable.isCoherent).member placed'
      cases (Table.get?_nextId _).symm.trans known

end Moment

/-- Sequential trees that lead to known results, each within a bound. -/
structure LeadTo (nodes : List (Node σ)) (results : List (Except Failure Value)) (bound : Nat) :
    Prop where
  length : nodes.length = results.length
  course : ∀ (i : Nat) node r, nodes[i]? = some node → results[i]? = some r →
    node.Sequential ∧ ∃ n ≤ bound, (Left.going (.eval node) []).EndsIn (.ofResult r) n

namespace Moment

variable {μ ν : Moment σ} {g : GroupId} {f c : FiberId} {i bound : Nat} {task : Gathering σ}
  {started : List FiberId} {heard : List Arrival} {holdings : Holdings} {slice : Slice σ}
  {nodes : List (Node σ)} {options : AllOptions} {results : List (Except Failure Value)}
  {stack : List (Frame σ)} {later : List (Event σ)}

/-- The members are children of the fiber that waits for them. -/
theorem KnowsAll.calm_of_placed (reachable : Reachable μ) (knows : μ.KnowsAll g task started heard)
    (undisturbed : μ.Undisturbed task.parent) (placed : μ.machine.Placed g i c) :
    μ.machine.isInterrupted c = false := by
  obtain ⟨group, known, parent⟩ :=
    (seating_of_isCoherent reachable.isCoherent).member (Machine.placed_iff.1 placed)
  obtain rfl := Option.some.inj (knows.row.symm.trans known)
  obtain ⟨fiber, row, -⟩ := placed
  exact undisturbed c fiber row (.inr ((Table.find_of_row Fiber.parent row).symm.trans parent))

/-- What arrives before a fiber is interrupted comes in time. -/
theorem KnowsAll.timely (reachable : Reachable ν) (fresh : task.Fresh)
    (knows : ν.KnowsAll g task started [])
    (calm : (ν.run later).machine.isInterrupted task.parent = false) :
    ∀ a ∈ arrivals g ν later, a.late = false := by
  induction later using List.reverseRecOn with
  | nil => exact fun a heard => by cases heard
  | append_singleton later event ih =>
      rw [run_append] at calm
      have calm' := @Reachable.calm_before σ _ task.parent (reachable.run later) [event] calm
      intro a heard
      rw [arrivals_append, arrivals, arrivals, List.append_nil] at heard
      rcases List.mem_append.1 heard with before | now
      · exact ih calm' a before
      · obtain ⟨started', knows'⟩ := knows.later reachable fresh later
        obtain ⟨delivery, -, rfl⟩ := List.mem_map.1 now
        have parent : (ν.run later).leaderMarked g =
            (ν.run later).machine.isInterrupted task.parent := by
          rw [leaderMarked, knows'.row]
          rfl
        exact parent.trans calm'

/-- The end of a wait for a group: up to then nothing happens to the one who waits, and then it hands
on the result. -/
theorem Waits.hears {result : List Arrival → Exit → Prop} (reachable : Reachable ν)
    (waits : ν.Waits g f result) (faces : ν.Faces f (.waiting false stack)) (first : ν.Awaits f g)
    (calm : (ν.run later).machine.isInterrupted f = false) :
    strides f ν later = [] ∧ (ν.run later).Awaits f g ∧
        (ν.run later).Faces f (.waiting false stack) ∨
      ∃ before after x, later = before ++ after ∧ strides f ν before = [] ∧
        result (arrivals g ν before) x ∧ (ν.run before).Faces f (.going (.done x) stack) := by
  -- as long as the fiber waits, it stands where it has stood
  have still : ∀ {l}, (ν.run l).machine.isInterrupted f = false → (ν.run l).Awaits f g →
      strides f ν l = [] ∧ (ν.run l).Faces f (.waiting false stack) := by
    intro l calm awaits
    rcases reachable.stays_or_hears faces calm with still | ⟨before, after, x, rfl, -, -, hears, -⟩
    · exact still
    · have awaits' := not_not.1 (mt (waits.told_once before after) (not_not.2 awaits))
      cases hears.symm.trans (waits.unanswered before awaits')
  by_cases awaits : (ν.run later).Awaits f g
  · obtain ⟨none, faces'⟩ := still calm awaits
    exact .inl ⟨none, awaits, faces'⟩
  obtain ⟨before, event, after, rfl, awaited, ended⟩ :=
    exists_turn (P := fun l => (ν.run l).Awaits f g) first awaits
  obtain ⟨x, gathered, has⟩ := waits.told before event awaited ended
  have turn : before ++ event :: after = (before ++ [event]) ++ after := by simp
  rw [turn, run_append] at calm
  have calm' := (reachable.run (before ++ [event])).calm_before calm
  rw [run_append] at calm' has
  obtain ⟨none, faces'⟩ := still ((reachable.run before).calm_before calm') awaited
  have answered : ((ν.run before).apply event).answer? f = some x := by
    rcases has [] with answered | ⟨_, _, impossible, -⟩
    · exact answered
    · simp at impossible
  refine .inr ⟨before ++ [event], after, x, turn, ?_⟩
  rw [strides_append, none, run_append]
  rcases (reachable.run before).faces_apply faces' calm' with
    ⟨-, _, _, _, going, -⟩ | ⟨silent, same | ⟨timer, stack', y, waiting, hears, -, faces''⟩ | ⟨_, ended, -⟩⟩
  · cases going
  · have coherent := ((reachable.run before).apply event).isCoherent
    cases answered.symm.trans (same.unanswered coherent)
  · obtain ⟨-, rfl⟩ := Left.waiting.inj waiting
    obtain rfl := Option.some.inj (hears.symm.trans answered)
    exact ⟨by simp [strides, silent], gathered, faces''⟩
  · cases ended

/-! ## Members that begin -/

/-- Many effects that have just begun, and whose results are known. -/
structure Foresees (ν : Moment σ) (g : GroupId) (task : Gathering σ)
    (results : List (Except Failure Value)) (bound : Nat) (members : List FiberId) : Prop where
  fresh : task.Fresh
  mode : task.mode = .collectAll
  knows : ν.KnowsAll g task members []
  nonempty : members ≠ []
  length : task.queue.length = results.length
  begun : ∀ i c, ν.machine.Placed g i c → ∃ r, results[i]? = some r ∧
    ∃ n ≤ bound, ν.Travels c (.ofResult r) n
  course : ∀ (i : Nat) node, task.queue[i]? = some (i, node) → node.Sequential ∧
    ∃ r, results[i]? = some r ∧ ∃ n ≤ bound, (Left.going (.eval node) []).EndsIn (.ofResult r) n
  arrive : ∀ later c i x, (∃ a ∈ arrivals g ν later, a.child = c ∧ a.place = i ∧ a.exit = x) ↔
    (ν.run later).machine.Placed g i c ∧ (ν.run later).EndedWith c x

section

variable (reachable : Reachable ν) (thrifty : ν.Thrifty holdings) {members : List FiberId}
  (foresees : ν.Foresees g task results bound members)

include reachable thrifty foresees

/-- Every member is on its course. -/
theorem Foresees.travels (reusable : ∀ event ∈ later, event.Reusable)
    (undisturbed : (ν.run later).Undisturbed task.parent)
    (placed : (ν.run later).machine.Placed g i c) : ∃ r, results[i]? = some r ∧
      ∃ n, (ν.run later).Travels c (.ofResult r) n ∧ n + ν.steps c later ≤ bound := by
  obtain ⟨fresh, -, knows, -, length, begun, course, -⟩ := foresees
  obtain ⟨started, knows'⟩ := knows.later reachable fresh later
  have inside : i < results.length := by
    obtain ⟨there, -⟩ := List.getElem?_eq_some_iff.1 ((knows'.placed i c).1 placed)
    have bound := knows'.bound
    omega
  let exits : Nat → Exit := fun i => .ofResult (results[i]?.getD (.ok .null))
  have exit : ∀ {j r}, results[j]? = some r → exits j = .ofResult r := fun known => by
    simp only [exits, known, Option.getD_some]
  have known := List.getElem?_eq_getElem inside
  obtain ⟨n, travels, cost⟩ : ∃ n, (ν.run later).Travels c (exits i) n ∧
      n + ν.steps c later ≤ bound := by
    refine KnowsAll.travels_run reachable fresh knows thrifty (fun j d placed => ?_)
      (fun j node queued => ?_) reusable placed
      (knows'.calm_of_placed (reachable.run later) undisturbed placed)
    · obtain ⟨r, known, travels⟩ := begun j d placed
      exact (exit known).symm ▸ travels
    · obtain ⟨sequential, r, known, ends⟩ := course j node queued
      exact ⟨sequential, (exit known).symm ▸ ends⟩
  exact ⟨results[i], known, n, exit known ▸ travels, cost⟩

/-- What is gathered are the results in the order of the trees. -/
theorem Foresees.gathered (reusable : ∀ event ∈ later, event.Reusable)
    (undisturbed : (ν.run later).Undisturbed task.parent) {x : Exit}
    (gathered : Gathered task.mode task.queue.length (arrivals g ν later) x) :
    x = .ok (.list (results.map .result)) := by
  rw [foresees.mode, foresees.length] at gathered
  refine gathered.results_eq (fun a heard => ?_)
    (foresees.knows.timely reachable foresees.fresh undisturbed.calm)
  obtain ⟨placed, ended⟩ := (foresees.arrive later _ _ _).1 ⟨a, heard, rfl, rfl, rfl⟩
  obtain ⟨r, known, n, travels, -⟩ := foresees.travels reachable thrifty reusable undisturbed placed
  exact ⟨r, known, travels.heads.exit_eq (reachable.run later).isCoherent ended⟩

/-- As long as somebody waits for many effects, one of the members is on its way. -/
theorem Foresees.onward {started : List FiberId} (reusable : ∀ event ∈ later, event.Reusable)
    (undisturbed : (ν.run later).Undisturbed task.parent)
    (knows : (ν.run later).KnowsAll g task started (arrivals g ν later))
    (awaits : (ν.run later).Awaits task.parent g) :
    ∃ c ∈ started, (ν.run later).OnItsWay c := by
  have reachable' := reachable.run later
  obtain ⟨⟨i, c⟩, runs⟩ := List.exists_mem_of_ne_nil _ ((knows.awaits_iff reachable').1 awaits)
  obtain ⟨known, unheard⟩ := Gathering.mem_running_later.1 runs
  have placed := (knows.placed i c).2 known
  refine ⟨c, List.mem_of_getElem? known, ?_⟩
  obtain ⟨r, -, n, travels, -⟩ := foresees.travels reachable thrifty reusable undisturbed placed
  rcases travels.onward reachable' with onward | ended
  · exact onward
  · obtain ⟨a, heard, -, rfl, -⟩ := (foresees.arrive later c i _).2 ⟨placed, ended⟩
    exact absurd (List.mem_map.2 ⟨a, heard, rfl⟩) unheard

/-- Many effects whose results are known: the members are few and take few steps, and the one who
waits for them gets the results in the order of the trees. -/
theorem Foresees.gathers (faces : ν.Faces task.parent (.waiting false stack))
    (reusable : ∀ event ∈ later, event.Reusable)
    (undisturbed : (ν.run later).Undisturbed task.parent) :
    ∃ family : List FiberId, family.length ≤ results.length ∧
      (∀ c ∈ family, ν.steps c later ≤ bound ∧ ∃ i, (ν.run later).machine.Placed g i c) ∧
      (strides task.parent ν later = [] ∧
          (ν.run later).Faces task.parent (.waiting false stack) ∧
          (∃ c ∈ family, (ν.run later).OnItsWay c) ∨
        ∃ before after, later = before ++ after ∧ strides task.parent ν before = [] ∧
          (ν.run before).Faces task.parent
            (.going (.done (.ok (.list (results.map .result)))) stack)) := by
  obtain ⟨fresh, -, knows, nonempty, length, -, -, -⟩ := id foresees
  obtain ⟨started, knows'⟩ := knows.later reachable fresh later
  refine ⟨started, length ▸ knows'.bound, fun c listed => ?_, ?_⟩
  · obtain ⟨i, known⟩ := List.mem_iff_getElem?.1 listed
    have placed := (knows'.placed i c).2 known
    obtain ⟨r, -, n, -, cost⟩ := foresees.travels reachable thrifty reusable undisturbed placed
    exact ⟨Nat.le_trans (Nat.le_add_left _ _) cost, i, placed⟩
  have first : ν.Awaits task.parent g := by
    refine (knows.awaits_iff reachable).2 fun idle => ?_
    have first : 0 < members.length := List.length_pos_iff.2 nonempty
    have runs : (0, members[0]) ∈ (task.later members []).running :=
      Gathering.mem_running_later.2 ⟨List.getElem?_eq_getElem _, by simp⟩
    rw [idle] at runs
    cases runs
  have waits := knows.waits reachable fresh fresh.length.symm
  rcases waits.hears reachable faces first undisturbed.calm with
    ⟨still, awaits, faces'⟩ | ⟨before, after, x, rfl, still, gathered, faces'⟩
  · exact .inl ⟨still, faces',
      foresees.onward reachable thrifty reusable undisturbed knows' awaits⟩
  · rw [run_append] at undisturbed
    obtain rfl := foresees.gathered reachable thrifty
      (fun event listed => reusable event (List.mem_append_left _ listed))
      ((reachable.run before).undisturbed_before undisturbed) gathered
    exact .inr ⟨before, after, rfl, still, faces'⟩

end

/-- Many effects that begin, with known results. -/
theorem StartsAll.foresees (reachable : Reachable μ) (starts : μ.StartsAll slice nodes options)
    (nonempty : nodes ≠ []) (mode : options.mode = .collectAll) (lead : LeadTo nodes results bound) :
    ∃ members, (μ.apply .work).Foresees μ.machine.groups.nextId
      (.task slice.fiber slice.run.context nodes options) results bound members := by
  obtain ⟨world, budget, events, rfl⟩ := reachable.exists_run
  let μ := (initial world budget).run events
  obtain ⟨members, begin, knows, arrivals_iff⟩ := starts.begins world budget events nonempty
  have course : ∀ (i : Nat) node, nodes[i]? = some node → node.Sequential ∧
      ∃ r, results[i]? = some r ∧
        ∃ n ≤ bound, (Left.going (.eval node) []).EndsIn (.ofResult r) n := by
    intro i node known
    obtain ⟨inside, -⟩ := List.getElem?_eq_some_iff.1 known
    have result := List.getElem?_eq_getElem (lead.length ▸ inside)
    obtain ⟨sequential, ends⟩ := lead.course i node _ known result
    exact ⟨sequential, _, result, ends⟩
  refine ⟨members, Gathering.fresh_task .., mode, knows, ?_, ?_, fun i c placed => ?_,
    fun i node queued => ?_, fun later => (arrivals_iff later).2⟩
  · have limit := Concurrency.one_le_limit options.concurrency nodes.length
    have some := List.length_pos_iff.2 nonempty
    have length := begin.length
    rw [List.length_take] at length
    exact List.length_pos_iff.1 (by omega)
  · simp [Gathering.task, Machine.numbered, lead.length]
  · -- the first members have just been born
    obtain ⟨inside, -⟩ := List.getElem?_eq_some_iff.1 ((knows.placed i c).1 placed)
    have first := List.getElem?_eq_getElem (begin.length ▸ inside)
    obtain ⟨c', fiber, known', row, start⟩ := begin.starts i _ first
    obtain rfl := Option.some.inj (((knows.placed i c).1 placed).symm.trans known')
    have missing : μ.machine.fiber? c = none :=
      reachable.missing_of_placed (show (μ.run [.work]).machine.Placed _ i c from placed)
    have begins : (μ.apply .work).Begins c _ slice.run.context :=
      ⟨⟨μ, .work, reachable, missing, rfl⟩, fiber, row, start.run⟩
    rw [List.getElem_take] at begins
    obtain ⟨sequential, r, known, n, few, ends⟩ := course i _ (List.getElem?_eq_getElem _)
    exact ⟨r, known, n, few, begins.travels sequential ends⟩
  · have numbered : (Machine.numbered nodes)[i]? = some (i, node) := queued
    rw [Machine.getElem?_numbered] at numbered
    obtain ⟨node', known, same⟩ := Option.map_eq_some_iff.1 numbered
    obtain rfl : node' = node := (Prod.mk.inj same).2
    exact course i node' known

end Moment

end EffectFibers
