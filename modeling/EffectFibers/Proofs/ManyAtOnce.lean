import EffectFibers.Effect.Concurrent
import EffectFibers.Proofs.Groups.Exits
import EffectFibers.Proofs.Groups.Gathering
import EffectFibers.Proofs.Progress.Position

/-!
# Many effects at once

Of many effects at once as many run as may, and they start in their order.  The parent waits until
every child that was started has ended; then it gets the result, once.  Unless an exit counts as a
failure, or comes when the parent is interrupted, the result lists what the children have ended
with, each at its place.  Otherwise the first such exit is the result, and after it no further child
starts.

## Main definitions

* `Moment.KnowsAll` – what is known, from the children that were started and the exits that came.
* `Moment.StartsAll` – many effects are just about to begin.
* `Moment.RunsAll` – how they stand after a while.

## Main statements

* `Moment.Reachable.knowsAll_apply` – one event.
* `Moment.results_are_gathered` – many effects at once, in every run.
-/

namespace EffectFibers

variable {σ : Type}

/-- A fiber has the given place in a group. -/
def Machine.Placed (m : Machine σ) (g : GroupId) (i : Nat) (c : FiberId) : Prop :=
  ∃ fiber, m.fiber? c = some fiber ∧ fiber.reader = .group g i

theorem Machine.placed_iff {m : Machine σ} {g : GroupId} {i : Nat} {c : FiberId} :
    m.Placed g i c ↔ m.core.place c = some (g, i) := by
  have place : m.core.place c = (m.fiber? c).bind Fiber.place := rfl
  rw [place]
  cases row : m.fiber? c with
  | none => simp [Placed, row]
  | some fiber =>
      cases reader : fiber.reader <;>
        simp [Placed, row, Fiber.place, ExitReader.place, reader]

theorem Gathering.fresh_task (p : FiberId) (context : Context Value) (nodes : List (Node σ))
    (options : AllOptions) : (task p context nodes options).Fresh where
  blank := by
    have blank : (List.range (task p context nodes options).results.length).map
        (slot options.mode []) = (task p context nodes options).results := by
      refine List.ext_getElem (by simp) fun i _ _ => ?_
      simp [slot, task]
    show { task p context nodes options with
      results := (List.range (task p context nodes options).results.length).map
        (slot options.mode []) } = _
    rw [blank]
  order k node known := by
    have known' : (Machine.numbered nodes)[k]? = some node := known
    rw [Machine.getElem?_numbered] at known'
    obtain ⟨node', -, rfl⟩ := Option.map_eq_some_iff.1 known'
    rfl
  length := by simp [task, Machine.numbered]
  limit_pos := Concurrency.one_le_limit _ _

namespace Moment

variable {μ : Moment σ} {event : Event σ} {g : GroupId} {c : FiberId} {i : Nat} {fiber : Fiber σ}
  {all task : Gathering σ} {started : List FiberId} {heard : List Arrival}

/-! ## Places -/

/-- A fiber that is born is running. -/
theorem Reachable.newborn_runs (reachable : Reachable μ) (missing : μ.machine.fiber? c = none)
    (row : (μ.apply event).machine.fiber? c = some fiber) : fiber.status = .running := by
  obtain ⟨⟨node, context, run, stands⟩, -⟩ := reachable.born missing row
  have coherent := (reachable.apply event).isCoherent
  have free : (μ.apply event).held ≠ some c := by
    intro held
    have unsaved := (row_of_held coherent held row).2.1
    rw [run] at unsaved
    cases unsaved
  rw [position?_of_saved row free] at stands
  have shaped := coherent.shaped row
  cases status : fiber.status with
  | running => rfl
  | suspended =>
      have asleep := shaped.asleep.1 status
      simp only [Fiber.position, run] at stands
      split at stands <;> simp_all
  | _ =>
      have gone := (shaped.ended (by rw [status]; rfl)).1
      rw [run] at gone
      cases gone

/-- The children of a group that have a place are those that had it before, and those that run. -/
theorem Reachable.placed_apply (reachable : Reachable μ) (event : Event σ)
    (row : (μ.apply event).machine.groups.get? g = some (.all all)) :
    (μ.apply event).machine.Placed g i c ↔ μ.machine.Placed g i c ∨ (i, c) ∈ all.running := by
  have seated := (seating_of_isCoherent (reachable.apply event).isCoherent).all row nofun
  constructor
  · rintro ⟨fiber, row', reader⟩
    cases before : μ.machine.fiber? c with
    | none =>
        have runs := reachable.newborn_runs before row'
        have live : (μ.apply event).machine.core.live c = some fiber.live := Table.view_of_row _ row'
        have placed := Machine.placed_iff.1 ⟨fiber, row', reader⟩
        refine .inr (seated.listed (.inl ?_) placed)
        rw [live, Fiber.live, runs]
        rfl
    | some fiber' =>
        obtain ⟨after, row'', seat⟩ :=
          (evolves reachable.isCoherent reachable.tidy event).keepsSeats before
        obtain rfl := Option.some.inj (row'.symm.trans row'')
        exact .inl ⟨fiber', before, seat.reader.symm.trans reader⟩
  · rintro (⟨fiber', before, reader⟩ | runs)
    · obtain ⟨after, row', seat⟩ :=
        (evolves reachable.isCoherent reachable.tidy event).keepsSeats before
      exact ⟨after, row', seat.reader.trans reader⟩
    · exact Machine.placed_iff.2 (seated.runs runs).2

/-! ## One event -/

/-- Many effects at once are known: the children that were started, and the exits that have come. -/
structure KnowsAll (μ : Moment σ) (g : GroupId) (task : Gathering σ) (started : List FiberId)
    (heard : List Arrival) : Prop where
  row : μ.machine.groups.get? g = some (.all (task.later started heard))
  placed : ∀ i c, μ.machine.Placed g i c ↔ started[i]? = some c
  ordered : started.Pairwise (·.raw < ·.raw)
  bound : started.length ≤ task.queue.length
  inside : ∀ a ∈ heard, a.place < started.length
  busy : (task.later started heard).Busy

/-- What becomes of many effects at once in an event: new children start, and when nobody is left the
parent gets the result. -/
structure Advances (μ : Moment σ) (event : Event σ) (g : GroupId) (task : Gathering σ)
    (started : List FiberId) (heard : List Arrival) (new : List FiberId) : Prop where
  knows : (μ.apply event).KnowsAll g task (started ++ new) (heard ++ μ.arrivalsAt g event)
  stops : (failing task.mode (heard ++ μ.arrivalsAt g event)).isSome → new = []
  born : ∀ k c, new[k]? = some c → ∃ node fiber,
    task.queue[started.length + k]? = some (started.length + k, node) ∧
      (μ.apply event).machine.fiber? c = some fiber ∧
      fiber.Starts task.parent g (started.length + k) node task.context
  told : μ.arrivalsAt g event ≠ [] →
    (task.later (started ++ new) (heard ++ μ.arrivalsAt g event)).running = [] →
    ∃ x, Gathered task.mode task.results.length (heard ++ μ.arrivalsAt g event) x ∧
      (μ.apply event).answer? task.parent = some x

/-- Nothing has come, and nothing changes. -/
theorem KnowsAll.stays (reachable : Reachable μ) (knows : μ.KnowsAll g task started heard)
    (nothing : μ.arrivalsAt g event = [])
    (row : (μ.apply event).machine.groups.get? g = some (.all (task.later started heard))) :
    μ.Advances event g task started heard [] := by
  refine ⟨?_, fun _ => rfl, nofun, fun some => absurd nothing some⟩
  rw [nothing, List.append_nil, List.append_nil]
  refine ⟨row, fun i c => ?_, knows.ordered, knows.bound, knows.inside, knows.busy⟩
  rw [reachable.placed_apply event row, knows.placed, Gathering.mem_running_later]
  exact or_iff_left_of_imp And.left

/-- The children that start next begin with their nodes. -/
theorem Reachable.starts_of_next (reachable : Reachable μ) {n m : Machine σ} {settled : Gathering σ}
    {size k : Nat} {child : Nat × FiberId} (fills : n.Fills g settled size m)
    (large : μ.machine.fibers.size ≤ size) (tells : m.OnlyTells (μ.apply event).machine)
    (listed : (settled.next size)[k]? = some child) :
    ∃ node fiber, settled.queue[k]? = some (child.1, node) ∧
      (μ.apply event).machine.fiber? child.2 = some fiber ∧
      fiber.Starts settled.parent g child.1 node settled.context := by
  obtain ⟨node, fiber, queued, row, starts⟩ := fills.born k child listed
  obtain ⟨after, row', same⟩ := tells.runs row
  have new : child ∈ settled.next size := List.mem_of_getElem? listed
  have known : (μ.apply event).machine.groups.get? g =
      some (.all (settled.filled (settled.next size))) := by
    rw [tells.steady.groups]
    exact fills.row
  have seating := seating_of_isCoherent (reachable.apply event).isCoherent
  have placed := ((seating.all known nofun).runs (List.mem_append_right _ new)).2
  have reader : after.reader = .group g child.1 := by
    obtain ⟨after', row'', reader⟩ := Machine.placed_iff.2 placed
    obtain rfl := Option.some.inj (row'.symm.trans row'')
    exact reader
  have parent : after.parent = some settled.parent := by
    obtain ⟨group, known', parent⟩ := seating.member placed
    obtain rfl := Option.some.inj (known.symm.trans known')
    exact (Table.find_of_row Fiber.parent row').symm.trans parent
  have missing : μ.machine.fiber? child.2 = none := by
    cases before : μ.machine.fiber? child.2 with
    | none => rfl
    | some fiber' =>
        have inside := (Table.exists_row_iff.1 ⟨fiber', before⟩).2
        have beyond := Machine.lt_of_mem_newMembers new
        omega
  exact ⟨node, after, queued, row', parent, reader, same.trans starts.run,
    reachable.newborn_runs missing row'⟩

/-- After as many children as possible were started. -/
theorem Reachable.knowsAll_of_fills (reachable : Reachable μ) (event : Event σ)
    (fresh : task.Fresh) {n m : Machine σ} {size : Nat}
    (fills : n.Fills g (task.later started heard) size m)
    (large : μ.machine.fibers.size ≤ size) (tells : m.OnlyTells (μ.apply event).machine)
    (inside : ∀ a ∈ heard, a.place < started.length)
    (placed : ∀ i c, μ.machine.Placed g i c ↔ started[i]? = some c)
    (ordered : started.Pairwise (·.raw < ·.raw)) (bound : started.length ≤ task.queue.length)
    (room : (task.later started heard).running.length ≤ task.limit) {new : List FiberId}
    (news : ((task.later started heard).next size).map (·.2) = new) :
    (μ.apply event).KnowsAll g task (started ++ new) heard ∧
      ∀ k c, new[k]? = some c → ∃ node fiber,
        task.queue[started.length + k]? = some (started.length + k, node) ∧
          (μ.apply event).machine.fiber? c = some fiber ∧
          fiber.Starts task.parent g (started.length + k) node task.context := by
  have filled : (task.later started heard).filled ((task.later started heard).next size) =
      task.later (started ++ new) heard := by
    rw [← news]
    exact Gathering.filled_later fresh inside size
  have row : (μ.apply event).machine.groups.get? g =
      some (.all (task.later (started ++ new) heard)) := by
    rw [tells.steady.groups, ← filled]
    exact fills.row
  refine ⟨⟨row, fun i c => ?_, ?_, ?_, fun a listed => ?_, ?_⟩, fun k c listed => ?_⟩
  · rw [reachable.placed_apply event row, placed, Gathering.mem_running_later]
    constructor
    · rintro (old | ⟨runs, -⟩)
      · obtain ⟨there, -⟩ := List.getElem?_eq_some_iff.1 old
        rw [List.getElem?_append_left there]
        exact old
      · exact runs
    · intro known
      by_cases there : i < started.length
      · rw [List.getElem?_append_left there] at known
        exact .inl known
      · refine .inr ⟨known, fun heard' => there ?_⟩
        obtain ⟨a, listed, rfl⟩ := List.mem_map.1 heard'
        exact inside a listed
  · rw [← news]
    refine List.pairwise_append.2 ⟨ordered, Machine.pairwise_newMembers _ _, fun c old d later => ?_⟩
    obtain ⟨i, known⟩ := List.mem_iff_getElem?.1 old
    obtain ⟨fiber, row', -⟩ := (placed i c).2 known
    have below := (Table.exists_row_iff.1 ⟨fiber, row'⟩).2
    obtain ⟨child, next, rfl⟩ := List.mem_map.1 later
    have above := Machine.lt_of_mem_newMembers next
    omega
  · have few : (task.later started heard).queue.length ≤ task.queue.length - started.length := by
      simp only [Gathering.later]
      split
      · exact Nat.zero_le _
      · exact Nat.le_of_eq List.length_drop
    rw [← news, List.length_append, List.length_map, Gathering.length_next]
    omega
  · rw [List.length_append]
    have := inside a listed
    omega
  · rw [← filled]
    exact Gathering.busy_filled room size
  · rw [← news, List.getElem?_map] at listed
    obtain ⟨child, next, rfl⟩ := Option.map_eq_some_iff.1 listed
    obtain ⟨node, fiber, queued, row', starts⟩ :=
      reachable.starts_of_next fills large tells next
    obtain ⟨rfl, -⟩ := Gathering.getElem?_next fresh next
    exact ⟨node, fiber, Gathering.getElem?_queue_later queued, row', starts⟩

/-- The exit of a child has come. -/
theorem KnowsAll.advances (reachable : Reachable μ) (fresh : task.Fresh)
    (knows : μ.KnowsAll g task started heard) {n : Machine σ} {x : Exit}
    (arrival : μ.arrivalsAt g event = [⟨c, i, x, μ.leaderMarked g⟩])
    (arrives : μ.machine.Arrives g c i n)
    (tells : (n.memberExit g i x).OnlyTells (μ.apply event).machine) :
    ∃ new, μ.Advances event g task started heard new := by
  let a : Arrival := ⟨c, i, x, μ.leaderMarked g⟩
  let settled := task.later started (heard ++ [a])
  have row : n.groups.get? g = some (.all (task.later started heard)) := by
    rw [arrives.steady.groups]
    exact knows.row
  -- the child is one of those that run
  obtain ⟨known, unheard⟩ := Gathering.mem_running_later.1
    ((arrives.coherent.seating.all row nofun).listed (.inr rfl) arrives.placed)
  have late : n.isInterrupted (task.later started heard).parent = a.late := by
    have late : μ.leaderMarked g = μ.machine.isInterrupted task.parent := by
      rw [leaderMarked, knows.row]
      rfl
    rw [arrives.steady.marks]
    exact late.symm
  have settles : ((task.later started heard).settle i x
      (n.isInterrupted (task.later started heard).parent)).2 = settled := by
    rw [late]
    exact Gathering.settle_later (a := a) unheard
  have finished : settled.failure ≠ none → settled.queue = [] :=
    fun failed => if_pos (Option.isSome_iff_ne_none.2 failed)
  obtain ⟨⟨size, fills⟩, told⟩ :=
    Machine.gathered arrives.coherent arrives.placed row x settles finished
  have inside : ∀ b ∈ heard ++ [a], b.place < started.length := by
    intro b listed
    rcases List.mem_append.1 listed with before | here
    · exact knows.inside b before
    · obtain rfl := List.mem_singleton.1 here
      exact (List.getElem?_eq_some_iff.1 known).1
  have room : settled.running.length ≤ task.limit := by
    have fewer : settled.running.length ≤ (task.later started heard).running.length := by
      obtain ⟨running, -⟩ := (task.later started heard).settle_cases i x
        (n.isInterrupted (task.later started heard).parent)
      rw [settles] at running
      rw [running]
      exact List.length_filter_le _ _
    exact Nat.le_trans fewer knows.busy.room
  obtain ⟨knows', born⟩ := reachable.knowsAll_of_fills event fresh fills
    (arrives.steady.size ▸ fills.old) tells inside knows.placed knows.ordered knows.bound room rfl
  refine ⟨_, ⟨arrival ▸ knows', fun failed => ?_, born, fun _ idle => ?_⟩⟩
  · rw [arrival] at failed
    rw [Gathering.next_of_nothing (finished (Option.isSome_iff_ne_none.1 failed))]
    rfl
  · rw [arrival] at idle ⊢
    have done : settled.isDone := by
      have nobody : (settled.filled (settled.next size)).running = [] := by
        rw [Gathering.filled_later fresh inside size]
        exact idle
      exact Gathering.isDone_of_filled fresh.limit_pos nobody
    exact ⟨settled.outcome, Gathering.gathered_of_done fresh done, tells.inputs (told done)⟩

/-- In an event the exit of at most one child arrives. -/
theorem Reachable.knowsAll_apply (reachable : Reachable μ) (fresh : task.Fresh)
    (knows : μ.KnowsAll g task started heard) (event : Event σ) :
    ∃ new, μ.Advances event g task started heard new := by
  cases reachable.delivers event with
  | nobody quiet kept =>
      have nothing : μ.arrivalsAt g event = [] := by
        rw [arrivalsAt, quiet]
        rfl
      exact ⟨[], knows.stays reachable nothing (kept knows.row)⟩
  | @member h c i x n delivered arrives tells =>
      by_cases same : h = g
      · subst same
        refine knows.advances reachable fresh ?_ arrives tells
        rw [arrivalsAt, delivered]
        simp
      · have nothing : μ.arrivalsAt g event = [] := by
          rw [arrivalsAt, delivered]
          simp [same]
        refine ⟨[], knows.stays reachable nothing ?_⟩
        rw [tells.steady.groups, Machine.groups_memberExit_of_ne same,
          arrives.steady.groups]
        exact knows.row

/-- In a run further children are started, but none after a failure. -/
theorem Reachable.knowsAll_run (reachable : Reachable μ) (fresh : task.Fresh)
    (knows : μ.KnowsAll g task started heard) (events : List (Event σ)) :
    ∃ new, (μ.run events).KnowsAll g task (started ++ new) (heard ++ arrivals g μ events) ∧
      ((failing task.mode heard).isSome → new = []) := by
  induction events generalizing μ started heard with
  | nil =>
      refine ⟨[], ?_, fun _ => rfl⟩
      rw [arrivals, List.append_nil, List.append_nil]
      exact knows
  | cons event events ih =>
      obtain ⟨new, advances⟩ := reachable.knowsAll_apply fresh knows event
      obtain ⟨more, rest, stops⟩ := ih (reachable.apply event) advances.knows
      refine ⟨new ++ more, ?_, fun failed => ?_⟩
      · rw [arrivals, ← List.append_assoc, ← List.append_assoc]
        exact rest
      · have still : (failing task.mode (heard ++ μ.arrivalsAt g event)).isSome := by
          rw [failing_append_of_isSome failed]
          exact failed
        rw [advances.stops still, stops still]
        rfl

/-! ## The beginning -/

/-- The worker is about to start many effects at once. -/
structure StartsAll (μ : Moment σ) (slice : Slice σ) (nodes : List (Node σ)) (options : AllOptions) :
    Prop where
  free : μ.taken = none
  running : μ.machine.running = some slice
  next : slice.run.next = .eval (.all nodes options)
  calm : μ.machine.interruptPending slice.fiber slice.run = false

/-- Of no effects there are no results. -/
theorem StartsAll.work_of_nothing {slice : Slice σ} {options : AllOptions}
    (starts : μ.StartsAll slice [] options) :
    (μ.apply .work).taken = some (slice, .done (.ok (.list []))) := by
  rw [work_of_eval starts.free starts.running starts.next starts.calm, Machine.evalNode,
    Machine.evalAll, if_pos List.isEmpty_nil]

theorem StartsAll.work {slice : Slice σ} {nodes : List (Node σ)} {options : AllOptions}
    (starts : μ.StartsAll slice nodes options) (nonempty : nodes ≠ []) :
    (μ.apply .work).machine =
      ({ μ.machine with running := none }.startAll slice.fiber slice.run.context nodes
        options).2 := by
  rw [work_of_eval starts.free starts.running starts.next starts.calm, Machine.evalNode,
    Machine.evalAll, if_neg (by simpa using nonempty)]

/-- The first children are started at once. -/
theorem StartsAll.hasStarted (reachable : Reachable μ) {slice : Slice σ} {nodes : List (Node σ)}
    {options : AllOptions} (starts : μ.StartsAll slice nodes options) (nonempty : nodes ≠ []) :
    ∃ members, (μ.apply .work).HasStarted μ.machine.groups.nextId slice.fiber slice.run.context
        (nodes.take (options.concurrency.limit nodes.length)) members ∧
      (μ.apply .work).KnowsAll μ.machine.groups.nextId
        (.task slice.fiber slice.run.context nodes options) members [] := by
  let task := Gathering.task slice.fiber slice.run.context nodes options
  let g := μ.machine.groups.nextId
  let opened : Machine σ := { μ.machine with
    running := none
    groups := μ.machine.groups.push (.all task) }
  have fresh : task.Fresh := Gathering.fresh_task ..
  have held : μ.held = some slice.fiber := by simp [Moment.held, starts.free, starts.running]
  obtain ⟨parent, row, -⟩ := Table.exists_row_of_view
    ((agenda_of_isCoherent reachable.isCoherent).held_works held)
  have fills : opened.Fills g task opened.fibers.size (opened.fill g task) :=
    Machine.fills_fill rfl (Table.get?_push_self ..) (Option.isSome_iff_exists.2 ⟨parent, row⟩)
  have machine : opened.fill g task = (μ.apply .work).machine := (starts.work nonempty).symm
  rw [machine, ← fresh.blank] at fills
  -- the group is new, so nobody has a place in it
  have placed : ∀ i c, μ.machine.Placed g i c ↔ ([] : List FiberId)[i]? = some c := by
    refine fun i c => ⟨fun there => ?_, by simp⟩
    obtain ⟨group, known, -⟩ :=
      (seating_of_isCoherent reachable.isCoherent).member (Machine.placed_iff.1 there)
    cases (Table.get?_nextId _).symm.trans known
  have idle : (task.later [] []).running = [] := rfl
  obtain ⟨knows, born⟩ := reachable.knowsAll_of_fills .work fresh fills (Nat.le_refl _)
    (.refl _) (by simp) placed .nil (Nat.zero_le _) (Nat.zero_le _) rfl
  rw [List.nil_append] at knows
  have length : (((task.later [] []).next opened.fibers.size).map (·.2)).length =
      (nodes.take (options.concurrency.limit nodes.length)).length := by
    rw [List.length_map, Gathering.length_next, idle, fresh.blank, List.length_take]
    simp [task, Gathering.task, Machine.numbered]
  refine ⟨_, ⟨length, fun i node known => ?_⟩, knows⟩
  obtain ⟨inside, -⟩ := List.getElem?_eq_some_iff.1 known
  have listed := List.getElem?_eq_getElem (length ▸ inside)
  obtain ⟨node', fiber, queued, row', begins⟩ := born i _ listed
  rw [List.length_nil, Nat.zero_add] at queued begins
  have first : nodes[i]? = some node := by
    rw [List.getElem?_take] at known
    split at known
    · exact known
    · cases known
  have numbered : (Machine.numbered nodes)[i]? = some (i, node') := queued
  rw [Machine.getElem?_numbered, first] at numbered
  obtain rfl : node = node' := (Prod.mk.inj (Option.some.inj numbered)).2
  exact ⟨_, fiber, listed, row', begins⟩

/-! ## While they run -/

/-- How many effects at once stand: the children that were started, in the order of their nodes, and
those that run. -/
structure StandsAll (μ : Moment σ) (g : GroupId) (n limit : Nat) (failed : Bool)
    (members running : List FiberId) : Prop where
  length : members.length ≤ n
  placed : ∀ i c, μ.machine.Placed g i c ↔ members[i]? = some c
  /-- Fibers are numbered as they are made. -/
  ordered : members.Pairwise (·.raw < ·.raw)
  nodup : running.Nodup
  runs : ∀ c, c ∈ running ↔ μ.machine.Member g c ∧ (μ.machine.status c).isTerminal = false
  limited : running.length ≤ limit
  busy : failed = false → members.length < n → running.length = limit

theorem KnowsAll.standsAll (reachable : Reachable μ) (knows : μ.KnowsAll g task started heard) :
    μ.StandsAll g task.queue.length task.limit (failing task.mode heard).isSome started
      ((task.later started heard).running.map (·.2)) := by
  have seated := (seating_of_isCoherent reachable.isCoherent).all knows.row nofun
  have apart : started.Nodup := by
    refine knows.ordered.imp fun below same => ?_
    rw [same] at below
    exact Nat.lt_irrefl _ below
  refine ⟨knows.bound, knows.placed, knows.ordered,
    apart.sublist (Gathering.running_later_sublist ..), fun c => ⟨?_, ?_⟩, ?_, fun calm more => ?_⟩
  · intro listed
    obtain ⟨⟨i, c⟩, runs, rfl⟩ := List.mem_map.1 listed
    obtain ⟨counted, placed⟩ := seated.runs runs
    have member := Machine.member_iff.2 ⟨i, placed⟩
    obtain ⟨fiber, -, row, -⟩ := id member
    have live : μ.machine.core.live c = some true := by simpa [Counted] using counted
    have live' : fiber.live = true :=
      Option.some.inj ((Table.view_of_row Fiber.live row).symm.trans live)
    refine ⟨member, ?_⟩
    rw [Coherent.status_of_row row]
    simpa [Fiber.live] using live'
  · rintro ⟨member, lives⟩
    obtain ⟨i, placed⟩ := Machine.member_iff.1 member
    obtain ⟨fiber, -, row, -⟩ := member
    rw [Coherent.status_of_row row] at lives
    have live : μ.machine.core.live c = some true :=
      (Table.view_of_row Fiber.live row).trans (by simp [Fiber.live, lives])
    exact List.mem_map.2 ⟨(i, c), seated.listed (.inl live) placed, rfl⟩
  · rw [List.length_map]
    exact knows.busy.room
  · rw [List.length_map]
    refine knows.busy.full fun empty => ?_
    have all : task.queue.length ≤ started.length := by
      simpa [Gathering.later, calm, List.drop_eq_nil_iff] using empty
    omega

/-- Somebody waits for many effects at once as long as a child runs. -/
theorem KnowsAll.awaits_iff (reachable : Reachable μ) (knows : μ.KnowsAll g task started heard) :
    μ.Awaits task.parent g ↔ (task.later started heard).running ≠ [] := by
  have runs := (knows.standsAll reachable).runs
  refine (reachable.awaits_iff knows.row).trans ?_
  constructor
  · rintro ⟨c, lives⟩ idle
    have listed := (runs c).2 lives
    rw [idle] at listed
    cases listed
  · intro some
    obtain ⟨child, listed⟩ := List.exists_mem_of_ne_nil _ some
    exact ⟨child.2, (runs child.2).1 (List.mem_map.2 ⟨child, listed, rfl⟩)⟩

/-- When nobody runs any more, nobody is started any more. -/
theorem KnowsAll.finished (reachable : Reachable μ) (fresh : task.Fresh)
    (knows : μ.KnowsAll g task started heard) (idle : (task.later started heard).running = [])
    (events : List (Event σ)) : ¬ (μ.run events).Awaits task.parent g := by
  obtain ⟨new, knows', stops⟩ := reachable.knowsAll_run fresh knows events
  have nothing : new = [] := by
    cases calm : failing task.mode heard with
    | some cause => exact stops (by simp [calm])
    | none =>
        have empty : (task.later started heard).queue = [] := by
          by_contra more
          have full := knows.busy.full more
          have some := fresh.limit_pos
          rw [idle, List.length_nil] at full
          exact absurd some (by rw [show task.limit = 0 from full.symm]; omega)
        have all : task.queue.length ≤ started.length := by
          simpa [Gathering.later, calm, List.drop_eq_nil_iff] using empty
        have bound := knows'.bound
        rw [List.length_append] at bound
        exact List.length_eq_zero_iff.1 (by omega)
  rw [knows'.awaits_iff (reachable.run events), nothing, List.append_nil]
  exact not_not.2 (Gathering.running_later_of_idle idle _)

/-- Many effects at once in any later moment. -/
structure RunsAll (ν : Moment σ) (g : GroupId) (p : FiberId) (context : Context Value)
    (nodes : List (Node σ)) (options : AllOptions) : Prop where
  once : ∀ later, ((arrivals g ν later).map (·.child)).Nodup
  ends : ∀ later c i x, (∃ a ∈ arrivals g ν later, a.child = c ∧ a.place = i ∧ a.exit = x) ↔
    (ν.run later).machine.Placed g i c ∧ (ν.run later).EndedWith c x
  stands : ∀ later, ∃ members running, (ν.run later).StandsAll g nodes.length
    (options.concurrency.limit nodes.length)
    (failing options.mode (arrivals g ν later)).isSome members running
  born : ∀ later event c i fiber, (ν.run later).machine.fiber? c = none →
    (ν.run (later ++ [event])).machine.fiber? c = some fiber → fiber.reader = .group g i →
    ∃ node, nodes[i]? = some node ∧ fiber.Starts p g i node context
  /-- With the first failure, and after it, no child is started. -/
  stops : ∀ later event more, (failing options.mode (arrivals g ν (later ++ [event]))).isSome →
    ∀ c, (ν.run (later ++ event :: more)).machine.Member g c → (ν.run later).machine.Member g c
  waits : ν.Waits g p (Gathered options.mode nodes.length)

section

variable {ν : Moment σ} (reachable : Reachable ν) (fresh : task.Fresh)
  (knows : ν.KnowsAll g task started [])

include reachable fresh knows

theorem KnowsAll.later (later : List (Event σ)) :
    ∃ started, (ν.run later).KnowsAll g task started (arrivals g ν later) := by
  obtain ⟨new, knows', -⟩ := reachable.knowsAll_run fresh knows later
  exact ⟨_, knows'⟩

/-- One event more. -/
theorem KnowsAll.later_advances (later : List (Event σ)) (event : Event σ) : ∃ started new,
    (ν.run later).KnowsAll g task started (arrivals g ν later) ∧
      (ν.run later).Advances event g task started (arrivals g ν later) new := by
  obtain ⟨started, knows'⟩ := knows.later reachable fresh later
  obtain ⟨new, advances⟩ := (reachable.run later).knowsAll_apply fresh knows' event
  exact ⟨started, new, knows', advances⟩

/-- The parent gets what the children have ended with. -/
theorem KnowsAll.waits (length : task.results.length = task.queue.length) :
    ν.Waits g task.parent (Gathered task.mode task.queue.length) := by
  refine ⟨fun later => ?_, fun later => (reachable.run later).unanswered,
    fun later event before after => ?_, fun later more finished => ?_⟩
  · obtain ⟨started, knows'⟩ := knows.later reachable fresh later
    exact (reachable.run later).awaits_iff knows'.row
  · obtain ⟨started, new, knows', advances⟩ := knows.later_advances reachable fresh later event
    have runs := (knows'.awaits_iff (reachable.run later)).1 before
    rw [run_append] at after ⊢
    have idle := not_not.1 (mt (advances.knows.awaits_iff
      ((reachable.run later).apply event)).2 after)
    -- an exit must have come, for the children that ran before run no more
    have some : (ν.run later).arrivalsAt g event ≠ [] := by
      intro nothing
      rw [nothing, List.append_nil] at idle
      obtain ⟨⟨i, c⟩, listed⟩ := List.exists_mem_of_ne_nil _ runs
      obtain ⟨known, unheard⟩ := Gathering.mem_running_later.1 listed
      obtain ⟨inside, -⟩ := List.getElem?_eq_some_iff.1 known
      have still : (i, c) ∈ (task.later (started ++ new) (arrivals g ν later)).running :=
        Gathering.mem_running_later.2 ⟨by rw [List.getElem?_append_left inside, known], unheard⟩
      rw [idle] at still
      cases still
    obtain ⟨x, gathered, answered⟩ := advances.told some idle
    refine ⟨x, ?_, ((reachable.run later).apply event).has answered⟩
    rw [arrivals_append, arrivals, arrivals, List.append_nil, ← length]
    exact gathered
  · obtain ⟨started, knows'⟩ := knows.later reachable fresh later
    have idle := not_not.1 (mt (knows'.awaits_iff (reachable.run later)).2 finished)
    rw [run_append]
    exact knows'.finished (reachable.run later) fresh idle more

/-- With the first failure, and after it, no child is started. -/
theorem KnowsAll.stops (later : List (Event σ)) (event : Event σ) (more : List (Event σ))
    (failed : (failing task.mode (arrivals g ν (later ++ [event]))).isSome)
    (member : (ν.run (later ++ event :: more)).machine.Member g c) :
    (ν.run later).machine.Member g c := by
  obtain ⟨started, new, knows', advances⟩ := knows.later_advances reachable fresh later event
  rw [arrivals_append, arrivals, arrivals, List.append_nil] at failed
  obtain ⟨rest, knows'', stops⟩ :=
    ((reachable.run later).apply event).knowsAll_run fresh advances.knows more
  obtain ⟨fiber, i, row, reader⟩ := member
  have placed : ((ν.run later).apply event |>.run more).machine.Placed g i c := by
    rw [run_append, run_cons] at row
    exact ⟨fiber, row, reader⟩
  have known := (knows''.placed i c).1 placed
  rw [stops failed, advances.stops failed, List.append_nil, List.append_nil] at known
  obtain ⟨fiber', row', reader'⟩ := (knows'.placed i c).2 known
  exact ⟨fiber', i, row', reader'⟩

/-- Every child begins with its node. -/
theorem KnowsAll.born (later : List (Event σ)) (event : Event σ)
    (missing : (ν.run later).machine.fiber? c = none)
    (row : (ν.run (later ++ [event])).machine.fiber? c = some fiber)
    (reader : fiber.reader = .group g i) :
    ∃ node, task.queue[i]? = some (i, node) ∧ fiber.Starts task.parent g i node task.context := by
  obtain ⟨started, new, knows', advances⟩ := knows.later_advances reachable fresh later event
  rw [run_append] at row
  have known := (advances.knows.placed i c).1 ⟨fiber, row, reader⟩
  by_cases old : i < started.length
  · rw [List.getElem?_append_left old] at known
    obtain ⟨fiber', before, -⟩ := (knows'.placed i c).2 known
    cases missing.symm.trans before
  · have late : started.length ≤ i := Nat.le_of_not_lt old
    rw [List.getElem?_append_right late] at known
    obtain ⟨node, fiber', queued, row', starts⟩ := advances.born _ c known
    rw [Nat.add_sub_cancel' late] at queued starts
    obtain rfl := Option.some.inj (row.symm.trans row')
    exact ⟨node, queued, starts⟩

end

/-! ## Every run -/

/-- Many effects that begin in some run are known from then on, and whatever arrives is the end of a
child. -/
theorem StartsAll.begins (world : World σ) (budget : Nat) (events : List (Event σ)) {slice : Slice σ}
    {nodes : List (Node σ)} {options : AllOptions}
    (starts : ((initial world budget).run events).StartsAll slice nodes options)
    (nonempty : nodes ≠ []) :
    let μ := (initial world budget).run events
    let g := μ.machine.groups.nextId
    ∃ members, (μ.apply .work).HasStarted g slice.fiber slice.run.context
        (nodes.take (options.concurrency.limit nodes.length)) members ∧
      (μ.apply .work).KnowsAll g (.task slice.fiber slice.run.context nodes options) members [] ∧
      ∀ later, ((arrivals g (μ.apply .work) later).map (·.child)).Nodup ∧
        ∀ c i x, (∃ a ∈ arrivals g (μ.apply .work) later, a.child = c ∧ a.place = i ∧ a.exit = x) ↔
          ((μ.apply .work).run later).machine.Placed g i c ∧
            ((μ.apply .work).run later).EndedWith c x := by
  intro μ g
  have reachable : Reachable μ := (Reachable.initial world budget).run events
  have reachable' : Reachable (μ.apply .work) := reachable.apply .work
  have ledger : (μ.apply .work).machine.Ledger
      ((initial world budget).acts events ++ μ.actsAt .work) fun _ => [] := by
    have run := (Reachable.initial world budget).ledger_run (ledger_initial world budget) events
    exact reachable.ledger_apply run .work
  obtain ⟨members, started, knows⟩ := starts.hasStarted reachable nonempty
  have unheard := started.unheard reachable' ledger fun c member => by
    obtain ⟨fiber, i, row, reader⟩ := member
    exact List.mem_of_getElem? ((knows.placed i c).1 ⟨fiber, row, reader⟩)
  exact ⟨members, started, knows, fun later => reachable'.arrivals_iff ledger unheard later⟩

/-- In every run, when many effects begin as many are started as may run at once, in their order, and
further ones as soon as there is room.  The parent waits until every child that was started has
ended; then it gets the result, once: a list of what the children have ended with, or the first
failure, after which no further child is started. -/
theorem results_are_gathered (world : World σ) (budget : Nat) (events : List (Event σ)) :
    let μ := (initial world budget).run events
    ∀ slice nodes options, μ.StartsAll slice nodes options →
      (nodes = [] → (μ.apply .work).taken = some (slice, .done (.ok (.list [])))) ∧
      (nodes ≠ [] →
        (∃ members, (μ.apply .work).HasStarted μ.machine.groups.nextId slice.fiber
          slice.run.context (nodes.take (options.concurrency.limit nodes.length)) members) ∧
        (μ.apply .work).RunsAll μ.machine.groups.nextId slice.fiber slice.run.context nodes
          options) := by
  intro μ slice nodes options starts
  refine ⟨fun nothing => ?_, fun nonempty => ?_⟩
  · subst nothing
    exact starts.work_of_nothing
  have reachable' : Reachable (μ.apply .work) := ((Reachable.initial world budget).run events).apply _
  obtain ⟨members, started, knows, arrivals_iff⟩ := starts.begins world budget events nonempty
  let task := Gathering.task slice.fiber slice.run.context nodes options
  have fresh : task.Fresh := Gathering.fresh_task ..
  have length : task.queue.length = nodes.length := by simp [task, Gathering.task, Machine.numbered]
  refine ⟨⟨members, started⟩, fun later => (arrivals_iff later).1,
    fun later => (arrivals_iff later).2, fun later => ?_, fun later event c i fiber missing row reader => ?_,
    fun later event more failed c => knows.stops reachable' fresh later event more failed, ?_⟩
  · obtain ⟨started', knows'⟩ := knows.later reachable' fresh later
    exact ⟨started', _, length ▸ knows'.standsAll (reachable'.run later)⟩
  · obtain ⟨node, queued, begins⟩ := knows.born reachable' fresh later event missing row reader
    have numbered : (Machine.numbered nodes)[i]? = some (i, node) := queued
    rw [Machine.getElem?_numbered] at numbered
    obtain ⟨node', known, same⟩ := Option.map_eq_some_iff.1 numbered
    obtain rfl : node' = node := (Prod.mk.inj same).2
    exact ⟨node', known, begins⟩
  · exact length ▸ knows.waits reachable' fresh fresh.length.symm

/-- Two effects, one after the other. -/
def oneByOne : Effect Unit :=
  Effect.allNode [Effect.succeed (.bool true), Effect.succeed (.bool false)] (.bounded 1)

/-- The effects are about to begin, and later both children have ended. -/
theorem both_results_are_gathered :
    let μ := (initial { host := () } 100).run [.start oneByOne.node, .work]
    (∃ slice, slice.fiber = ⟨1⟩ ∧
      μ.StartsAll slice [(Effect.succeed (.bool true)).node, (Effect.succeed (.bool false)).node]
        (.bounded 1)) ∧
    ((μ.apply .work).run (List.replicate 10 .work)).Awaits ⟨1⟩ ⟨1⟩ ∧
    ¬ ((μ.apply .work).run (List.replicate 11 .work)).Awaits ⟨1⟩ ⟨1⟩ ∧
    ((μ.apply .work).run (List.replicate 11 .work)).Has ⟨1⟩
      (.ok (.list [.result (.ok (.bool true)), .result (.ok (.bool false))])) := by
  intro μ
  obtain ⟨slice, fiber, starts⟩ : ∃ slice, slice.fiber = ⟨1⟩ ∧
      μ.StartsAll slice [(Effect.succeed (.bool true)).node, (Effect.succeed (.bool false)).node]
        (.bounded 1) := ⟨_, rfl, rfl, rfl, rfl, rfl⟩
  have runs := ((results_are_gathered { host := () } 100 [.start oneByOne.node, .work] slice _ _
    starts).2 (by simp)).2
  rw [fiber] at runs
  have before : ((μ.apply .work).run (List.replicate 10 .work)).Awaits ⟨1⟩ ⟨1⟩ :=
    awaits_iff_core.2 (by decide +kernel)
  have after : ¬ ((μ.apply .work).run (List.replicate 11 .work)).Awaits ⟨1⟩ ⟨1⟩ :=
    mt awaits_iff_core.1 (by decide +kernel)
  refine ⟨⟨slice, fiber, starts⟩, before, after, ?_⟩
  obtain ⟨x, gathered, has⟩ := runs.waits.told (List.replicate 10 .work) .work before after
  have calm : failing .failFast (arrivals ⟨1⟩ (μ.apply .work) (List.replicate 11 .work)) = none := by
    decide +kernel
  have one : slot .failFast (arrivals ⟨1⟩ (μ.apply .work) (List.replicate 11 .work)) 0 =
      some (.ok (.bool true)) := by decide +kernel
  have two : slot .failFast (arrivals ⟨1⟩ (μ.apply .work) (List.replicate 11 .work)) 1 =
      some (.ok (.bool false)) := by decide +kernel
  have gathered' : Gathered .failFast 2
      (arrivals ⟨1⟩ (μ.apply .work) (List.replicate 11 .work)) x := gathered
  generalize arrivals ⟨1⟩ (μ.apply .work) (List.replicate 11 .work) = heard
    at calm one two gathered'
  cases gathered' with
  | failed cause first => cases calm.symm.trans first
  | full results _ length slots =>
      obtain ⟨first, second, rfl⟩ := List.length_eq_two.1 length
      have slot_one : some first = slot .failFast heard 0 := slots 0 Nat.two_pos
      have slot_two : some second = slot .failFast heard 1 := slots 1 Nat.one_lt_two
      obtain rfl := Option.some.inj (slot_one.trans one)
      obtain rfl := Option.some.inj (slot_two.trans two)
      exact has

end Moment

end EffectFibers
