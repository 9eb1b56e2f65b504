import EffectFibers.Effect.Concurrent
import EffectFibers.Proofs.Groups.Exits
import EffectFibers.Proofs.Groups.Runs

/-!
# Races

All runners of a race are there before any of them takes a step.  The first one that ends decides:
in that very moment all of them are interrupted, the winner along with the others, and what the
others end with later changes nothing.  The fiber that has started the race waits until the last of
them has ended, and then it gets the exit of the first.

## Main definitions

* `Race.hears` – what a race knows after some exits.
* `Moment.StartsRace` – a race has just begun.
* `Moment.RunsRace` – how it stands after a while.

## Main statements

* `Moment.first_exit_decides_the_race` – every race, in every run.
-/

namespace EffectFibers

variable {σ : Type}

/-- What a race knows after the exits of some of its members. -/
def Race.hears (race : Race) (exits : List Exit) : Race :=
  { race with
    remaining := race.remaining - exits.length
    winner := race.winner.or exits.head? }

@[simp] theorem Race.hears_nil (race : Race) : race.hears [] = race := by simp [hears]

theorem Race.hears_append (race : Race) (first later : List Exit) :
    (race.hears first).hears later = race.hears (first ++ later) := by
  have fewer : race.remaining - first.length - later.length =
      race.remaining - (first.length + later.length) := by omega
  have winner : (race.winner.or first.head?).or later.head? =
      race.winner.or (first ++ later).head? := by
    cases first <;> cases race.winner <;> simp
  simp only [hears, List.length_append, fewer, winner]

namespace Moment

variable {μ : Moment σ} {g : GroupId} {p c : FiberId} {race : Race} {slice : Slice σ}
  {nodes : List (Node σ)}

/-! ## One event -/

/-- A race is known, and once it is decided all its members are marked. -/
structure KnowsRace (μ : Moment σ) (g : GroupId) (race : Race) : Prop where
  row : μ.machine.groups.get? g = some (.race race)
  marked : race.winner ≠ none → ∀ c ∈ race.members, μ.machine.isInterrupted c = true

/-- In an event the exit of at most one member arrives.  The race takes note of it, and after the
last one its parent gets the first. -/
theorem Reachable.knowsRace_apply (reachable : Reachable μ) (knows : μ.KnowsRace g race)
    (event : Event σ) :
    (μ.apply event).KnowsRace g (race.hears ((μ.arrivalsAt g event).map (·.exit))) ∧
      (μ.arrivalsAt g event ≠ [] → (race.hears ((μ.arrivalsAt g event).map (·.exit))).remaining = 0 →
        (μ.apply event).answer? race.parent =
          (race.hears ((μ.arrivalsAt g event).map (·.exit))).winner) := by
  have marks : ∀ c, μ.machine.isInterrupted c = true →
      (μ.apply event).machine.isInterrupted c = true := fun c marked =>
    reachable.stays_marked marked [event]
  have unheard : (μ.apply event).machine.groups.get? g = some (.race race) →
      (μ.apply event).KnowsRace g race := fun row =>
    ⟨row, fun decided c listed => marks c (knows.marked decided c listed)⟩
  cases reachable.delivers event with
  | nobody quiet kept =>
      have nothing : μ.arrivalsAt g event = [] := by
        rw [arrivalsAt, quiet]
        rfl
      rw [nothing, List.map_nil, Race.hears_nil]
      exact ⟨unheard (kept knows.row), fun some => absurd rfl some⟩
  | @member h c i x n delivered arrives tells =>
      have row : n.groups.get? g = some (.race race) := by
        rw [arrives.steady.groups]
        exact knows.row
      by_cases same : h = g
      · subst same
        have arrival : μ.arrivalsAt h event = [⟨c, i, x, μ.leaderMarked h⟩] := by
          rw [arrivalsAt, delivered]
          simp
        obtain ⟨row', marked, told⟩ := Machine.raced arrives.coherent arrives.placed row x
        have hears : race.hears [x] = { race with
            remaining := race.remaining - 1, winner := some (race.winner.getD x) } := by
          cases won : race.winner <;> simp [Race.hears, won]
        rw [arrival, List.map_singleton, hears]
        refine ⟨⟨?_, fun _ d listed => ?_⟩, fun _ last => ?_⟩
        · rw [tells.steady.groups]
          exact row'
        · cases won : race.winner with
          | some y => exact marks d (knows.marked (by simp [won]) d listed)
          | none =>
              rw [tells.steady.marks]
              refine marked won d listed ?_
              obtain ⟨j, placed⟩ := (arrives.coherent.seating.race row (by simp)).placed listed
              obtain ⟨fiber, known, -⟩ := Table.exists_row_of_find placed
              exact Option.isSome_iff_exists.2 ⟨fiber, known⟩
        · exact tells.inputs (told last)
      · have nothing : μ.arrivalsAt g event = [] := by
          rw [arrivalsAt, delivered]
          simp [same]
        rw [nothing, List.map_nil, Race.hears_nil]
        refine ⟨unheard ?_, fun some => absurd rfl some⟩
        rw [tells.steady.groups, Machine.groups_memberExit_of_ne same]
        exact row

/-- In a run a race takes note of all exits that arrive. -/
theorem Reachable.knowsRace_run (reachable : Reachable μ) (knows : μ.KnowsRace g race)
    (events : List (Event σ)) :
    (μ.run events).KnowsRace g (race.hears ((arrivals g μ events).map (·.exit))) := by
  induction events generalizing μ race with
  | nil =>
      rw [arrivals, List.map_nil, Race.hears_nil]
      exact knows
  | cons event events ih =>
      have rest := ih (reachable.apply event) (reachable.knowsRace_apply knows event).1
      rw [Race.hears_append, ← List.map_append] at rest
      exact rest

/-! ## The beginning -/

/-- The worker is about to start a race of some nodes. -/
structure StartsRace (μ : Moment σ) (slice : Slice σ) (nodes : List (Node σ)) : Prop where
  free : μ.taken = none
  running : μ.machine.running = some slice
  next : slice.run.next = .eval (.race nodes)
  nonempty : nodes ≠ []
  calm : μ.machine.interruptPending slice.fiber slice.run = false

theorem StartsRace.work (starts : μ.StartsRace slice nodes) : (μ.apply .work).machine =
    ({ μ.machine with running := none }.startRace slice.fiber slice.run.context nodes).2 := by
  rw [work_of_eval starts.free starts.running starts.next starts.calm, Machine.evalNode,
    Machine.evalRace, if_neg (by simpa using starts.nonempty)]

theorem StartsRace.hasStarted (reachable : Reachable μ) (starts : μ.StartsRace slice nodes) :
    ∃ members, (μ.apply .work).HasStarted μ.machine.groups.nextId slice.fiber slice.run.context
        nodes members ∧
      (μ.apply .work).KnowsRace μ.machine.groups.nextId
        { parent := slice.fiber, members, remaining := nodes.length } := by
  let race : Race := { parent := slice.fiber, members := [], remaining := nodes.length }
  let m : Machine σ := { μ.machine with running := none }
  let opened : Machine σ := { m with groups := m.groups.push (.race race) }
  let started := opened.spawnMembers slice.fiber slice.run.context m.groups.nextId
    (Machine.numbered nodes)
  let members := started.1.map (·.2)
  have machine : (μ.apply .work).machine =
      (started.2.setGroup m.groups.nextId (.race { race with members })).enqueueAll members :=
    starts.work
  have fibers : ∀ c, (μ.apply .work).machine.fiber? c = started.2.fiber? c := fun c => by
    rw [Machine.fiber?, machine, Machine.fibers_enqueueAll]
    rfl
  have made : started.1 = Machine.newMembers m.fibers.size (Machine.numbered nodes) :=
    Machine.spawnMembers_fst ..
  have listed : ∀ i, members[i]? = nodes[i]?.map fun _ => (⟨m.fibers.size + 1 + i⟩ : FiberId) := by
    intro i
    show (started.1.map (·.2))[i]? = _
    rw [made, List.getElem?_map, Machine.getElem?_newMembers, Machine.getElem?_numbered]
    cases nodes[i]? <;> rfl
  have held : μ.held = some slice.fiber := by simp [Moment.held, starts.free, starts.running]
  obtain ⟨parent, row, -⟩ := Table.exists_row_of_view
    ((agenda_of_isCoherent reachable.isCoherent).held_works held)
  refine ⟨members, ⟨?_, fun i node known => ?_⟩, ?_, fun decided => absurd rfl decided⟩
  · have bound : ∀ k, members.length ≤ k ↔ nodes.length ≤ k := fun k => by
      rw [← List.getElem?_eq_none_iff, listed, Option.map_eq_none_iff, List.getElem?_eq_none_iff]
    exact Nat.le_antisymm ((bound _).2 (Nat.le_refl _)) ((bound _).1 (Nat.le_refl _))
  · have known' : (Machine.numbered nodes)[i]? = some (i, node) := by
      rw [Machine.getElem?_numbered, known]
      rfl
    have there : (opened.fiber? slice.fiber).isSome := Option.isSome_iff_exists.2 ⟨parent, row⟩
    obtain ⟨child, born, starts, -⟩ : ∃ child,
        started.2.fiber? ⟨m.fibers.size + 1 + i⟩ = some child ∧
          child.Starts slice.fiber m.groups.nextId i node slice.run.context ∧ _ :=
      Machine.fiber?_spawnMembers there known'
    exact ⟨_, child, by rw [listed, known]; rfl, (fibers _).trans born, starts⟩
  · have row : started.2.groups.get? m.groups.nextId = some (.race race) := by
      rw [(opened.spares_spawnMembers _ _ _ _).groups]
      exact Table.get?_push_self ..
    rw [machine, (Machine.spares_enqueueAll _ _).groups]
    have written : (started.2.setGroup m.groups.nextId (.race { race with members })).groups.get?
        m.groups.nextId = some (.race { race with members }) := by
      rw [Machine.setGroup, Table.get?_modify, if_pos rfl, row]
      rfl
    exact written

/-! ## While it runs -/

/-- Somebody waits for a race as long as an exit is still to come. -/
theorem Reachable.awaits_race_iff (reachable : Reachable μ)
    (row : μ.machine.groups.get? g = some (.race race)) :
    μ.Awaits race.parent g ↔ race.remaining ≠ 0 := by
  have seated := (seating_of_isCoherent reachable.isCoherent).race row nofun
  refine (reachable.awaits_iff row).trans ?_
  constructor
  · rintro ⟨c, member, live⟩ none
    obtain ⟨i, placed⟩ := Machine.member_iff.1 member
    obtain ⟨fiber, -, row', -⟩ := member
    rw [Coherent.status_of_row row'] at live
    refine seated.deserted none placed ?_
    exact (Table.view_of_row _ row').trans (by simp [Fiber.live, live])
  · intro some
    obtain ⟨c, i, placed, live⟩ := seated.occupied some
    have member := Machine.member_iff.2 ⟨i, placed⟩
    obtain ⟨fiber, -, row', -⟩ := id member
    refine ⟨c, member, ?_⟩
    have live' : fiber.live = true :=
      Option.some.inj ((Table.view_of_row Fiber.live row').symm.trans live)
    rw [Coherent.status_of_row row']
    simpa [Fiber.live] using live'

/-- A race in any later moment.  Its members are those that it has begun with, and it hears of each
of them once. -/
structure RunsRace (ν : Moment σ) (g : GroupId) (p : FiberId) (members : List FiberId) : Prop where
  once : ∀ later, ((arrivals g ν later).map (·.child)).Nodup
  ends : ∀ later c x, (∃ a ∈ arrivals g ν later, a.child = c ∧ a.exit = x) ↔
    c ∈ members ∧ (ν.run later).EndedWith c x
  /-- From the first exit on all members are interrupted. -/
  marked : ∀ later, arrivals g ν later ≠ [] →
    ∀ c ∈ members, (ν.run later).machine.isInterrupted c = true
  /-- The first exit stays the first one. -/
  decided : ∀ later more first, (arrivals g ν later).head? = some first →
    (arrivals g ν (later ++ more)).head? = some first
  waits : ν.Waits g p fun heard x => heard.head?.map (·.exit) = some x

/-- The race has been decided by the first exit that it has heard of. -/
theorem Reachable.waits_of_race {ν : Moment σ} (reachable : Reachable ν)
    (knows : ν.KnowsRace g race) (fresh : race.winner = none) :
    ν.Waits g race.parent fun heard x => heard.head?.map (·.exit) = some x := by
  have known := fun later => reachable.knowsRace_run knows later
  have awaits : ∀ later, (ν.run later).Awaits race.parent g ↔
      (race.hears ((arrivals g ν later).map (·.exit))).remaining ≠ 0 :=
    fun later => (reachable.run later).awaits_race_iff (known later).row
  refine ⟨fun later => (reachable.run later).awaits_iff (known later).row,
    fun later => (reachable.run later).unanswered, fun later event before after => ?_,
    fun later more finished => ?_⟩
  · rw [awaits] at before after
    have step := ((reachable.run later).knowsRace_apply (known later) event).2
    have heard : arrivals g ν (later ++ [event]) =
        arrivals g ν later ++ (ν.run later).arrivalsAt g event := by
      rw [arrivals_append, arrivals, arrivals, List.append_nil]
    rw [Race.hears_append, ← List.map_append, ← heard] at step
    have some : (ν.run later).arrivalsAt g event ≠ [] := by
      intro nothing
      rw [heard, nothing, List.append_nil] at after
      exact after before
    have answered := step some (not_not.1 after)
    -- something was heard, so there is a first exit
    obtain ⟨first, rest, list⟩ : ∃ first rest, arrivals g ν (later ++ [event]) = first :: rest := by
      refine List.exists_cons_of_ne_nil ?_
      rw [heard]
      exact List.append_ne_nil_of_right_ne_nil _ some
    refine ⟨first.exit, by rw [list]; rfl, ?_⟩
    rw [run_append]
    refine ((reachable.run later).apply event).has (answered.trans ?_)
    rw [list, Race.hears, fresh]
    rfl
  · rw [awaits] at finished ⊢
    rw [arrivals_append]
    simp only [Race.hears, List.map_append, List.length_append] at finished ⊢
    omega

theorem Reachable.runsRace {ν : Moment σ} (reachable : Reachable ν) {log : Log}
    (ledger : ν.machine.Ledger log fun _ => []) (unheard : log.received g = [])
    (knows : ν.KnowsRace g race) (fresh : race.winner = none) :
    ν.RunsRace g race.parent race.members := by
  have known := fun later => reachable.knowsRace_run knows later
  have arrivals_iff := fun later => reachable.arrivals_iff ledger unheard later
  refine ⟨fun later => (arrivals_iff later).1, fun later c x => ?_, fun later some => ?_,
    fun later more first heard => ?_, reachable.waits_of_race knows fresh⟩
  · have members := ((reachable.run later).race_count (reachable.ledger_run ledger later)
      (known later).row).2.1
    have member : c ∈ race.members ↔ (ν.run later).machine.Member g c := members c
    rw [member]
    constructor
    · rintro ⟨a, listed, child, exit⟩
      obtain ⟨⟨fiber, row, reader⟩, ended⟩ := ((arrivals_iff later).2 c a.place x).1
        ⟨a, listed, child, rfl, exit⟩
      exact ⟨⟨fiber, a.place, row, reader⟩, ended⟩
    · rintro ⟨⟨fiber, i, row, reader⟩, ended⟩
      obtain ⟨a, listed, child, -, exit⟩ := ((arrivals_iff later).2 c i x).2
        ⟨⟨fiber, row, reader⟩, ended⟩
      exact ⟨a, listed, child, exit⟩
  · obtain ⟨first, rest, list⟩ := List.exists_cons_of_ne_nil some
    refine (known later).marked ?_
    rw [list, Race.hears, fresh]
    exact nofun
  · rw [arrivals_append, List.head?_append, heard]
    rfl

/-! ## Every run -/

/-- In every run, when a race begins all its members are there at once.  The first one that ends
decides the race: from then on all members are interrupted, and no exit that comes later matters.
The fiber that has started the race waits until every member has ended; then it gets the exit of
the first, once. -/
theorem first_exit_decides_the_race (world : World σ) (budget : Nat) (events : List (Event σ)) :
    let μ := (initial world budget).run events
    ∀ slice nodes, μ.StartsRace slice nodes → ∃ members,
      (μ.apply .work).HasStarted μ.machine.groups.nextId slice.fiber slice.run.context nodes
        members ∧
      (μ.apply .work).RunsRace μ.machine.groups.nextId slice.fiber members := by
  intro μ slice nodes starts
  have reachable : Reachable μ := (Reachable.initial world budget).run events
  have ledger : (μ.apply .work).machine.Ledger
      ((initial world budget).acts events ++ μ.actsAt .work) fun _ => [] := by
    have run := (Reachable.initial world budget).ledger_run (ledger_initial world budget) events
    exact reachable.ledger_apply run .work
  obtain ⟨members, started, knows⟩ := starts.hasStarted reachable
  have listed := ((reachable.apply .work).race_count ledger knows.row).2.1
  have unheard := started.unheard (reachable.apply .work) ledger fun c => (listed c).2
  exact ⟨members, started, (reachable.apply .work).runsRace ledger unheard knows rfl⟩

/-- A race between an effect that is soon done and one that never is. -/
def racesOn : Effect Unit := (Effect.succeed (.bool true)).race Effect.never

/-- The race is about to begin, and later both members have ended. -/
theorem race_gives_the_first_exit :
    let μ := (initial { host := () } 100).run [.start racesOn.node, .work]
    (∃ slice, slice.fiber = ⟨1⟩ ∧
      μ.StartsRace slice [(Effect.succeed (.bool true)).node, Effect.never.node] ∧
      ∃ members, (μ.apply .work).RunsRace ⟨1⟩ ⟨1⟩ members) ∧
    ((μ.apply .work).run (List.replicate 10 .work)).Awaits ⟨1⟩ ⟨1⟩ ∧
    ¬ ((μ.apply .work).run (List.replicate 11 .work)).Awaits ⟨1⟩ ⟨1⟩ ∧
    ((μ.apply .work).run (List.replicate 11 .work)).Has ⟨1⟩ (.ok (.bool true)) := by
  intro μ
  obtain ⟨slice, fiber, starts⟩ : ∃ slice, slice.fiber = ⟨1⟩ ∧
      μ.StartsRace slice [(Effect.succeed (.bool true)).node, Effect.never.node] :=
    ⟨_, rfl, rfl, rfl, rfl, by simp, rfl⟩
  obtain ⟨members, -, runs⟩ := first_exit_decides_the_race { host := () } 100
    [.start racesOn.node, .work] slice _ starts
  have runs' : (μ.apply .work).RunsRace ⟨1⟩ ⟨1⟩ members := fiber ▸ runs
  have before : ((μ.apply .work).run (List.replicate 10 .work)).Awaits ⟨1⟩ ⟨1⟩ :=
    awaits_iff_core.2 (by decide +kernel)
  have after : ¬ ((μ.apply .work).run (List.replicate 11 .work)).Awaits ⟨1⟩ ⟨1⟩ :=
    mt awaits_iff_core.1 (by decide +kernel)
  refine ⟨⟨slice, fiber, starts, members, runs'⟩, before, after, ?_⟩
  obtain ⟨x, first, has⟩ := runs'.waits.told (List.replicate 10 .work) .work before after
  have winner : (arrivals ⟨1⟩ (μ.apply .work) (List.replicate 11 .work)).head?.map (·.exit) =
      some (.ok (.bool true)) := by decide +kernel
  obtain rfl : _ = x := Option.some.inj (winner.symm.trans first)
  exact has

end Moment

end EffectFibers
