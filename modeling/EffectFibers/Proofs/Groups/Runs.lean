import EffectFibers.Proofs.Answers
import EffectFibers.Proofs.ExitsOnce
import EffectFibers.Proofs.Groups.Arrivals

/-!
# What a group hears in a run

In a run the exits of its members arrive at a group one after the other, in the order in which they
end.  A group hears of each member once.  What becomes of it depends only on these arrivals, and on
whether its parent was interrupted before them.

## Main definitions

* `Arrival`, `Moment.arrivals` – the exits that arrive at a group in a run.
* `Moment.Awaits` – a fiber waits for a group.
* `Moment.Waits` – a fiber gets one result of its group, when the last member has ended.

## Main statements

* `Moment.Reachable.arrivals_iff` – the arrivals are the ends of the members.
* `Moment.Reachable.awaits_iff` – a fiber waits for its group as long as a member lives.
-/

namespace EffectFibers

variable {σ : Type}

/-! ## Truth values among the exits

Values have no decidable equality, but it can be decided which truth value a fiber has ended with. -/

/-- Whether there is a value, and it is the truth value `b`. -/
def isBool {ε : Type} (b : Bool) : Option (Except ε Value) → Bool
  | some (.ok (.bool c)) => c == b
  | _ => false

theorem isBool_iff {ε : Type} {b : Bool} {x : Option (Except ε Value)} :
    isBool b x = true ↔ x = some (.ok (.bool b)) := by
  unfold isBool
  split
  · simp
  · rename_i other
    exact ⟨by simp, fun same => absurd same (other b)⟩

instance {ε : Type} (b : Bool) (x : Option (Except ε Value)) :
    Decidable (x = some (.ok (.bool b))) :=
  decidable_of_iff _ isBool_iff

/-! ## Arrivals -/

/-- The exit of a member has reached its group. -/
structure Arrival where
  child : FiberId
  place : Nat
  exit : Exit
  /-- Whether the parent was interrupted before. -/
  late : Bool

namespace Log

/-- The exits that reach a group, and the fibers that they come from. -/
theorem map_deliveries (log : Log) (g : GroupId) :
    (log.deliveries.filter (·.1 = g)).map (·.2.1) = log.received g := by
  induction log with
  | nil => rfl
  | cons entry log ih =>
      obtain ⟨f, act⟩ := entry
      have head : ((deliveries [(f, act)]).filter (·.1 = g)).map (·.2.1) =
          received [(f, act)] g := by
        cases act with
        | hands reader x =>
            cases reader with
            | group h i =>
                by_cases same : h = g <;>
                  simp [deliveries, received, Act.delivery?, Act.group?, Act.handed?,
                    ExitReader.place, same]
            | _ => simp [deliveries, received, Act.delivery?, Act.group?, Act.handed?,
                ExitReader.place]
        | _ => simp [deliveries, received, Act.delivery?, Act.group?, Act.handed?]
      have split : ∀ log' : Log, received ((f, act) :: log') g =
          received [(f, act)] g ++ received log' g := by
        intro log'
        rw [received, received, received, ← List.map_append, ← List.filter_append]
        rfl
      rw [split, ← ih, ← head, ← List.map_append, ← List.filter_append, ← deliveries_append]
      rfl

theorem mem_deliveries {log : Log} {g : GroupId} {c : FiberId} {i : Nat} {x : Exit} :
    (g, c, i, x) ∈ log.deliveries ↔ (.group g i, x) ∈ (log.on c).filterMap Act.handed? := by
  have act : ∀ act : Act, ∀ f, act.delivery? f = some (g, c, i, x) ↔
      f = c ∧ act.handed? = some (.group g i, x) := by
    intro act f
    cases act with
    | hands reader y =>
        cases reader with
        | group h j =>
            simp only [Act.delivery?, Act.handed?, Option.some.injEq, Prod.mk.injEq,
              ExitReader.group.injEq]
            grind
        | _ => simp [Act.delivery?, Act.handed?]
    | _ => simp [Act.delivery?, Act.handed?]
  simp only [deliveries, List.mem_filterMap, act, on, List.mem_map, List.mem_filter,
    decide_eq_true_eq]
  grind

end Log

namespace Moment

variable {μ : Moment σ} {log : Log} {g : GroupId} {p c : FiberId} {i : Nat} {x : Exit}

/-- Whether the fiber that waits for a group is interrupted. -/
def leaderMarked (μ : Moment σ) (g : GroupId) : Bool :=
  (μ.machine.groups.get? g).any fun group => μ.machine.isInterrupted group.parent

/-- The exits that arrive at a group in an event. -/
def arrivalsAt (μ : Moment σ) (g : GroupId) (event : Event σ) : List Arrival :=
  ((μ.actsAt event).deliveries.filter (·.1 = g)).map fun delivery =>
    ⟨delivery.2.1, delivery.2.2.1, delivery.2.2.2, μ.leaderMarked g⟩

/-- The exits that arrive at a group in a run. -/
def arrivals (g : GroupId) : Moment σ → List (Event σ) → List Arrival
  | _, [] => []
  | μ, event :: events => μ.arrivalsAt g event ++ arrivals g (μ.apply event) events

theorem arrivals_append (g : GroupId) (before after : List (Event σ)) :
    arrivals g μ (before ++ after) = arrivals g μ before ++ arrivals g (μ.run before) after := by
  induction before generalizing μ with
  | nil => rfl
  | cons event before ih => simp [arrivals, ih]

/-- The arrivals are those in the record of a run. -/
theorem map_arrivals (g : GroupId) (events : List (Event σ)) :
    (arrivals g μ events).map (fun a => (g, a.child, a.place, a.exit)) =
      (μ.acts events).deliveries.filter (·.1 = g) := by
  induction events generalizing μ with
  | nil => rfl
  | cons event events ih =>
      have now : (μ.arrivalsAt g event).map (fun a => (g, a.child, a.place, a.exit)) =
          (μ.actsAt event).deliveries.filter (·.1 = g) := by
        rw [arrivalsAt, List.map_map]
        refine (List.map_congr_left fun delivery listed => ?_).trans (List.map_id _)
        have here : delivery.1 = g := by simpa using (List.mem_filter.1 listed).2
        subst here
        rfl
      rw [arrivals, List.map_append, ih, now, acts, Log.deliveries_append, List.filter_append]

/-- A group that has heard of nobody before hears of each member once, when the member ends. -/
theorem Reachable.arrivals_iff (reachable : Reachable μ)
    (ledger : μ.machine.Ledger log fun _ => []) (fresh : log.received g = [])
    (events : List (Event σ)) :
    ((arrivals g μ events).map (·.child)).Nodup ∧
      ∀ c i x, (∃ a ∈ arrivals g μ events, a.child = c ∧ a.place = i ∧ a.exit = x) ↔
        (∃ fiber, (μ.run events).machine.fiber? c = some fiber ∧ fiber.reader = .group g i) ∧
          (μ.run events).EndedWith c x := by
  have ledger' := reachable.ledger_run ledger events
  have reachable' := reachable.run events
  -- nothing of the group was in the record before
  have before : log.deliveries.filter (·.1 = g) = [] := by
    have none := log.map_deliveries g
    rw [fresh] at none
    exact List.map_eq_nil_iff.1 none
  have recorded : (log ++ μ.acts events).deliveries.filter (·.1 = g) =
      (arrivals g μ events).map fun a => (g, a.child, a.place, a.exit) := by
    rw [Log.deliveries_append, List.filter_append, before, List.nil_append, map_arrivals]
  constructor
  · have children : (arrivals g μ events).map (·.child) = (log ++ μ.acts events).received g := by
      rw [← Log.map_deliveries, recorded, List.map_map]
      rfl
    rw [children]
    exact (reachable'.received_iff ledger' g).1
  · intro c i x
    have listed : (∃ a ∈ arrivals g μ events, a.child = c ∧ a.place = i ∧ a.exit = x) ↔
        (g, c, i, x) ∈ (log ++ μ.acts events).deliveries := by
      have here : (g, c, i, x) ∈ (log ++ μ.acts events).deliveries ↔
          (g, c, i, x) ∈ (log ++ μ.acts events).deliveries.filter (·.1 = g) := by simp
      rw [here, recorded, List.mem_map]
      simp
    rw [listed, Log.mem_deliveries]
    cases row : (μ.run events).machine.fiber? c with
    | none =>
        rw [(ledger'.unborn row).1]
        simp
    | some fiber =>
        rw [(reachable'.accounted ledger' row).handed_eq]
        have ends : x ∈ exitsOf (exits (μ.run events).machine.record) c ↔
            (μ.run events).EndedWith c x := by
          constructor
          · intro member
            by_cases gone : fiber.status.isTerminal
            · obtain ⟨y, ended⟩ := reachable'.exists_endedWith row gone
              obtain ⟨-, -, -, one⟩ := id ended
              rw [one, List.mem_singleton] at member
              exact member ▸ ended
            · have family := family_of_isCoherent reachable'.isCoherent
              have none := family.exits_none (f := c) fun k kin => by
                obtain rfl := Option.some.inj ((Table.view_of_row Fiber.kin row).symm.trans kin)
                exact verdict_eq_none_iff.2 (by simpa using gone)
              rw [none] at member
              cases member
          · rintro ⟨-, -, -, one⟩
            rw [one]
            exact List.mem_singleton_self x
        rw [← ends]
        by_cases joined : fiber.reader = .joiner
        · simp [joined]
        · simp only [joined, if_false, List.mem_map, Prod.mk.injEq]
          constructor
          · rintro ⟨y, member, reader, rfl⟩
            exact ⟨⟨fiber, rfl, reader⟩, member⟩
          · rintro ⟨⟨fiber', same, reader⟩, member⟩
            obtain rfl := Option.some.inj same
            exact ⟨x, member, reader, rfl⟩

/-! ## The beginning -/

/-- The worker evaluates a node, if no interrupt is noticed before it. -/
theorem work_of_eval {slice : Slice σ} {node : Node σ} (free : μ.taken = none)
    (running : μ.machine.running = some slice) (next : slice.run.next = .eval node)
    (calm : μ.machine.interruptPending slice.fiber slice.run = false) :
    let scope := ((μ.machine.fiber? slice.fiber).map (·.scope)).getD .none
    let result := Machine.evalNode { μ.machine with running := none } slice.fiber scope slice.run node
    μ.apply .work = { machine := result.machine
                      taken := some ({ slice with run := result.run }, result.control) } := by
  have quiet : Machine.interruptPending { μ.machine with running := none } slice.fiber slice.run =
      false := calm
  simp only [apply, Moment.work, free, running, Machine.takeStep, Machine.stepRun, next,
    Machine.eval, quiet, Bool.and_false, Bool.false_eq_true, if_false]
  rfl

/-- A group has just begun: it has one member for each of some nodes, in order, and each is a new
fiber that is about to evaluate its node. -/
structure HasStarted (ν : Moment σ) (g : GroupId) (p : FiberId) (context : Context Value)
    (nodes : List (Node σ)) (members : List FiberId) : Prop where
  length : members.length = nodes.length
  starts : ∀ i node, nodes[i]? = some node → ∃ c fiber, members[i]? = some c ∧
    ν.machine.fiber? c = some fiber ∧ fiber.Starts p g i node context

/-- A group that has just begun has heard of nobody. -/
theorem HasStarted.unheard {ν : Moment σ} {context : Context Value} {nodes : List (Node σ)}
    {members : List FiberId} (started : ν.HasStarted g p context nodes members)
    (reachable : Reachable ν) (ledger : ν.machine.Ledger log fun _ => [])
    (all : ∀ c, ν.machine.Member g c → c ∈ members) : log.received g = [] := by
  refine List.eq_nil_iff_forall_not_mem.2 fun c heard => ?_
  obtain ⟨member, gone⟩ := ((reachable.received_iff ledger g).2 c).1 heard
  obtain ⟨i, there⟩ := List.mem_iff_getElem?.1 (all c member)
  obtain ⟨inside, -⟩ := List.getElem?_eq_some_iff.1 there
  obtain ⟨d, fiber, there', row, begins⟩ := started.starts i _
    (List.getElem?_eq_getElem (started.length ▸ inside))
  obtain rfl := Option.some.inj (there.symm.trans there')
  rw [Coherent.status_of_row row, begins.status] at gone
  cases gone

/-! ## Waiting for a group -/

/-- A fiber waits for a group: it sleeps on it, or is about to. -/
def Awaits (μ : Moment σ) (p : FiberId) (g : GroupId) : Prop :=
  (∃ fiber, μ.machine.fiber? p = some fiber ∧ fiber.pending = some (.group g)) ∨
    ∃ slice, μ.taken = some (slice, .suspend (.group g)) ∧ slice.fiber = p

theorem awaits_iff_core : μ.Awaits p g ↔
    μ.machine.core.awaits p = some g ∨ (μ.held = some p ∧ μ.opening = some g) := by
  have asleep : (∃ fiber, μ.machine.fiber? p = some fiber ∧ fiber.pending = some (.group g)) ↔
      μ.machine.core.awaits p = some g := by
    constructor
    · rintro ⟨fiber, row, pending⟩
      exact (Table.find_of_row _ row).trans (by simp [Fiber.awaits, pending, Pending.group?])
    · exact Coherent.row_of_awaits
  have about : (∃ slice, μ.taken = some (slice, .suspend (.group g)) ∧ slice.fiber = p) ↔
      μ.held = some p ∧ μ.opening = some g := by
    unfold opening focus Control.focus held
    cases μ.taken with
    | none => simp
    | some step =>
        obtain ⟨slice, control⟩ := step
        dsimp only
        cases control with
        | suspend pending => cases pending <;> simp [and_comm]
        | _ => simp
  rw [Awaits, asleep, about]

/-- A fiber waits for its group as long as a member lives. -/
theorem Reachable.awaits_iff (reachable : Reachable μ) {group : Group σ}
    (row : μ.machine.groups.get? g = some group) :
    μ.Awaits group.parent g ↔
      ∃ c, μ.machine.Member g c ∧ (μ.machine.status c).isTerminal = false := by
  have seating := seating_of_isCoherent reachable.isCoherent
  have lives : (∃ c, μ.machine.Member g c ∧ (μ.machine.status c).isTerminal = false) ↔
      Occupied μ.machine.core.place μ.machine.core.live g := by
    constructor
    · rintro ⟨c, member, live⟩
      obtain ⟨fiber, -, row, -⟩ := id member
      obtain ⟨i, placed⟩ := Machine.member_iff.1 member
      refine ⟨c, i, placed, (Table.view_of_row _ row).trans ?_⟩
      rw [Coherent.status_of_row row] at live
      simp [Fiber.live, live]
    · rintro ⟨c, i, placed, live⟩
      have member := Machine.member_iff.2 ⟨i, placed⟩
      obtain ⟨fiber, -, row, -⟩ := id member
      refine ⟨c, member, ?_⟩
      rw [Coherent.status_of_row row]
      have live' : fiber.live = true :=
        Option.some.inj ((Table.view_of_row Fiber.live row).symm.trans live)
      simpa [Fiber.live] using live'
  rw [lives, awaits_iff_core]
  constructor
  · rintro (asleep | ⟨-, opening⟩)
    · exact seating.awaits_member asleep (by simp)
    · exact seating.opening_member opening (by simp)
  · rintro ⟨c, i, placed, live⟩
    exact seating.awaited placed (.inl live) row

/-- A fiber that waits for a group has no answer. -/
theorem Reachable.unanswered (reachable : Reachable μ) (waits : μ.Awaits p g) :
    μ.answer? p = none := by
  rcases waits with ⟨fiber, row, pending⟩ | ⟨slice, taken, rfl⟩
  · have shaped := reachable.isCoherent.shaped row
    have suspended := shaped.asleep.2 (by rw [pending]; rfl)
    rw [answer?, row]
    exact (shaped.parked suspended).2
  · have held : μ.held = some slice.fiber := by simp [Moment.held, taken]
    have silent : μ.asking = none := by simp [asking, focus, Control.focus, taken]
    by_contra answered
    exact (waiting_of_isCoherent reachable.isCoherent).held_input held answered silent

/-- A fiber that has started a group waits for it as long as a member lives.  Until then it has no
answer.  When the last member has ended it gets a result, which depends on what the group has
heard, and after that it gets no other one. -/
structure Waits (ν : Moment σ) (g : GroupId) (p : FiberId) (result : List Arrival → Exit → Prop) :
    Prop where
  lives : ∀ later, (ν.run later).Awaits p g ↔ ∃ c, (ν.run later).machine.Member g c ∧
    ((ν.run later).machine.status c).isTerminal = false
  unanswered : ∀ later, (ν.run later).Awaits p g → (ν.run later).answer? p = none
  told : ∀ later event, (ν.run later).Awaits p g → ¬ (ν.run (later ++ [event])).Awaits p g →
    ∃ x, result (arrivals g ν (later ++ [event])) x ∧ (ν.run (later ++ [event])).Has p x
  told_once : ∀ later more, ¬ (ν.run later).Awaits p g → ¬ (ν.run (later ++ more)).Awaits p g

end Moment

end EffectFibers
