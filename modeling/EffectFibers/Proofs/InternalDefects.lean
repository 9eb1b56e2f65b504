import EffectFibers.Proofs.Groups.Exits
import EffectFibers.Proofs.Layers.Builds
import EffectFibers.Proofs.Layers.Steps
import EffectFibers.Proofs.Tickets.Programs
import EffectFibers.Proofs.Tickets.Steps

/-!
# Nothing that is good once is used twice

Four defects say that the machine itself is at fault, and not a program: a tree that can be evaluated
once is evaluated again, a continuation that can be called once is called again, the build of a layer
ends on a frame without layers, and many effects at once are over before each of them has a result.
In each of these places there is always something better to do, however programs are put together
from the constructors and combinators, however often they are run, and whatever fails, panics or is
interrupted.

At every moment each fiber has, at the places of its stack, the tickets that its program bears.  A
step of a fiber keeps this by what one step keeps, and any other event moves programs without a
step.  A program that is started in an event bears no ticket, so nobody has to have one for it, and
it may be started as often as one likes.

## Main definitions

* `Moment.Thrifty` – at a moment, all fibers have the tickets that their programs bear.
* `Moment.KeepsCount` – what is done in the four places.

## Main statements

* `Moment.Reachable.thrifty_run` – a sequence of events keeps the tickets that programs bear.
* `Moment.internal_defects_are_unreachable` – what is done in the four places, at every moment of
  every run.
-/

namespace EffectFibers

variable {σ : Type}

/-! ## Tickets in a run -/

/-- The fibers have the tickets that their programs bear, and what the machine keeps for later bears
none. -/
structure Moment.Thrifty (holdings : Holdings) (μ : Moment σ) : Prop where
  machine : μ.machine.Thrifty holdings fun f => (μ.machine.fiber? f).isSome
  held : ∀ f p, μ.position? f = some p → p.Held (holdings.of f)

/-- A program that is started bears no ticket. -/
def Event.Reusable : Event σ → Prop
  | .start node => node.Bears none
  | _ => True

namespace Moment

variable {μ : Moment σ} {holdings : Holdings} {event : Event σ} {f : FiberId} {t : Stride σ}

/-- A fiber that takes a step has the tickets that its program bears. -/
theorem Reachable.held_of_stride (reachable : Reachable μ) (thrifty : μ.Thrifty holdings)
    (stride : μ.strideAt f event = some t) :
    t.machine.Thrifty holdings (fun f => (μ.machine.fiber? f).isSome) ∧
      t.slice.run.Held (holdings.of t.slice.fiber) := by
  obtain ⟨own, ready, -⟩ := reachable.stride stride
  rw [(machine_of_stride stride).1, own]
  exact ⟨thrifty.machine.congr rfl rfl rfl, thrifty.held f _ ready⟩

/-- An event in which no fiber takes a step. -/
theorem Reachable.thrifty_still (reachable : Reachable μ) (thrifty : μ.Thrifty holdings)
    (reusable : event.Reusable) (still : ∀ f, μ.strideAt f event = none) :
    (μ.apply event).machine.Thrifty holdings fun f => (μ.machine.fiber? f).isSome := by
  refine reachable.law_still Machine.thrifty_law thrifty.machine
    (fun f run pending answer position => (thrifty.held f _ position).2) (fun node starts => ?_)
    (fun host => thrifty.machine.setWorld (thrifty.machine.honours.of_same ⟨rfl, rfl⟩)) still
  subst starts
  exact Machine.thrifty_startRoot thrifty.machine reusable

/-- In an event tickets change hands only where a step is taken, and the fiber that has taken it has
the tickets that are borne afterwards. -/
theorem Reachable.holdings_apply (reachable : Reachable μ) (thrifty : μ.Thrifty holdings)
    (reusable : event.Reusable) : ∃ later : Holdings,
      (μ.apply event).machine.Thrifty later (fun f => (μ.machine.fiber? f).isSome) ∧
      (∀ f, μ.strideAt f event = none → later.of f = holdings.of f) ∧
      ∀ f t, μ.strideAt f event = some t → t.result.control.Held (later.of f) t.result.run := by
  by_cases stepped : ∃ f t, μ.strideAt f event = some t
  · obtain ⟨f, t, stride⟩ := stepped
    obtain ⟨rfl, -⟩ := reachable.stride stride
    obtain ⟨thrifty', held⟩ := reachable.held_of_stride thrifty stride
    obtain ⟨later, others, after, borne⟩ := Machine.thrifty_stepRun (s := t.scope) thrifty' held
    refine ⟨later, (machine_of_stride stride).2 ▸ after, fun g still => others g ?_,
      fun g u other => ?_⟩
    · rintro rfl
      cases still.symm.trans stride
    · obtain ⟨rfl, rfl⟩ := stride_unique stride other
      exact borne
  · have still : ∀ f, μ.strideAt f event = none := fun f =>
      Option.eq_none_iff_forall_ne_some.2 fun t stride => stepped ⟨f, t, stride⟩
    exact ⟨holdings, reachable.thrifty_still thrifty reusable still, fun _ _ => rfl,
      fun f t stride => by cases (still f).symm.trans stride⟩

/-- After an event the fibers have the tickets that their programs bear. -/
theorem Reachable.thrifty_apply (reachable : Reachable μ) (thrifty : μ.Thrifty holdings)
    (reusable : event.Reusable) : ∃ later, (μ.apply event).Thrifty later := by
  obtain ⟨later, machine, others, stepped⟩ := reachable.holdings_apply thrifty reusable
  refine ⟨later, ⟨machine.honours, ⟨machine.rows.tame, fun f fiber run new row saved => ?_⟩,
    machine.sound⟩, fun f p position => ?_⟩
  · exact absurd (Option.isSome_iff_exists.2 ⟨fiber, row⟩) new
  cases reachable.comes position with
  | @born fiber _ _ missing row saved =>
      obtain ⟨node, context, same, bears⟩ := machine.rows.starts f fiber _ (by simp [missing]) row saved
      cases same
      exact ⟨trivial, Node.held_of_bears bears⟩
  | moved stood still moves =>
      rw [others f still]
      exact (thrifty.held f _ stood).moves moves
  | stepped stride => exact stepped f _ stride

/-- In a machine without fibers nobody has a ticket. -/
theorem thrifty_initial (world : World σ) (budget : Nat) :
    (initial world budget).Thrifty fun _ => none := by
  have nobody : ∀ f fiber, (initial world budget).machine.fiber? f ≠ some fiber :=
    fun f fiber row => by cases (Table.get?_empty _).symm.trans row
  refine ⟨⟨.of_nobody _, ⟨fun f fiber _ row => ?_, fun f fiber _ _ row => ?_⟩,
    fun g all row => ?_⟩, fun f p position => ?_⟩
  · exact absurd row (nobody f fiber)
  · exact absurd row (nobody f fiber)
  · cases (Table.get?_empty _).symm.trans row
  · cases position?_initial.symm.trans position

/-- Whatever happens, all fibers have the tickets that their programs bear. -/
theorem Reachable.thrifty_run (reachable : Reachable μ) (thrifty : μ.Thrifty holdings)
    {events : List (Event σ)} (reusable : ∀ event ∈ events, event.Reusable) :
    ∃ later, (μ.run events).Thrifty later := by
  induction events generalizing μ holdings with
  | nil => exact ⟨holdings, thrifty⟩
  | cons event events ih =>
      obtain ⟨later, thrifty'⟩ := reachable.thrifty_apply thrifty (reusable event List.mem_cons_self)
      exact ih (reachable.apply event) thrifty' fun event listed =>
        reusable event (List.mem_cons_of_mem _ listed)

end Moment

/-! ## The four places -/

namespace Moment

/-- What is done at a moment where the machine would be at fault otherwise. -/
structure KeepsCount (μ : Moment σ) : Prop where
  /-- A tree that can be evaluated once ends with its exit; it has not been evaluated before. -/
  evaluated : ∀ f event t ticket x, μ.strideAt f event = some t →
    t.slice.run.next = .eval (.once ticket x) → t.result.control = .done x
  /-- A continuation that can be called once hands its value on; it has not been called before. -/
  resumed : ∀ f event t ticket v below u, μ.strideAt f event = some t →
    t.Hands (.flatMap (Effect.handOver ticket v) :: below) (.ok u) →
    ∃ fresh, t.result.control = .eval (.once fresh (.ok v))
  /-- When a build ends, its frame has the layer that was built. -/
  built : ∀ f event t build below x, μ.strideAt f event = some t →
    t.Hands (.layers build :: below) x → build.owning = true →
    ∃ layer rest, build.todo = layer :: rest ∧
      t.result = t.machine.endBuild f t.scope
        { t.slice.run with stack := below, context := build.outer } { build with owning := false }
        layer rest x
  /-- When the exit of the last child reaches many effects at once, their parent gets the first
  failure or a result for each of them; no child has ended without a result. -/
  gathered : ∀ g all event c i x, μ.machine.groups.get? g = some (.all all) →
    (g, c, i, x) ∈ (μ.actsAt event).deliveries →
    let settled := (all.settle i x (μ.machine.isInterrupted all.parent)).2
    settled.isDone = true →
      (μ.apply event).answer? all.parent = some settled.outcome ∧ settled.Conclusive

variable {μ : Moment σ} {holdings : Holdings} {event : Event σ} {f : FiberId} {t : Stride σ}

/-! ## Tickets -/

theorem Reachable.ends_of_once (reachable : Reachable μ) (thrifty : μ.Thrifty holdings)
    (stride : μ.strideAt f event = some t) {ticket : Ticket} {x : Exit}
    (evaluates : t.slice.run.next = .eval (.once ticket x)) : t.result.control = .done x := by
  obtain ⟨thrifty', held⟩ := reachable.held_of_stride thrifty stride
  have borne : (Node.once ticket x : Node σ).Held _ := evaluates ▸ held.next
  obtain ⟨_, bears, has⟩ := borne
  have good := thrifty'.honours.unused _ ticket (has ticket bears)
  rw [Stride.result, Machine.stepRun_eval evaluates]
  exact congrArg StepResult.control
    (Machine.evalNode_once (f := t.slice.fiber) (s := t.scope) good x)

theorem Reachable.hands_on_of_handOver (reachable : Reachable μ) (thrifty : μ.Thrifty holdings)
    (stride : μ.strideAt f event = some t) {ticket : Ticket} {v u : Value} {below : List (Frame σ)}
    (hands : t.Hands (.flatMap (Effect.handOver ticket v) :: below) (.ok u)) :
    ∃ fresh, t.result.control = .eval (.once fresh (.ok v)) := by
  obtain ⟨thrifty', held⟩ := reachable.held_of_stride thrifty stride
  obtain ⟨next, stack⟩ := hands
  have frames := held.stack
  rw [stack] at frames
  obtain ⟨borne, bears, has⟩ := frames.1
  obtain rfl := Continues.of_handOver bears t.machine.world rfl
  have good := thrifty'.honours.unused _ ticket (has ticket rfl)
  rw [Stride.result, Machine.stepRun_done next stack]
  exact ⟨_, congrArg StepResult.control (Machine.build_handOver good v u)⟩

/-! ## Builds and groups -/

theorem Reachable.ends_build (reachable : Reachable μ) (stride : μ.strideAt f event = some t)
    {build : LayerBuild σ} {below : List (Frame σ)} {x : Exit}
    (hands : t.Hands (.layers build :: below) x) (owning : build.owning = true) :
    ∃ layer rest, build.todo = layer :: rest ∧
      t.result = t.machine.endBuild f t.scope
        { t.slice.run with stack := below, context := build.outer } { build with owning := false }
        layer rest x := by
  obtain ⟨own, ready, -⟩ := reachable.stride stride
  obtain ⟨next, stack⟩ := hands
  have listed : (Frame.layers build).Listed :=
    reachable.listed ready rfl _ (stack ▸ List.mem_cons_self)
  obtain ⟨layer, rest, todo⟩ := List.exists_cons_of_ne_nil (listed build rfl owning)
  refine ⟨layer, rest, todo, ?_⟩
  rw [Stride.result, Machine.stepRun_done next stack, own]
  simp only [Machine.resumeFrame, Machine.resumeLayers, owning, todo, if_true]

/-- The exit of the last child, and what the parent gets. -/
theorem Reachable.conclusive_of_delivery (reachable : Reachable μ) (thrifty : μ.Thrifty holdings)
    {g : GroupId} {all : Gathering σ} {c : FiberId} {i : Nat} {x : Exit}
    (row : μ.machine.groups.get? g = some (.all all))
    (delivered : (g, c, i, x) ∈ (μ.actsAt event).deliveries) {settled : Gathering σ}
    (settles : (all.settle i x (μ.machine.isInterrupted all.parent)).2 = settled)
    (done : settled.isDone = true) :
    (μ.apply event).answer? all.parent = some settled.outcome ∧ settled.Conclusive := by
  have accounted : settled.Accounted :=
    settles ▸ (thrifty.machine.sound g all row).accounted.settle i x _
  refine ⟨?_, accounted.conclusive done⟩
  cases reachable.delivers event with
  | nobody quiet => simp [quiet] at delivered
  | member one arrives tells =>
      rw [one, List.mem_singleton] at delivered
      cases delivered
      -- until the exit arrives, the groups and the marks are what they were
      have row' := (congrArg (fun groups => groups.get? g) arrives.steady.groups).trans row
      rw [← arrives.steady.marks] at settles
      have empty : settled.queue = [] := by
        simp only [Gathering.isDone, Bool.and_eq_true, List.isEmpty_iff] at done
        exact done.2
      exact tells.inputs ((Machine.gathered arrives.coherent arrives.placed row' x settles
        fun _ => empty).2 done)

/-! ## Every run -/

/-- In every run of programs that were put together with the constructors and combinators, and at
every moment of it, a tree that can be evaluated once is evaluated once, a continuation that can be
called once is called once, every build has its layer, and many effects at once end with a failure
or a result for each of them. -/
theorem internal_defects_are_unreachable (world : World σ) (budget : Nat) {events : List (Event σ)}
    (composed : ∀ node, .start node ∈ events → ∃ e : Effect σ, e.Composed ∧ e.node = node) :
    ((initial world budget).run events).KeepsCount := by
  have start := Reachable.initial world budget
  have reusable : ∀ event ∈ events, event.Reusable := by
    intro event listed
    cases event with
    | start node =>
        obtain ⟨e, composed, rfl⟩ := composed node listed
        exact composed.bears
    | _ => trivial
  obtain ⟨holdings, thrifty⟩ := start.thrifty_run (thrifty_initial world budget) reusable
  have reachable := start.run events
  exact {
    evaluated := fun f event t ticket x stride evaluates =>
      reachable.ends_of_once thrifty stride evaluates
    resumed := fun f event t ticket v below u stride hands =>
      reachable.hands_on_of_handOver thrifty stride hands
    built := fun f event t build below x stride hands owning =>
      reachable.ends_build stride hands owning
    gathered := fun g all event c i x row delivered =>
      reachable.conclusive_of_delivery thrifty row delivered rfl }

/-! ## A program that uses tickets twice -/

/-- A value that is kept over another effect, twice, in the only one of many effects at once. -/
def tappedTwice : Effect Unit :=
  .all [((Effect.succeed (.bool true)).tap fun _ => pure .unit).repeating (.recurs 1)]

/-- The program is started, and the worker does some operations. -/
def tappings (works : Nat) : List (Event Unit) :=
  .start tappedTwice.node :: List.replicate works .work

theorem composed_tappings (works : Nat) (node : Node Unit)
    (started : .start node ∈ tappings works) : ∃ e : Effect Unit, e.Composed ∧ e.node = node := by
  rcases List.mem_cons.1 started with same | worked
  · refine ⟨tappedTwice, .all fun e listed => ?_, (Event.start.inj same).symm⟩
    rw [List.mem_singleton.1 listed]
    refine .repeating (.tap (.succeed _) (fun _ => .pure _) fun v roster w e' ends => ?_) _
    exact Except.ok.inj ends ▸ .unit
  · cases List.eq_of_mem_replicate worked

/-- In the second round the continuation hands on the value that was kept, the tree that bears its
ticket ends with the value, and when the only child has ended its parent has the results. -/
theorem tapped_twice_keeps_count :
    let μ := fun works => (initial { host := () } 100).run (tappings works)
    (∃ t fresh, (μ 36).strideAt ⟨2⟩ .work = some t ∧
      t.result.control = .eval (.once fresh (.ok (.bool true)))) ∧
    (∃ t, (μ 38).strideAt ⟨2⟩ .work = some t ∧ t.result.control = .done (.ok (.bool true))) ∧
    ((μ 45).apply .work).answer? ⟨1⟩ = some (.ok (.list [.result (.ok (.bool true))])) := by
  intro μ
  have keeps := fun works =>
    internal_defects_are_unreachable { host := () } 100 (composed_tappings works)
  refine ⟨?_, ?_, ?_⟩
  · obtain ⟨t, ticket, below, u, stride, hands⟩ : ∃ t ticket below u,
        (μ 36).strideAt ⟨2⟩ .work = some t ∧
          t.Hands (.flatMap (Effect.handOver ticket (.bool true)) :: below) (.ok u) :=
      ⟨_, _, _, _, rfl, rfl, rfl⟩
    obtain ⟨fresh, control⟩ := (keeps 36).resumed _ _ t _ _ _ u stride hands
    exact ⟨t, fresh, stride, control⟩
  · obtain ⟨t, ticket, stride, evaluates⟩ : ∃ t ticket, (μ 38).strideAt ⟨2⟩ .work = some t ∧
        t.slice.run.next = .eval (.once ticket (.ok (.bool true))) := ⟨_, _, rfl, rfl⟩
    exact ⟨t, stride, (keeps 38).evaluated _ _ t ticket _ stride evaluates⟩
  · obtain ⟨all, row, parent, done, outcome⟩ : ∃ all,
        (μ 45).machine.groups.get? ⟨1⟩ = some (.all all) ∧ all.parent = ⟨1⟩ ∧
          (all.settle 0 (.ok (.bool true)) ((μ 45).machine.isInterrupted all.parent)).2.isDone ∧
          (all.settle 0 (.ok (.bool true)) ((μ 45).machine.isInterrupted all.parent)).2.outcome =
            .ok (.list [.result (.ok (.bool true))]) := ⟨_, rfl, rfl, rfl, rfl⟩
    have delivered : ((μ 45).actsAt .work).deliveries = [(⟨1⟩, ⟨2⟩, 0, .ok (.bool true))] := rfl
    obtain ⟨told, -⟩ := (keeps 45).gathered ⟨1⟩ all .work ⟨2⟩ 0 _ row
      (delivered ▸ List.mem_cons_self) done
    exact parent ▸ told.trans (congrArg some outcome)

end Moment

end EffectFibers
