import EffectFibers.Proofs.Layers.Builds
import EffectFibers.Proofs.Progress.Events
import EffectFibers.Proofs.Services.Needs
import EffectFibers.Proofs.Services.Steps

/-!
# What a run keeps

At every moment, what is left of each program fits the context and the frames of its fiber, and
what the machine keeps for later is fit for its use.  A step of a fiber keeps this by what one step
keeps; any other event moves programs without a step, or starts a program.  So it is enough that
each program that is started fits, in the run that it is given.

Of the runs, only those are meant that some property picks out.  Beside them, other programs may run
that declare nothing, or that were not built with the combinators at all.  They may fail to find
their services, but they cannot take back a layer identity: nobody can, as an identity is only ever
made.  So a program that is started in a run of its own needs to be tame only.

## Main definitions

* `Node.Tame` – no user code in a tree, nor in the trees that it builds, takes back an identity.
* `Moment.Served` – at a moment, whatever the fibers of some runs look up is there.

## Main statements

* `Node.needs_of_tame` – a tame tree needs nothing, as far as nothing is promised of it.
* `Moment.Reachable.served_apply` – an event keeps it.
* `Moment.Reachable.served_run` – so does a sequence of events in which other programs are started.
-/

namespace EffectFibers

variable {σ : Type}

/-! ## Programs of which nothing is promised -/

mutual

/-- No user code in a tree, nor in the trees that such code builds, takes back a layer identity. -/
def Node.Tame : Node σ → Prop
  | .sync thunk => Action.Tame thunk
  | .async register => Action.TameRegistration register
  | .flatMap source next => source.Tame ∧ ∀ v roster w, Reply.Tame (next v roster w) w
  | .recover source handler =>
      source.Tame ∧ ∀ failure roster w, Reply.Tame (handler failure roster w) w
  | .ensuring source finalizer => source.Tame ∧ finalizer.Tame
  | .uninterruptible source | .retry source _ | .repeated source _ _ | .fork source
  | .span _ source => source.Tame
  | .provide body plan _ => body.Tame ∧ Plan.Tame plan
  | .race children | .all children _ => Node.AllTame children
  | .access reader => ∀ context roster w, Reply.Tame (reader context roster w) w
  | .succeed _ | .fail _ | .once .. | .watch .. | .awaitBuild _ | .sleep _ | .log .. => True
  | .yield => True

def Reply.Tame : Reply σ (Node σ) → World σ → Prop
  | ⟨result, world, _⟩, before =>
    before.layers.issued ≤ world.layers.issued ∧ Built.Tame result

def Built.Tame : Except Panic (Node σ) → Prop
  | .ok node => node.Tame
  | .error _ => True

def Node.AllTame : List (Node σ) → Prop
  | [] => True
  | node :: rest => node.Tame ∧ Node.AllTame rest

def Plan.Tame : Except LayerError (List (LayerSpec (Node σ))) → Prop
  | .error _ => True
  | .ok layers => Layers.Tame layers

def Layers.Tame : List (LayerSpec (Node σ)) → Prop
  | [] => True
  | ⟨_, _, _, _, build⟩ :: rest => build.Tame ∧ Layers.Tame rest

end

mutual

theorem Node.needs_of_tame {cat : Catalogue} {tags : TagId → Prop} (n : Node σ) (tame : n.Tame)
    (any : ∀ t, tags t) : n.Needs False cat tags none := by
  cases n with
  | succeed v => trivial
  | fail c => trivial
  | sync thunk => exact ⟨rfl, tame⟩
  | once ticket exit => exact fun _ _ => trivial
  | async register => exact ⟨rfl, tame⟩
  | flatMap source next =>
      exact ⟨source.needs_of_tame tame.1 any, fun v roster w later _ known =>
        Reply.need_of_tame (next v roster w) (tame.2 v roster w) known any⟩
  | recover source handler =>
      exact ⟨source.needs_of_tame tame.1 any, fun failure roster w later _ known =>
        Reply.need_of_tame (handler failure roster w) (tame.2 failure roster w) known any⟩
  | ensuring source finalizer =>
      exact ⟨rfl, source.needs_of_tame tame.1 any, finalizer.needs_of_tame tame.2 any⟩
  | uninterruptible source | retry source _ | repeated source _ _ | fork source | span _ source =>
      exact ⟨rfl, source.needs_of_tame tame any⟩
  | provide body plan exports =>
      exact ⟨rfl, body.needs_of_tame tame.1 fun t => .inl (any t),
        Plan.need_of_tame plan tame.2 any⟩
  | race children | all children _ => exact ⟨rfl, Node.allNeed_of_tame children tame any⟩
  | access reader =>
      exact ⟨fun t _ _ => any t.id, fun context roster w later _ known =>
        Reply.need_of_tame (reader context roster w) (tame context roster w) known any⟩
  | watch | awaitBuild | sleep | log | yield => rfl

theorem Reply.need_of_tame {cat : Catalogue} {tags : TagId → Prop} {before : World σ}
    (reply : Reply σ (Node σ)) (tame : Reply.Tame reply before) (known : before.Knows cat)
    (any : ∀ t, tags t) : Reply.Need False reply cat tags none := by
  obtain ⟨result, world, requests⟩ := reply
  exact ⟨cat, .refl cat, known.of_le tame.1, Built.need_of_tame result tame.2 any⟩

theorem Built.need_of_tame {cat : Catalogue} {tags : TagId → Prop} (built : Except Panic (Node σ))
    (tame : Built.Tame built) (any : ∀ t, tags t) : Built.Need False built cat tags none := by
  cases built with
  | ok node => exact node.needs_of_tame tame any
  | error p => trivial

theorem Node.allNeed_of_tame {cat : Catalogue} {tags : TagId → Prop} (nodes : List (Node σ))
    (tame : Node.AllTame nodes) (any : ∀ t, tags t) : Node.AllNeed False nodes cat tags := by
  cases nodes with
  | nil => trivial
  | cons node rest =>
      exact ⟨node.needs_of_tame tame.1 any, Node.allNeed_of_tame rest tame.2 any⟩

theorem Plan.need_of_tame {cat : Catalogue} {tags : TagId → Prop} {exports : List TagId}
    (plan : Except LayerError (List (LayerSpec (Node σ)))) (tame : Plan.Tame plan)
    (any : ∀ t, tags t) : Plan.Need False plan cat tags exports := by
  cases plan with
  | error e => trivial
  | ok layers => exact Layers.need_of_tame layers tame any

theorem Layers.need_of_tame {cat : Catalogue} {tags ready : TagId → Prop} {exports : List TagId}
    (layers : List (LayerSpec (Node σ))) (tame : Layers.Tame layers) (any : ∀ t, tags t) :
    Layers.Need False layers cat tags ready exports := by
  cases layers with
  | nil => exact fun promised => promised.elim
  | cons layer rest =>
      obtain ⟨id, _, _, _, build⟩ := layer
      exact ⟨none, fun promised => promised.elim, build.needs_of_tame tame.1 fun t => .inl (any t),
        Layers.need_of_tame rest tame.2 any⟩

end

/-! ## Programs that fit -/

/-- The programs of all fibers and whatever the machine keeps for later fit, and in some runs this
means that the services they look up are there. -/
structure Moment.Served (strict : ScopeId → Prop) (cat : Catalogue) (μ : Moment σ) : Prop where
  lawful : μ.machine.Lawful strict cat fun f => (μ.machine.fiber? f).isSome
  fits : ∀ f fiber p, μ.machine.fiber? f = some fiber → μ.position? f = some p →
    p.Fits (strict fiber.scope) cat

/-- A program that is started can be run without any services. -/
def Event.Suits (strict : Prop) (cat : Catalogue) : Event σ → Prop
  | .start node => node.Suits strict cat none .empty
  | _ => True

/-- A tame program can be run anywhere, as nothing is promised of it. -/
theorem Node.suits_of_tame {strict : Prop} {cat : Catalogue} {n : Node σ}
    {context : Context Value} (tame : n.Tame) (elsewhere : ¬ strict) :
    n.Suits strict cat none context := by
  obtain rfl := eq_false elsewhere
  exact ⟨fun _ => True, fun promised => promised.elim, n.needs_of_tame tame fun _ => trivial⟩

namespace Moment

variable {μ : Moment σ} {strict : ScopeId → Prop} {cat : Catalogue} {event : Event σ}
  {f : FiberId} {t : Stride σ}

/-! ## One event -/

/-- A fiber takes a step, with which everything goes on fitting. -/
theorem Reachable.sound_stride (reachable : Reachable μ) (served : μ.Served strict cat)
    (stride : μ.strideAt f event = some t) :
    t.result.Sound strict t.scope cat fun f => (μ.machine.fiber? f).isSome := by
  obtain ⟨own, ready, -⟩ := reachable.stride stride
  obtain ⟨-, -, fiber, row, scope⟩ := reachable.stacks_of_stride stride
  have machine := (machine_of_stride stride).1
  have row' : t.machine.fiber? t.slice.fiber = some fiber := by
    rw [machine, own]
    exact row
  have lawful : t.machine.Lawful strict cat fun f => (μ.machine.fiber? f).isSome := by
    rw [machine]
    exact served.lawful.congr rfl rfl rfl rfl
  rw [Stride.result, ← scope]
  exact Machine.sound_stepRun lawful row' (served.fits f fiber _ row ready)

/-- An event in which no fiber takes a step. -/
theorem Reachable.lawful_still (reachable : Reachable μ) (served : μ.Served strict cat)
    (suits : event.Suits (strict μ.machine.scopes.nextId) cat)
    (still : ∀ f, μ.strideAt f event = none) :
    (μ.apply event).machine.Lawful strict cat fun f => (μ.machine.fiber? f).isSome := by
  refine reachable.law_still Machine.lawful_law served.lawful
    (fun f run pending answer position => ?_) (fun node starts => ?_)
    (fun host => served.lawful.setWorld (.refl cat) served.lawful.known) still
  · obtain ⟨fiber, row, -⟩ := Option.map_eq_some_iff.1 position
    exact (served.fits f fiber _ row position).2
  · subst starts
    exact Machine.lawful_startRoot served.lawful suits

/-- What the machine keeps stays fit for its use, and so does what is left by a step. -/
theorem Reachable.lawful_apply (reachable : Reachable μ) (served : μ.Served strict cat)
    (suits : event.Suits (strict μ.machine.scopes.nextId) cat) :
    ∃ later, cat.Within later ∧
      (μ.apply event).machine.Lawful strict later (fun f => (μ.machine.fiber? f).isSome) ∧
      ∀ f t, μ.strideAt f event = some t →
        t.result.control.Fits (strict t.scope) later t.result.run := by
  by_cases stepped : ∃ f t, μ.strideAt f event = some t
  · obtain ⟨f, t, stride⟩ := stepped
    obtain ⟨later, grown, lawful, fits⟩ := reachable.sound_stride served stride
    refine ⟨later, grown, (machine_of_stride stride).2 ▸ lawful, fun g u other => ?_⟩
    obtain ⟨-, rfl⟩ := stride_unique stride other
    exact fits
  · have still : ∀ f, μ.strideAt f event = none := by
      intro f
      cases stride : μ.strideAt f event with
      | none => rfl
      | some t => exact absurd ⟨f, t, stride⟩ stepped
    exact ⟨cat, .refl cat, reachable.lawful_still served suits still,
      fun f t stride => by cases (still f).symm.trans stride⟩

/-- An event keeps everything fitting, if a program that is started in it fits. -/
theorem Reachable.served_apply (reachable : Reachable μ) (served : μ.Served strict cat)
    (suits : event.Suits (strict μ.machine.scopes.nextId) cat) :
    ∃ later, cat.Within later ∧ (μ.apply event).Served strict later := by
  obtain ⟨later, grown, lawful, stepped⟩ := reachable.lawful_apply served suits
  have keeps := (evolves reachable.isCoherent reachable.tidy event).keepsSeats
  refine ⟨later, grown, { lawful with starts := fun f fiber run new row saved => ?_ },
    fun f after p row position => ?_⟩
  · exact absurd (Option.isSome_iff_exists.2 ⟨fiber, row⟩) new
  cases reachable.comes position with
  | @born fiber _ _ missing row' saved =>
      obtain rfl := Option.some.inj (row'.symm.trans row)
      obtain ⟨node', context', same, suits⟩ :=
        lawful.starts f fiber _ (by simp [missing]) row saved
      cases same
      exact ⟨none, .nil, suits⟩
  | moved stood still moves =>
      obtain ⟨fiber, before, -⟩ := Option.map_eq_some_iff.1 stood
      obtain ⟨after', row', seat⟩ := keeps before
      obtain rfl := Option.some.inj (row'.symm.trans row)
      rw [seat.scope]
      exact ((served.fits f fiber _ before stood).moves moves).mono fun _ => grown
  | stepped stride =>
      obtain ⟨-, -, fiber, before, scope⟩ := reachable.stacks_of_stride stride
      obtain ⟨after', row', seat⟩ := keeps before
      obtain rfl := Option.some.inj (row'.symm.trans row)
      rw [seat.scope, scope]
      exact stepped f _ stride

/-! ## Whole runs -/

/-- In a machine without fibers there is nothing that could fail to fit. -/
theorem served_initial {world : World σ} {budget : Nat} (known : world.Knows cat) :
    (initial world budget).Served strict cat := by
  have nobody : ∀ f fiber, (initial world budget).machine.fiber? f ≠ some fiber :=
    fun f fiber row => by cases (Table.get?_empty _).symm.trans row
  refine ⟨⟨known, fun f fiber _ row => ?_, fun f fiber _ _ row => ?_, fun g group row => ?_,
    fun s l c _ entry => ?_⟩, fun f fiber p row => ?_⟩
  · exact absurd row (nobody f fiber)
  · exact absurd row (nobody f fiber)
  · cases (Table.get?_empty _).symm.trans row
  · rw [memo_initial] at entry
    cases entry
  · exact absurd row (nobody f fiber)

/-- Before the runs that are meant have begun, any catalogue will do. -/
theorem Served.recatalogue {later : Catalogue} (reachable : Reachable μ)
    (served : μ.Served strict cat) (unborn : ∀ s, strict s → μ.machine.scopes.get? s = none)
    (known : μ.machine.world.Knows later) : μ.Served strict later := by
  have elsewhere : ∀ f fiber, μ.machine.fiber? f = some fiber → ¬ strict fiber.scope := by
    intro f fiber row meant
    have there := reachable.knows_run row
    rw [unborn _ meant] at there
    cases there
  have lawful := served.lawful
  refine ⟨⟨known, lawful.tame, fun f fiber run new row saved => ?_, fun g group row => ?_,
    fun s l c meant entry => ?_⟩, fun f fiber p row position => ?_⟩
  · obtain ⟨node, context, same, suits⟩ := lawful.starts f fiber run new row saved
    exact ⟨node, context, same, suits.mono fun meant => absurd meant (elsewhere f fiber row)⟩
  · have hosts := lawful.hosts g group row
    cases group with
    | race race => trivial
    | all all =>
        obtain ⟨fiber, row, suits⟩ := hosts
        exact ⟨fiber, row, fun entry listed => (suits entry listed).mono
          fun meant => absurd meant (elsewhere _ fiber row)⟩
  · rw [Machine.memo, unborn s meant] at entry
    cases entry
  · exact (served.fits f fiber p row position).mono
      fun meant => absurd meant (elsewhere f fiber row)

/-- A run keeps everything fitting, if the programs that are started in it are tame, and are not
those that are meant. -/
theorem Reachable.served_run (reachable : Reachable μ) (served : μ.Served strict cat)
    {events : List (Event σ)} (tame : ∀ node, .start node ∈ events → node.Tame)
    (elsewhere : ∀ before node after, events = before ++ .start node :: after →
      ¬ strict (μ.run before).machine.scopes.nextId) :
    ∃ later, cat.Within later ∧ (μ.run events).Served strict later := by
  induction events generalizing μ cat with
  | nil => exact ⟨cat, .refl cat, served⟩
  | cons event events ih =>
      have suits : event.Suits (strict μ.machine.scopes.nextId) cat := by
        cases event with
        | start node =>
            exact Node.suits_of_tame (tame node List.mem_cons_self) (elsewhere [] node events rfl)
        | _ => trivial
      obtain ⟨later, grown, served'⟩ := reachable.served_apply served suits
      obtain ⟨last, grown', served''⟩ := ih (reachable.apply event) served'
        (fun node listed => tame node (List.mem_cons_of_mem event listed))
        fun before node after same =>
          elsewhere (event :: before) node after (congrArg (event :: ·) same)
      exact ⟨last, grown.trans grown', served''⟩

theorem Reachable.belongs_run (reachable : Reachable μ) {s : ScopeId} (belongs : μ.Belongs f s)
    (events : List (Event σ)) : (μ.run events).Belongs f s := by
  induction events generalizing μ with
  | nil => exact belongs
  | cons event events ih =>
      exact ih (reachable.apply event) (reachable.belongs_apply belongs event)

/-- A program is started in a run that there was not before. -/
theorem belongs_start (μ : Moment σ) (node : Node σ) :
    (μ.apply (.start node)).Belongs (μ.machine.startRoot node).1 μ.machine.scopes.nextId :=
  ⟨_, Table.get?_push_self _ _, rfl⟩

/-- No two programs are started in one run. -/
theorem Reachable.nextId_ne (reachable : Reachable μ) (node : Node σ) (events : List (Event σ)) :
    ((μ.apply (.start node)).run events).machine.scopes.nextId ≠ μ.machine.scopes.nextId := by
  intro same
  have started := reachable.apply (.start node)
  obtain ⟨fiber, row, scope⟩ := started.belongs_run (μ.belongs_start node) events
  obtain ⟨memo, found⟩ := Option.isSome_iff_exists.1 ((started.run events).knows_run row)
  exact Table.ne_nextId found (scope.trans same.symm)

end Moment

end EffectFibers
