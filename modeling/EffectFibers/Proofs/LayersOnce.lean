import EffectFibers.Proofs.Layers.Provides

/-!
# Layers are built once

In one run a layer is built by one fiber at a time, and when a build has succeeded the layer is
never built again: from then on all that the run does with it is to use the context that was built.
The memory of the run and the stacks of its fibers say the same about what is being built, so no
claim is left behind by a build that has failed or that an interrupt has ended.

## Main definitions

* `Moment.LayersOnce` – what is known about the layers of a run, now and later on.

## Main statements

* `Moment.Reachable.layers_are_built_once` – it holds at every moment, for every run.
-/

namespace EffectFibers

variable {σ : Type}

namespace Moment

variable {μ : Moment σ}

/-- What is known about the layers of a run, now and later on. -/
structure LayersOnce (μ : Moment σ) (s : ScopeId) : Prop where
  /-- A layer is being built by a fiber exactly if the fiber lives and has the one frame in the run
  that waits for the layer. -/
  building : ∀ l f, (∃ waiters, (μ.machine.memo s).get? l = some (.building f waiters)) ↔
    μ.Belongs f s ∧ (μ.machine.status f).isTerminal = false ∧ μ.builds f l = 1 ∧
      ∀ g, μ.Belongs g s → g ≠ f → μ.builds g l = 0
  /-- When an exit reaches such a frame, the layer has been built with the context that the exit
  brings; if it brings none, nothing is left of the build. -/
  ended : ∀ f event t, μ.strideAt f event = some t → t.scope = s →
    ∀ build layer rest below x, t.Hands (.layers build :: below) x → build.owning = true →
      build.todo = layer :: rest →
      ((μ.apply event).machine.memo s).get? layer.id = (Machine.contextOf x).map .built
  /-- What has been built stays, and nobody evaluates its constructor again. -/
  stays : ∀ l c, (μ.machine.memo s).get? l = some (.built c) → ∀ events,
    ((μ.run events).machine.memo s).get? l = some (.built c) ∧
    ∀ f, (μ.run events).Belongs f s → (μ.run events).builds f l = 0 ∧
      ∀ event t, (μ.run events).strideAt f event = some t → ¬ t.Constructs l
  /-- A fiber that provides layers goes through its plan, until it enters the body with what the run
  has built for them or hands on the cause of a build that has failed. -/
  provided : ∀ f event t body layers exports, μ.strideAt f event = some t → t.scope = s →
    t.slice.run.next = .eval (.provide body (.ok layers) exports) → ∀ events,
    ProvideCourse f s
      { body, layers, exports, outer := t.slice.run.context, below := t.slice.run.stack }
      (μ.apply event) events
  /-- What the run supplies for a layer that has been built is just what has been built. -/
  shared : ∀ l c, (μ.machine.memo s).get? l = some (.built c) →
    ∀ events (layers : List (LayerNode σ)) contexts layer c',
      ((μ.run events).machine.memo s).Supplies layers contexts →
      (layer, c') ∈ layers.zip contexts → layer.id = l → c' = c

/-- In every run, a layer is built by one fiber at a time, a build that fails or is interrupted is
forgotten, and a layer that has been built is never built again, but used by all who provide it. -/
theorem Reachable.layers_are_built_once (reachable : Reachable μ) (s : ScopeId) :
    μ.LayersOnce s where
  building l f := reachable.building_iff s l f
  ended f event t stride scope build layer rest below x hands owning next := by
    subst scope
    exact reachable.entry_of_hands stride hands owning next
  stays l c built events := by
    have later := reachable.run events
    have stays := reachable.built_stays (Memo.context?_eq_some_iff.2 built) events
    refine ⟨Memo.context?_eq_some_iff.1 stays, fun f belongs => ?_⟩
    have idle := later.builds_of_built stays belongs
    refine ⟨idle, fun event t stride constructs => ?_⟩
    have busy := later.builds_of_constructs stride constructs
    omega
  provided f event t body layers exports stride scope evaluates events := by
    subst scope
    exact reachable.provide_course stride evaluates events
  shared l c built events layers contexts layer c' supplies listed same := by
    have known := supplies.context?_of_mem listed
    rw [same, reachable.built_stays (Memo.context?_eq_some_iff.2 built) events] at known
    exact (Option.some.inj known).symm

/-! ## Two fibers that provide one layer -/

/-- The tag of a number. -/
def numberTag : Tag := { id := ⟨1⟩, name := "number" }

/-- What a layer for a number supplies. -/
def numberSeven : Context Value := Context.empty.insert numberTag (.int 7)

/-- A layer for a number, which gives way once while it is built. -/
def slowNumber : LayerNode Unit where
  id := ⟨1⟩
  name := Layer.defaultName numberTag
  outputs := .of numberTag
  inputs := .none
  build := .flatMap .yield fun _ =>
    (pure (Node.succeed (.context numberSeven)) : Action Unit (Node Unit))

/-- Two children provide the layer at the same time. -/
def sharedNumber : Node Unit :=
  let child : Node Unit := .provide (.succeed .null) (.ok [slowNumber]) [numberTag.id]
  .all [child, child] {}

/-- The two children after some operations of the worker. -/
def sharing (works : Nat) : Moment Unit :=
  (initial { host := () } 100).run (.start sharedNumber :: List.replicate works .work)

theorem reachable_sharing (works : Nat) : Reachable (sharing works) :=
  (Reachable.initial _ _).run _

/-- The first child evaluates the constructor of the layer, and the second one begins to wait for it;
then an exit reaches the frame of the first one, and the context that it brings stays. -/
theorem slow_number_is_built_once :
    (∃ t, (sharing 6).strideAt ⟨2⟩ .work = some t ∧ t.Constructs ⟨1⟩) ∧
    ((sharing 11).builds ⟨2⟩ ⟨1⟩ = 1 ∧ (sharing 11).builds ⟨3⟩ ⟨1⟩ = 0) ∧
    (∃ t, (sharing 11).strideAt ⟨3⟩ .work = some t ∧ ∀ events, ProvideCourse ⟨3⟩ ⟨1⟩
      { body := .succeed .null, layers := [slowNumber], exports := [numberTag.id]
        outer := t.slice.run.context, below := t.slice.run.stack }
      ((sharing 11).apply .work) events) ∧
    ∀ events, ((((sharing 20).apply .work).run events).machine.memo ⟨1⟩).get? ⟨1⟩ =
      some (.built numberSeven) := by
  have first := (reachable_sharing 11).layers_are_built_once ⟨1⟩
  have claimed : ((sharing 11).machine.memo ⟨1⟩).get? ⟨1⟩ = some (.building ⟨2⟩ []) := rfl
  have third : ((sharing 11).machine.fiber? ⟨3⟩).map (·.scope) = some ⟨1⟩ := by decide +kernel
  obtain ⟨-, -, one, alone⟩ := (first.building ⟨1⟩ ⟨2⟩).1 ⟨_, claimed⟩
  refine ⟨⟨_, rfl, _, slowNumber, _, _, rfl, rfl, rfl, rfl, rfl⟩,
    ⟨one, alone ⟨3⟩ (Option.map_eq_some_iff.1 third) (by decide)⟩, ?_, ?_⟩
  · obtain ⟨t, stride, scope, evaluates⟩ : ∃ t, (sharing 11).strideAt ⟨3⟩ .work = some t ∧
        t.scope = ⟨1⟩ ∧ t.slice.run.next =
          .eval (.provide (.succeed .null) (.ok [slowNumber]) [numberTag.id]) :=
      ⟨_, rfl, rfl, rfl⟩
    exact ⟨t, stride, first.provided ⟨3⟩ .work t _ _ _ stride scope evaluates⟩
  · have second := (reachable_sharing 20).layers_are_built_once ⟨1⟩
    obtain ⟨t, build, rest, below, stride, scope, hands, owning, next⟩ :
        ∃ t build rest below, (sharing 20).strideAt ⟨2⟩ .work = some t ∧ t.scope = ⟨1⟩ ∧
          t.Hands (.layers build :: below) (.ok (.context numberSeven)) ∧ build.owning = true ∧
          build.todo = slowNumber :: rest := ⟨_, _, _, _, rfl, rfl, ⟨rfl, rfl⟩, rfl, rfl⟩
    have built := second.ended ⟨2⟩ .work t stride scope build _ rest below _ hands owning next
    have last := ((reachable_sharing 20).apply .work).layers_are_built_once ⟨1⟩
    exact fun events => (last.stays ⟨1⟩ numberSeven built events).1

end Moment

end EffectFibers
