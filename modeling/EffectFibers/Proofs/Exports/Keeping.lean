import EffectFibers.Proofs.Exports.Constructors
import EffectFibers.Proofs.Exports.Origins
import EffectFibers.Proofs.Progress.Events

/-!
# What reaches the frames of layers

The frame that waits for a layer gets the exit of a constructor, and the constructor may have passed
through many steps until then.  If the tree of a constructor can have no other value than a context
with the one service, then what is left of it after a step cannot either: the frames that the tree
has put on the stack turn any value into a tree of this kind again.  So each layer of a run is built
with a context of its one service, as long as the run provides layers of such constructors only.

## Main definitions

* `Stack.Receives` – frames, and the service that an exit has to bring for them.
* `Moment.WellMade` – the frames of all fibers of a run receive what they wait for.
* `Moment.ProvidesAssembled` – the layers that are provided in a run are made by the combinators.

## Main statements

* `Machine.wellMade_stepRun` – a step keeps it.
* `Moment.Reachable.holds_of_built` – what is built for a layer has its one service.
-/

namespace EffectFibers

variable {σ : Type} {cat : Catalogue} {goal : Option TagId} {t : TagId}

/-! ## Frames -/

/-- The frames receive an exit that brings nothing but the given service, or any exit, if none is
given.  The frame that builds a layer waits for the service of the layer. -/
inductive Stack.Receives (cat : Catalogue) : Option TagId → List (Frame σ) → Prop
  | nil : Receives cat none []
  | plain {frame stack} (plain : frame.isLayers = false) (below : Receives cat none stack) :
    Receives cat none (frame :: stack)
  | flatMap {t next stack}
    (makes : ∀ v roster w n, (next v roster w).result = .ok n → n.Makes t)
    (below : Receives cat (some t) stack) : Receives cat none (.flatMap next :: stack)
  | recover {t handler stack}
    (recovers : ∀ failure roster w n, (handler failure roster w).result = .ok n → n.Makes t)
    (below : Receives cat (some t) stack) : Receives cat (some t) (.recover handler :: stack)
  | building {t build layer rest stack} (owning : build.owning = true)
    (todo : build.todo = layer :: rest) (listed : cat layer.id = some t)
    (made : ∀ n ∈ build.todo, n.Made cat) (below : Receives cat none stack) :
    Receives cat (some t) (.layers build :: stack)
  | waiting {build stack} (waiting : build.owning = false) (made : ∀ n ∈ build.todo, n.Made cat)
    (below : Receives cat none stack) : Receives cat none (.layers build :: stack)

/-- The step that comes next leads to nothing but the given service. -/
def Step.Brings (goal : Option TagId) (step : Step σ) : Prop :=
  ∀ t, goal = some t → match step with
    | .eval node => node.Makes t
    | .done x => x.Brings t

/-- What comes next brings what the frames wait for. -/
def RunState.WellMade (cat : Catalogue) (run : RunState σ) : Prop :=
  ∃ goal, Stack.Receives cat goal run.stack ∧ run.next.Brings goal

/-- What is left of a program after a step brings what the frames wait for. -/
def Control.WellMade (cat : Catalogue) (run : RunState σ) : Control σ → Prop
  | .next step | .yield step => RunState.WellMade cat { run with next := step }
  | .suspend _ => Stack.Receives cat none run.stack
  | .finish _ => True

/-- After a step, what comes next brings what the frames wait for. -/
def StepResult.WellMade (cat : Catalogue) (result : StepResult σ) : Prop :=
  result.control.WellMade cat result.run

/-- It does so wherever its fiber stands with it. -/
def Position.WellMade (cat : Catalogue) : Position σ → Prop
  | .ready run => run.WellMade cat
  | .stepped run control _ => control.WellMade cat run
  | .asleep run _ | .answered run _ => Stack.Receives cat none run.stack
  | .gone => True

/-- Over frames that receive anything, anything may come next. -/
theorem RunState.wellMade_of_free {run : RunState σ} (frames : Stack.Receives cat none run.stack)
    (step : Step σ) : RunState.WellMade cat { run with next := step } :=
  ⟨none, frames, fun _ same => by cases same⟩

/-- What brings no value is received by all frames. -/
theorem RunState.wellMade_error {run : RunState σ} (frames : Stack.Receives cat goal run.stack)
    (c : Cause Failure) : RunState.WellMade cat { run with next := .done (.error c) } :=
  ⟨goal, frames, fun _ _ => Exit.brings_error c⟩

theorem StepResult.wellMade_of_free {result : StepResult σ}
    (frames : Stack.Receives cat none result.run.stack) : result.WellMade cat := by
  unfold StepResult.WellMade
  cases result.control with
  | next step => exact RunState.wellMade_of_free frames step
  | yield step => exact RunState.wellMade_of_free frames step
  | suspend pending => exact frames
  | finish x => trivial

/-- As long as a fiber takes no step, its frames go on receiving what they wait for. -/
theorem Position.WellMade.moves {m m' : Machine σ} {f : FiberId} {p p' : Position σ}
    (made : p.WellMade cat) (moves : m.Moves m' f p p') : p'.WellMade cat := by
  cases moves with
  | stays => exact made
  | goesOn => exact made
  | noticed notices plain =>
      obtain ⟨goal, frames, -⟩ := made
      exact RunState.wellMade_error frames .interrupt
  | yields => exact made
  | hears why => exact made
  | sleeps => exact made
  | givesUp notices => exact RunState.wellMade_of_free made _
  | takes => exact RunState.wellMade_of_free made _
  | ends => trivial
  | wakes why => exact made
  | resumes => exact RunState.wellMade_of_free made _

/-! ## Steps -/

namespace Machine

variable {m : Machine σ} {f : FiberId} {s : ScopeId} {run : RunState σ} {build : LayerBuild σ}
  {result : StepResult σ}

/-- A step that goes on with the tree that user code builds. -/
theorem wellMade_build (frames : Stack.Receives cat (some t) run.stack)
    {code : Action σ (Node σ)}
    (makes : ∀ roster w n, (code roster w).result = .ok n → n.Makes t) :
    (m.build run code).WellMade cat := by
  unfold build perform
  dsimp only
  cases built : (code (statusOf m.fibers) m.world).result with
  | error p => exact RunState.wellMade_error frames _
  | ok n => exact ⟨some t, frames, fun u same => Option.some.inj same ▸ makes _ _ n built⟩

/-- Going through a plan leads to a constructor, to a wait or to the body. -/
theorem wellMade_advanceLayers (frames : Stack.Receives cat none run.stack) (m : Machine σ)
    (build : LayerBuild σ) {todo : List (LayerNode σ)} (made : ∀ n ∈ todo, n.Made cat) :
    (m.advanceLayers f s run build todo).WellMade cat := by
  induction todo generalizing m build with
  | nil => exact StepResult.wellMade_of_free frames
  | cons layer rest ih =>
      unfold advanceLayers
      split
      · exact ih _ _ fun n listed => made n (List.mem_cons_of_mem _ listed)
      · obtain ⟨t, listed, -, makes⟩ := made layer List.mem_cons_self
        refine ⟨some t, .building rfl rfl listed made frames, fun u same => ?_⟩
        exact Option.some.inj same ▸ makes
      · have waits : Stack.Receives cat none (.layers { build with
          todo := layer :: rest, owning := false } :: run.stack) := .waiting rfl made frames
        exact StepResult.wellMade_of_free waits

/-- An exit reaches a frame of layers: what lies below receives anything. -/
theorem wellMade_resumeLayers (frames : Stack.Receives cat none run.stack)
    (made : ∀ n ∈ build.todo, n.Made cat) (x : Exit) :
    (m.resumeLayers f s run build x).WellMade cat := by
  unfold resumeLayers
  split
  · split
    · exact StepResult.wellMade_of_free frames
    · rename_i layer rest todo
      have later : ∀ n ∈ rest, n.Made cat :=
        fun n listed => made n (todo ▸ List.mem_cons_of_mem _ listed)
      unfold endBuild
      split
      · have frames' : Stack.Receives cat none
          ({ run with context := build.outer } : RunState σ).stack := frames
        exact wellMade_advanceLayers frames' _ _ later
      all_goals exact StepResult.wellMade_of_free frames
  · split
    · exact wellMade_advanceLayers frames m build made
    · exact StepResult.wellMade_of_free frames

/-- The tree of a constructor takes a step. -/
theorem wellMade_of_makes {node : Node σ} (frames : Stack.Receives cat (some t) run.stack)
    (makes : node.Makes t) :
    (m.eval f s run node).WellMade cat := by
  unfold eval
  split
  · exact RunState.wellMade_error frames .interrupt
  · cases makes with
    | succeed brings => exact ⟨some t, frames, fun u same => Option.some.inj same ▸ brings⟩
    | fail => exact RunState.wellMade_error frames _
    | once brings =>
        unfold evalNode
        dsimp only
        split
        · exact ⟨some t, frames, fun u same => Option.some.inj same ▸ brings⟩
        · exact RunState.wellMade_error frames _
    | flatMap makes =>
        have pushed : Stack.Receives cat none (.flatMap _ :: run.stack) := .flatMap makes frames
        exact StepResult.wellMade_of_free pushed
    | recover makes recovers =>
        exact ⟨some t, .recover recovers frames, fun u same => Option.some.inj same ▸ makes⟩

/-- An exit reaches a frame that waits for a service. -/
theorem wellMade_of_brings {frame : Frame σ} {x : Exit}
    (frames : Stack.Receives cat (some t) (frame :: run.stack)) (brings : x.Brings t) :
    (m.resumeFrame f s run frame x).WellMade cat := by
  cases frames with
  | recover recovers below =>
      have passes : RunState.WellMade cat { run with next := .done x } :=
        ⟨some t, below, fun u same => Option.some.inj same ▸ brings⟩
      rcases x with (failure | d | _) | v
      · exact wellMade_build below (recovers failure)
      · exact passes
      · exact passes
      · exact passes
  | building owning todo listed made below => exact wellMade_resumeLayers below made x

/-- An exit reaches a frame that takes anything and waits for a tree. -/
theorem wellMade_of_flatMap {next : Value → Action σ (Node σ)} (x : Exit)
    (makes : ∀ v roster w n, (next v roster w).result = .ok n → n.Makes t)
    (below : Stack.Receives cat (some t) run.stack) :
    (m.resumeFrame f s run (.flatMap next) x).WellMade cat := by
  rcases x with c | v
  · exact RunState.wellMade_error below c
  · exact wellMade_build below (makes v)

/-- New frames that are no layers, over frames that receive anything. -/
theorem receives_append {new stack : List (Frame σ)}
    (plain : ∀ frame ∈ new, frame.isLayers = false) (below : Stack.Receives cat none stack) :
    Stack.Receives cat none (new ++ stack) := by
  induction new with
  | nil => exact below
  | cons frame new ih =>
      refine .plain (plain frame List.mem_cons_self) (ih fun frame listed => ?_)
      exact plain frame (List.mem_cons_of_mem _ listed)

/-- Where the frames receive anything, and none of them waits for the tree that a value leads to. -/
theorem wellMade_of_free (frames : Stack.Receives cat none run.stack)
    (rest : Stack.Receives cat none run.rest)
    (provides : ∀ body layers exports, run.next = .eval (.provide body (.ok layers) exports) →
      ∀ n ∈ layers, n.Made cat) :
    (m.stepRun f s run).WellMade cat := by
  cases deals_stepRun m f s run with
  | plain same new other top =>
      obtain ⟨new, stack, plain⟩ := new
      exact StepResult.wellMade_of_free (stack ▸ receives_append plain rest)
  | notices next goes =>
      rw [goes]
      exact StepResult.wellMade_of_free frames
  | @provides body layers exports next goes =>
      rw [goes]
      have pushed : Stack.Receives cat none (run.push (.restore run.context)).stack :=
        .plain rfl frames
      exact wellMade_advanceLayers pushed m _ (provides body layers exports next)
  | awaits next goes =>
      rw [goes]
      exact StepResult.wellMade_of_free frames
  | @resumes x build below next top goes =>
      rw [goes]
      rw [top] at frames
      rw [RunState.rest, next, top] at rest
      cases frames with
      | plain plain _ => cases plain
      | waiting _ made below => exact wellMade_resumeLayers below made x

/-- Every step keeps it, if the layers that are provided are made by the combinators. -/
theorem wellMade_stepRun (made : run.WellMade cat)
    (provides : ∀ body layers exports, run.next = .eval (.provide body (.ok layers) exports) →
      ∀ n ∈ layers, n.Made cat) :
    (m.stepRun f s run).WellMade cat := by
  obtain ⟨goal, frames, brings⟩ := made
  cases next : run.next with
  | eval node =>
      cases goal with
      | none =>
          have rest : Stack.Receives cat none run.rest := by
            rw [RunState.rest, next]
            exact frames
          exact wellMade_of_free frames rest provides
      | some t =>
          have makes := brings t rfl
          rw [next] at makes
          rw [stepRun_eval next]
          exact wellMade_of_makes frames makes
  | done x =>
      cases top : run.stack with
      | nil =>
          rw [stepRun_over next top]
          trivial
      | cons frame below =>
          rw [top] at frames
          cases goal with
          | none =>
              have free (lower : Stack.Receives cat none below) :
                  (m.stepRun f s run).WellMade cat := by
                refine wellMade_of_free (top ▸ frames) ?_ provides
                rw [RunState.rest, next, top]
                exact lower
              cases frames with
              | plain _ lower => exact free lower
              | waiting _ _ lower => exact free lower
              | flatMap makes lower =>
                  rw [stepRun_done next top]
                  exact wellMade_of_flatMap x makes lower
          | some t =>
              have brings := brings t rfl
              rw [next] at brings
              rw [stepRun_done next top]
              exact wellMade_of_brings frames brings

end Machine

/-! ## Runs -/

namespace Moment

variable {μ : Moment σ} {event : Event σ} {s : ScopeId} {l : LayerId} {c : Context Value}

/-- The frames of all fibers of a run receive what they wait for. -/
def WellMade (cat : Catalogue) (s : ScopeId) (μ : Moment σ) : Prop :=
  ∀ f p, μ.Belongs f s → μ.position? f = some p → p.WellMade cat

/-- Whoever provides layers in a run in this event provides a layer that the combinators make. -/
def ProvidesAssembled (cat : Catalogue) (s : ScopeId) (μ : Moment σ) (event : Event σ) : Prop :=
  ∀ f t body plan exports, μ.strideAt f event = some t → t.scope = s →
    t.slice.run.next = .eval (.provide body plan exports) →
    ∃ l : Layer σ, l.Assembled cat ∧ plan = l.plan ∧ exports = l.exports.ids

/-- All layers that are provided in a run are made by the combinators. -/
def ProvidesAllAssembled (cat : Catalogue) (s : ScopeId) : Moment σ → List (Event σ) → Prop
  | _, [] => True
  | μ, event :: events => μ.ProvidesAssembled cat s event ∧ ProvidesAllAssembled cat s (μ.apply event) events

theorem providesAllAssembled_append {events later : List (Event σ)} :
    ProvidesAllAssembled cat s μ (events ++ later) ↔
      ProvidesAllAssembled cat s μ events ∧ ProvidesAllAssembled cat s (μ.run events) later := by
  induction events generalizing μ with
  | nil => exact (iff_of_eq (true_and _)).symm
  | cons event events ih =>
      rw [List.cons_append, ProvidesAllAssembled, ProvidesAllAssembled, run_cons, ih, and_assoc]

/-- An event keeps it. -/
theorem Reachable.wellMade_apply (reachable : Reachable μ) (made : μ.WellMade cat s)
    (provides : μ.ProvidesAssembled cat s event) : (μ.apply event).WellMade cat s := by
  intro f p belongs position
  have belonged {g : FiberId} {fiber : Fiber σ} (row : μ.machine.fiber? g = some fiber)
      (belongs : (μ.apply event).Belongs g s) : μ.Belongs g s := by
    have before : μ.Belongs g fiber.scope := ⟨fiber, row, rfl⟩
    exact (reachable.belongs_apply before event).unique belongs ▸ before
  cases reachable.comes position with
  | born missing row saved => exact ⟨none, .nil, fun t same => by cases same⟩
  | moved stood still moves =>
      obtain ⟨fiber, row, -⟩ := Option.map_eq_some_iff.1 stood
      exact (made f _ (belonged row belongs) stood).moves moves
  | @stepped t answer stride ready =>
      obtain ⟨fiber, row, -⟩ := Option.map_eq_some_iff.1 ready
      have here := belonged row belongs
      obtain rfl := here.unique (reachable.stacks_of_stride stride).2.2
      refine Machine.wellMade_stepRun (made f _ here ready) fun body layers exports next => ?_
      obtain ⟨l, assembled, valid, -⟩ := provides f t body _ exports stride rfl next
      exact assembled.made.of_plan valid.symm

theorem Reachable.wellMade_run (reachable : Reachable μ) (made : μ.WellMade cat s)
    {events : List (Event σ)} (provides : ProvidesAllAssembled cat s μ events) :
    (μ.run events).WellMade cat s := by
  induction events generalizing μ with
  | nil => exact made
  | cons event events ih =>
      exact ih (reachable.apply event) (reachable.wellMade_apply made provides.1) provides.2

theorem wellMade_initial {world : World σ} {budget : Nat} :
    (initial world budget).WellMade cat s := by
  intro f p _ position
  cases position?_initial.symm.trans position

/-- What is built for a layer has the service of the layer, and no other one. -/
theorem Reachable.holds_of_builtIn (reachable : Reachable μ) (made : μ.WellMade cat s)
    (here : μ.BuiltIn event s l c) : ∃ t, cat l = some t ∧ c.Holds t := by
  obtain ⟨f, t, stride, rfl, build, layer, rest, below, hands, owning, todo, rfl⟩ := here
  obtain ⟨-, ready, -⟩ := reachable.stride stride
  obtain ⟨goal, frames, brings⟩ := made f _ (reachable.stacks_of_stride stride).2.2 ready
  rw [hands.2] at frames
  rw [hands.1] at brings
  cases frames with
  | plain plain _ => cases plain
  | waiting waiting _ _ => cases owning.symm.trans waiting
  | @building u _ first others _ _ todo' listed _ _ =>
      obtain ⟨rfl, -⟩ := List.cons.inj (todo.symm.trans todo')
      obtain ⟨d, same, holds⟩ := brings u rfl _ rfl
      obtain rfl := Value.context.inj same
      exact ⟨u, listed, holds⟩

/-- What has been built for a layer has the service of the layer, and no other one. -/
theorem holds_of_built {world : World σ} {budget : Nat} {events : List (Event σ)}
    (provides : ProvidesAllAssembled cat s (initial world budget) events)
    (built : (((initial world budget).run events).machine.memo s).context? l = some c) :
    ∃ t, cat l = some t ∧ c.Holds t := by
  have reachable : Reachable (initial world budget) := .initial world budget
  have nothing : ((initial world budget).machine.memo s).context? l = none := by
    rw [memo_initial]
    rfl
  obtain ⟨before, event, after, rfl, here⟩ := reachable.exists_builtIn nothing built
  have made := reachable.wellMade_run wellMade_initial (providesAllAssembled_append.1 provides).1
  exact (reachable.run before).holds_of_builtIn made here

end Moment

end EffectFibers
