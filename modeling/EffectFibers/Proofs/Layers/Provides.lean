import EffectFibers.Proofs.Layers.Builds
import Mathlib.Data.List.Forall2

/-!
# What a body gets

A fiber that provides layers goes through its plan.  It uses what its run has built, builds what
nobody has, and waits for what another fiber builds.  Whichever way it comes to a layer, it goes on
with the context that the run remembers for this layer; and it enters the body with just these
contexts, put together in the order of the plan, or hands on the cause of a build that has failed.

## Main definitions

* `Memo.Supplies` – the contexts that have been built for some layers.
* `Provision` – what is provided to which body.
* `Moment.ProvideCourse` – how far a provision has got in a run.

## Main statements

* `Moment.Reachable.provide_course` – the course of a provision from the evaluation of its node on.
-/

namespace EffectFibers

variable {σ : Type}

/-! ## Contexts that are there -/

/-- Contexts put together; where several have a tag, the last one's service counts. -/
def Context.mergeAll (contexts : List (Context Value)) : Context Value :=
  contexts.foldl Context.merge Context.empty

namespace Memo

/-- The contexts that have been built for some layers, in the order of the layers. -/
def Supplies (memo : Memo) (layers : List (LayerNode σ)) (contexts : List (Context Value)) :
    Prop :=
  List.Forall₂ (fun layer context => memo.context? layer.id = some context) layers contexts

/-- All that a memory has built, another one has built as well. -/
def Within (memo memo' : Memo) : Prop := ∀ l c, memo.context? l = some c → memo'.context? l = some c

variable {memo memo' : Memo} {layer : LayerNode σ} {layers : List (LayerNode σ)}
  {contexts : List (Context Value)} {c : Context Value}

theorem Supplies.mono (within : memo.Within memo') (supplies : memo.Supplies layers contexts) :
    memo'.Supplies layers contexts := supplies.imp fun layer c known => within layer.id c known

/-- One layer more. -/
theorem Supplies.append (supplies : memo.Supplies layers contexts)
    (known : memo.context? layer.id = some c) :
    memo.Supplies (layers ++ [layer]) (contexts ++ [c]) :=
  List.rel_append supplies (.cons known .nil)

/-- What is supplied for a layer is what has been built for it. -/
theorem Supplies.context?_of_mem (supplies : memo.Supplies layers contexts)
    (listed : (layer, c) ∈ layers.zip contexts) : memo.context? layer.id = some c :=
  (List.forall₂_iff_zip.1 supplies).2 listed

end Memo

/-! ## Going through a plan -/

/-- Layers that are provided to a body: the plan, the services that the body gets to see, and the
context and the stack that it is provided in. -/
structure Provision (σ : Type) where
  body : Node σ
  layers : List (LayerNode σ)
  exports : List TagId
  outer : Context Value
  below : List (Frame σ)

namespace Provision

/-- The frame that holds the body while the layers are made ready, and the one that gives the outer
context back after it. -/
def stack (p : Provision σ) : List (Frame σ) := .restore p.outer :: p.below

/-- A build that has come through a part of the plan, with what the run has built for it. -/
structure Holds (p : Provision σ) (memo : Memo) (build : LayerBuild σ)
    (done todo : List (LayerNode σ)) : Prop where
  body : build.body = p.body
  exports : build.exports = p.exports
  outer : build.outer = p.outer
  plan : p.layers = done ++ todo
  built : ∃ contexts, memo.Supplies done contexts ∧ build.built = .mergeAll contexts

/-- Where a step leaves a provision. -/
inductive Stage (p : Provision σ) (memo : Memo) (result : StepResult σ) : Prop
  /-- Some layer is still to come. -/
  | waits {build done} (holds : p.Holds memo build done build.todo)
    (frame : result.run.stack = .layers build :: p.stack)
  /-- All layers are there, and the body is next. -/
  | enters {contexts} (supplies : memo.Supplies p.layers contexts)
    (body : result.control = .next (.eval p.body)) (below : result.run.stack = p.stack)
    (context : result.run.context = p.outer.merge ((Context.mergeAll contexts).restrict p.exports))
  /-- A build has failed, and its cause is handed on. -/
  | fails {cause} (hands : result.control = .next (.done (.error cause)))
    (below : result.run.stack = p.stack)

variable {p : Provision σ} {memo memo' : Memo} {m : Machine σ} {f : FiberId} {s : ScopeId}
  {run : RunState σ} {build : LayerBuild σ} {done todo : List (LayerNode σ)} {result : StepResult σ}

theorem Holds.mono (within : memo.Within memo') (holds : p.Holds memo build done todo) :
    p.Holds memo' build done todo := by
  obtain ⟨contexts, supplies, merged⟩ := holds.built
  exact { holds with built := ⟨contexts, supplies.mono within, merged⟩ }

theorem Stage.mono (within : memo.Within memo') (stage : p.Stage memo result) :
    p.Stage memo' result := by
  cases stage with
  | waits holds frame => exact .waits (holds.mono within) frame
  | enters supplies body below context => exact .enters (supplies.mono within) body below context
  | fails hands below => exact .fails hands below

/-- One layer of the plan is there. -/
theorem Holds.next {layer : LayerNode σ} {c : Context Value}
    (holds : p.Holds memo build done (layer :: todo)) (known : memo.context? layer.id = some c) :
    p.Holds memo { build with built := build.built.merge c } (done ++ [layer]) todo where
  body := holds.body
  exports := holds.exports
  outer := holds.outer
  plan := by rw [holds.plan, List.append_assoc]; rfl
  built := by
    obtain ⟨contexts, supplies, merged⟩ := holds.built
    refine ⟨contexts ++ [c], supplies.append known, ?_⟩
    rw [Context.mergeAll, List.foldl_append, merged]
    rfl

/-- To go on with a plan leads to a layer that is not there yet, or to the body. -/
theorem stage_advanceLayers (holds : p.Holds (m.memo s) build done todo)
    (below : run.stack = p.stack) :
    p.Stage (m.memo s) (m.advanceLayers f s run build todo) := by
  induction todo generalizing build done with
  | nil =>
      obtain ⟨contexts, supplies, merged⟩ := holds.built
      have all : (m.memo s).Supplies p.layers contexts := by
        rwa [holds.plan, List.append_nil]
      refine .enters all (congrArg Control.eval holds.body) below ?_
      rw [← merged, ← holds.outer, ← holds.exports]
      rfl
  | cons layer rest ih =>
      have waits : ∀ owning, p.Holds (m.memo s) { build with todo := layer :: rest, owning } done
          (layer :: rest) := fun owning =>
        ⟨holds.body, holds.exports, holds.outer, holds.plan, holds.built⟩
      unfold Machine.advanceLayers Machine.lookUpLayer
      cases found : (m.memo s).get? layer.id with
      | none => exact .waits (waits true) (congrArg _ below)
      | some entry =>
          cases entry with
          | building owner waiters => exact .waits (waits false) (congrArg _ below)
          | built context => exact ih (holds.next (Memo.context?_eq_some_iff.2 found))

/-- To begin a provision is to go on with the whole plan. -/
theorem stage_provide (m : Machine σ) (f : FiberId) (s : ScopeId) (run : RunState σ)
    (body : Node σ) (layers : List (LayerNode σ)) (exports : List TagId) :
    Stage { body, layers, exports, outer := run.context, below := run.stack } (m.memo s)
      (m.provide f s run body (.ok layers) exports) := by
  let p : Provision σ := { body, layers, exports, outer := run.context, below := run.stack }
  let build : LayerBuild σ :=
    { body, exports, todo := layers, outer := run.context, built := .empty, owning := false }
  have holds : p.Holds (m.memo s) build [] layers := ⟨rfl, rfl, rfl, rfl, [], .nil, rfl⟩
  exact stage_advanceLayers holds rfl

/-- A build that has ended makes the provision go on, or fail. -/
theorem stage_endBuild {layer : LayerNode σ} (known : (m.scopes.get? s).isSome)
    (run : RunState σ)
    (holds : p.Holds (m.memo s) build done (layer :: todo)) (below : run.stack = p.stack)
    {claim : LayerBuild σ} (agrees : m.Agrees f s (.layers claim :: run.stack))
    (owning : claim.owning = true) (next : claim.todo = layer :: todo) (x : Exit) :
    p.Stage ((m.endBuild f s run build layer todo x).machine.memo s)
      (m.endBuild f s run build layer todo x) := by
  unfold Machine.endBuild
  split
  · rename_i context
    have completed := Machine.tends_completeBuild known agrees owning next context
    obtain ⟨known', built⟩ := Machine.context?_completeBuild known layer context
    have onward := (holds.mono completed.built).next built
    have advanced := Machine.tends_advanceLayers known' run
      { build with built := build.built.merge context } todo completed.agrees
    exact (stage_advanceLayers onward below).mono advanced.built
  · exact .fails rfl below
  · exact .fails rfl below
  · exact .fails rfl below

/-- An exit that reaches the frame of a provision makes it go on, or fail. -/
theorem stage_resumeLayers (known : (m.scopes.get? s).isSome)
    (holds : p.Holds (m.memo s) build done build.todo) (below : run.stack = p.stack)
    (agrees : m.Agrees f s (.layers build :: run.stack)) (x : Exit) :
    p.Stage ((m.resumeLayers f s run build x).machine.memo s)
      (m.resumeLayers f s run build x) := by
  unfold Machine.resumeLayers
  split
  · rename_i owning
    split
    · exact .fails rfl below
    · rename_i layer rest next
      rw [next] at holds
      have left : p.Holds (m.memo s) { build with owning := false } done (layer :: rest) :=
        ⟨holds.body, holds.exports, holds.outer, holds.plan, holds.built⟩
      exact stage_endBuild known { run with context := build.outer } left below agrees owning next x
  · rename_i waiting
    split
    · have advanced := Machine.tends_advanceLayers known run build build.todo
        (agrees.below fun l => by simp [Frame.owns, waiting])
      exact (stage_advanceLayers holds below).mono advanced.built
    · exact .fails rfl below

end Provision

/-! ## The course of a provision -/

namespace Moment

variable {μ : Moment σ} {f : FiberId} {s : ScopeId} {p : Provision σ} {event : Event σ}
  {t : Stride σ}

/-- A provision is under way: a part of its plan is there, with what the run has built for it, and
the frame that holds the rest is on the stack. -/
def Preparing (μ : Moment σ) (f : FiberId) (s : ScopeId) (p : Provision σ) : Prop :=
  ∃ build done, p.Holds (μ.machine.memo s) build done build.todo ∧
    μ.Above f (.layers build :: p.stack)

/-- How far a provision has got in a run that begins after the evaluation of its node. -/
inductive ProvideCourse (f : FiberId) (s : ScopeId) (p : Provision σ) (μ : Moment σ) :
    List (Event σ) → Prop
  /-- It is under way all the time, and the fiber lives. -/
  | preparing {events} (under : ∀ before, before <+: events → (μ.run before).Preparing f s p)
    (live : ((μ.run events).machine.status f).isTerminal = false) : ProvideCourse f s p μ events
  /-- The body comes next, in the outer context with what is let out of the contexts that the run
  has built. -/
  | entered {before after run contexts}
    (under : ∀ first, first <+: before → first ≠ before → (μ.run first).Preparing f s p)
    (supplies : ((μ.run before).machine.memo s).Supplies p.layers contexts)
    (next : (μ.run before).Next f run) (body : run.next = .eval p.body)
    (below : run.stack = p.stack)
    (context : run.context = p.outer.merge ((Context.mergeAll contexts).restrict p.exports)) :
    ProvideCourse f s p μ (before ++ after)
  /-- A build has failed, and its cause is handed on. -/
  | failed {before after run cause}
    (under : ∀ first, first <+: before → first ≠ before → (μ.run first).Preparing f s p)
    (next : (μ.run before).Next f run) (hands : run.next = .done (.error cause))
    (below : run.stack = p.stack) : ProvideCourse f s p μ (before ++ after)

/-- A moment more at which the provision is under way. -/
theorem ProvideCourse.cons {events : List (Event σ)} (ready : μ.Preparing f s p)
    (course : ProvideCourse f s p (μ.apply event) events) :
    ProvideCourse f s p μ (event :: events) := by
  have longer : ∀ before, (∀ first, first <+: before → first ≠ before →
      ((μ.apply event).run first).Preparing f s p) → ∀ first, first <+: event :: before →
      first ≠ event :: before → (μ.run first).Preparing f s p := by
    intro before under first short other
    cases first with
    | nil => exact ready
    | cons event' first =>
        obtain ⟨rfl, shorter⟩ := List.cons_prefix_cons.1 short
        exact under first shorter fun same => other (same ▸ rfl)
  cases course with
  | preparing under live =>
      refine .preparing (fun before short => ?_) live
      cases before with
      | nil => exact ready
      | cons event' before =>
          obtain ⟨rfl, shorter⟩ := List.cons_prefix_cons.1 short
          exact under before shorter
  | @entered before after run contexts under supplies next body below context =>
      have later := longer before under
      rw [← List.cons_append]
      exact .entered later supplies next body below context
  | @failed before after run cause under next hands below =>
      have later := longer before under
      rw [← List.cons_append]
      exact .failed later next hands below

/-- Where a step leaves a provision. -/
theorem Reachable.provides_of_stage (reachable : Reachable μ)
    (stride : μ.strideAt f event = some t)
    (stage : p.Stage ((μ.apply event).machine.memo s) t.result) :
    (μ.apply event).Preparing f s p ∨ ∀ events, ProvideCourse f s p (μ.apply event) events := by
  have first : ∀ first : List (Event σ), first <+: [] → first ≠ [] →
      ((μ.apply event).run first).Preparing f s p :=
    fun first short other => absurd (List.prefix_nil.1 short) other
  cases stage with
  | waits holds frame =>
      obtain ⟨-, -, answer, stepped, -⟩ := reachable.stride stride
      refine .inl ⟨_, _, holds, t.result.run, rest?_of_position stepped, ?_⟩
      simp [frame]
  | enters supplies body below context =>
      have next := reachable.next_of_stride stride body
      refine .inr fun events => ?_
      rw [← List.nil_append events]
      exact .entered first supplies next rfl below context
  | fails hands below =>
      have next := reachable.next_of_stride stride hands
      refine .inr fun events => ?_
      rw [← List.nil_append events]
      exact .failed first next rfl below

/-- A provision that is under way stays so, or goes on with what its frame is handed. -/
theorem Reachable.preparing_apply (reachable : Reachable μ) (belongs : μ.Belongs f s)
    (ready : μ.Preparing f s p) (event : Event σ) :
    (μ.apply event).Preparing f s p ∨ ∀ events, ProvideCourse f s p (μ.apply event) events := by
  obtain ⟨build, done, holds, above⟩ := ready
  by_cases reached : ∃ t, μ.strideAt f event = some t ∧ ∃ x, t.Hands (.layers build :: p.stack) x
  · obtain ⟨t, stride, x, hands⟩ := reached
    obtain ⟨known, agrees⟩ := reachable.agrees_of_stride reachable.orderly stride
    obtain ⟨machine, after⟩ := machine_of_stride stride
    obtain ⟨own, -⟩ := reachable.stride stride
    obtain rfl := belongs.unique (reachable.stacks_of_stride stride).2.2
    rw [hands.2] at agrees
    have holds' : p.Holds (t.machine.memo t.scope) build done build.todo := by
      rw [machine]
      exact holds
    have step : t.result = t.machine.resumeLayers f t.scope
        { t.slice.run with stack := p.stack } build x := by
      rw [Stride.result, own, Machine.stepRun_done hands.1 hands.2]
      rfl
    refine reachable.provides_of_stage stride ?_
    rw [after, step]
    exact Provision.stage_resumeLayers known holds' rfl agrees x
  · refine .inl ⟨build, done, holds.mono fun l c built => ?_, ?_⟩
    · exact reachable.built_apply built event
    · exact reachable.above_apply above fun t stride x hands => reached ⟨t, stride, x, hands⟩

/-- The course of a provision that is under way. -/
theorem Reachable.course_of_preparing (reachable : Reachable μ) (belongs : μ.Belongs f s)
    (ready : μ.Preparing f s p) (events : List (Event σ)) : ProvideCourse f s p μ events := by
  induction events generalizing μ with
  | nil =>
      refine .preparing (fun before short => ?_) ?_
      · rw [List.prefix_nil.1 short]
        exact ready
      · obtain ⟨build, done, -, above⟩ := ready
        exact above.live reachable.isCoherent
  | cons event events ih =>
      refine .cons ready ?_
      rcases reachable.preparing_apply belongs ready event with ready' | course
      · exact ih (reachable.apply event) (reachable.belongs_apply belongs event) ready'
      · exact course events

/-- The course of a provision from the evaluation of its node on. -/
theorem Reachable.provide_course (reachable : Reachable μ) (stride : μ.strideAt f event = some t)
    {body : Node σ} {layers : List (LayerNode σ)} {exports : List TagId}
    (evaluates : t.slice.run.next = .eval (.provide body (.ok layers) exports))
    (events : List (Event σ)) :
    ProvideCourse f t.scope
      { body, layers, exports, outer := t.slice.run.context, below := t.slice.run.stack }
      (μ.apply event) events := by
  obtain ⟨known, agrees⟩ := reachable.agrees_of_stride reachable.orderly stride
  obtain ⟨machine, after⟩ := machine_of_stride stride
  obtain ⟨own, -⟩ := reachable.stride stride
  have step : t.result = t.machine.provide f t.scope t.slice.run body (.ok layers) exports := by
    rw [Stride.result, own, Machine.stepRun_eval evaluates]
    rfl
  have stage := Provision.stage_provide t.machine f t.scope t.slice.run body layers exports
  have tended := Machine.tends_provide known t.slice.run agrees body (.ok layers) exports
  have belongs := reachable.belongs_apply (reachable.stacks_of_stride stride).2.2 event
  have stage' := stage.mono tended.built
  rw [← step, ← after] at stage'
  rcases reachable.provides_of_stage stride stage' with ready | course
  · exact (reachable.apply event).course_of_preparing belongs ready events
  · exact course events

end Moment

end EffectFibers
