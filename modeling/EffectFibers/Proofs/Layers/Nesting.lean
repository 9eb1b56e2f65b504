import EffectFibers.Proofs.Layers.Waiting
import Mathlib.Data.List.Induction

/-!
# Layers within layers

The constructor of a layer may provide layers in turn.  Then frames of layers lie on the stack above
a frame that builds, and what they have yet to make ready is part of the build below.  Such a frame
goes back to a step that has come to a plan within that build: the frame has the layers that the
plan listed, less those that are ready.

## Main definitions

* `Stride.Nests` – within the build of a layer, a step comes to a plan that lists another one.
* `Moment.Nests` – a step of a run does.

## Main statements

* `Machine.layers_of_stepRun` – a step takes the frames of layers from the stack before it, or from
  a plan.
* `Moment.nests_of_stack` – every layer above a build has been come to within that build.
-/

namespace EffectFibers

variable {σ : Type}

/-- While the fiber builds the one layer, it comes to a plan that lists the other one, which has not
been built yet. -/
def Stride.Nests (t : Stride σ) (k l : LayerId) : Prop :=
  ∃ body layers exports, t.slice.run.next = .eval (.provide body (.ok layers) exports) ∧
    l ∈ layers.map (·.id) ∧ (t.machine.memo t.scope).context? l = none ∧
    ∃ frame ∈ t.slice.run.stack, frame.owns k = true

/-- Where a frame of layers and the frames below it lie on a stack. -/
def Layered (stack : List (Frame σ)) (build : LayerBuild σ) (below : List (Frame σ)) : Prop :=
  ∃ above, stack = above ++ .layers build :: below

namespace Layered

variable {stack below : List (Frame σ)} {build : LayerBuild σ} {frame : Frame σ}

theorem cons_iff : Layered (frame :: stack) build below ↔
    frame = .layers build ∧ stack = below ∨ Layered stack build below := by
  constructor
  · rintro ⟨above, same⟩
    cases above with
    | nil => exact .inl (List.cons.inj same)
    | cons first above => exact .inr ⟨above, (List.cons.inj same).2⟩
  · rintro (⟨rfl, rfl⟩ | ⟨above, rfl⟩)
    · exact ⟨[], rfl⟩
    · exact ⟨frame :: above, rfl⟩

theorem push (layered : Layered stack build below) (frame : Frame σ) :
    Layered (frame :: stack) build below := cons_iff.2 (.inr layered)

/-- It is not among frames that are none of layers. -/
theorem of_append {new : List (Frame σ)} (plain : ∀ frame ∈ new, frame.isLayers = false)
    (layered : Layered (new ++ stack) build below) : Layered stack build below := by
  induction new with
  | nil => exact layered
  | cons frame new ih =>
      refine ih (fun frame listed => plain frame (List.mem_cons_of_mem _ listed)) ?_
      refine (cons_iff.1 layered).resolve_left ?_
      rintro ⟨rfl, -⟩
      cases plain _ List.mem_cons_self

theorem not_nil : ¬ Layered ([] : List (Frame σ)) build below := by
  rintro ⟨above, same⟩
  cases above <;> cases same

theorem of_rest {run : RunState σ} (layered : Layered run.rest build below) :
    Layered run.stack build below := by
  unfold RunState.rest at layered
  split at layered
  · exact layered
  · cases stack : run.stack with
    | nil =>
        rw [stack] at layered
        exact absurd layered not_nil
    | cons frame rest =>
        rw [stack] at layered
        exact layered.push frame

end Layered

namespace Machine

variable {m : Machine σ} {f : FiberId} {s : ScopeId} {run : RunState σ} {build : LayerBuild σ}
  {below : List (Frame σ)}

/-! ## One step -/

/-- To go on with a plan is to put up a frame with the layers that are left, or none. -/
theorem stack_advanceLayers (m : Machine σ) (f : FiberId) (s : ScopeId) (run : RunState σ)
    (build : LayerBuild σ) (todo : List (LayerNode σ)) :
    (m.advanceLayers f s run build todo).run.stack = run.stack ∨
      ∃ left, (m.advanceLayers f s run build todo).run.stack = .layers left :: run.stack ∧
        left.todo <:+ todo := by
  induction todo generalizing build with
  | nil => exact .inl rfl
  | cons layer rest ih =>
      unfold advanceLayers lookUpLayer
      cases found : (m.memo s).get? layer.id with
      | none => exact .inr ⟨_, rfl, List.suffix_refl _⟩
      | some entry =>
          cases entry with
          | building owner waiters => exact .inr ⟨_, rfl, List.suffix_refl _⟩
          | built context =>
              refine (ih { build with built := build.built.merge context }).imp_right ?_
              rintro ⟨left, stack, shorter⟩
              exact ⟨left, stack, shorter.trans (List.suffix_cons _ _)⟩

theorem stack_resumeLayers (m : Machine σ) (f : FiberId) (s : ScopeId) (run : RunState σ)
    (build : LayerBuild σ) (x : Exit) :
    (m.resumeLayers f s run build x).run.stack = run.stack ∨
      ∃ left, (m.resumeLayers f s run build x).run.stack = .layers left :: run.stack ∧
        left.todo <:+ build.todo := by
  unfold resumeLayers
  split
  · split
    · exact .inl rfl
    · rename_i layer rest todo
      unfold endBuild
      split
      · refine (stack_advanceLayers _ f s _ _ rest).imp_right ?_
        rintro ⟨left, stack, shorter⟩
        exact ⟨left, stack, todo ▸ shorter.trans (List.suffix_cons _ _)⟩
      · exact .inl rfl
      · exact .inl rfl
      · exact .inl rfl
  · split
    · exact stack_advanceLayers m f s run build build.todo
    · exact .inl rfl

/-- After a step, a frame of layers stands where one stood before, or it is one for a plan that the
step has come to.  It has no other layers to make ready. -/
theorem layers_of_stepRun (layered : Layered (m.stepRun f s run).run.stack build below) :
    (∃ before, Layered run.stack before below ∧ build.todo <:+ before.todo) ∨
      ∃ body layers exports, run.next = .eval (.provide body (.ok layers) exports) ∧
        below = .restore run.context :: run.stack ∧ build.todo <:+ layers := by
  cases deals_stepRun m f s run with
  | plain same frames other top =>
      obtain ⟨new, stack, plain⟩ := frames
      rw [stack] at layered
      exact .inl ⟨build, (layered.of_append plain).of_rest, List.suffix_refl _⟩
  | notices next goes =>
      rw [goes] at layered
      exact .inl ⟨build, layered, List.suffix_refl _⟩
  | @provides body layers exports next goes =>
      rw [goes, provide] at layered
      have kept : Layered (.restore run.context :: run.stack) build below →
          Layered run.stack build below := by
        intro layered
        refine (Layered.cons_iff.1 layered).resolve_left ?_
        rintro ⟨⟨⟩, -⟩
      rcases stack_advanceLayers m f s (run.push (.restore run.context)) _ layers with
        same | ⟨left, stack, shorter⟩
      · rw [same] at layered
        exact .inl ⟨build, kept layered, List.suffix_refl _⟩
      · rw [stack] at layered
        rcases Layered.cons_iff.1 layered with ⟨top, same⟩ | deeper
        · obtain rfl := Frame.layers.inj top
          exact .inr ⟨body, layers, exports, next, same.symm, shorter⟩
        · exact .inl ⟨build, kept deeper, List.suffix_refl _⟩
  | awaits next goes =>
      rw [goes] at layered
      exact .inl ⟨build, layered, List.suffix_refl _⟩
  | @resumes x before rest next top goes =>
      rw [goes] at layered
      rw [top]
      rcases stack_resumeLayers m f s { run with stack := rest } before x with
        same | ⟨left, stack, shorter⟩
      · rw [same] at layered
        exact .inl ⟨build, layered.push _, List.suffix_refl _⟩
      · rw [stack] at layered
        rcases Layered.cons_iff.1 layered with ⟨here, same⟩ | deeper
        · obtain rfl := Frame.layers.inj here
          exact .inl ⟨before, Layered.cons_iff.2 (.inl ⟨rfl, same⟩), shorter⟩
        · exact .inl ⟨build, deeper.push _, List.suffix_refl _⟩

end Machine

/-! ## A whole run -/

namespace Moment

variable {μ : Moment σ} {f : FiberId} {s : ScopeId} {k l : LayerId} {event : Event σ}
  {events : List (Event σ)} {build : LayerBuild σ} {below : List (Frame σ)}

/-- In the events that follow a moment, a fiber of a run comes to a plan within the build of a
layer, and the plan lists a layer that has not been built. -/
def Nests (μ : Moment σ) (events : List (Event σ)) (s : ScopeId) (k l : LayerId) : Prop :=
  ∃ before event, before ++ [event] <+: events ∧
    ∃ f t, (μ.run before).strideAt f event = some t ∧ t.scope = s ∧ t.Nests k l

theorem Nests.append (nests : Nests μ events s k l) (later : List (Event σ)) :
    Nests μ (events ++ later) s k l := by
  obtain ⟨before, event, early, step⟩ := nests
  exact ⟨before, event, early.trans (List.prefix_append _ _), step⟩

/-- What a fiber has yet to make ready above a build has been come to within this build, unless it
is ready by now. -/
def Nested (μ : Moment σ) (events : List (Event σ)) (s : ScopeId) (f : FiberId) : Prop :=
  ∀ build below, Layered ((μ.run events).stack f) build below → ∀ layer ∈ build.todo,
    ∀ frame ∈ below, ∀ k, frame.owns k = true →
      ((μ.run events).machine.memo s).context? layer.id ≠ none ∨ Nests μ events s k layer.id

/-- One more event. -/
theorem Nested.apply (reachable : Reachable μ) (belongs : (μ.run events).Belongs f s)
    (nested : Nested μ events s f) (event : Event σ) : Nested μ (events ++ [event]) s f := by
  have here := reachable.run events
  have stays : ∀ {layer : LayerNode σ} {k},
      ((μ.run events).machine.memo s).context? layer.id ≠ none ∨ Nests μ events s k layer.id →
        (((μ.run events).apply event).machine.memo s).context? layer.id ≠ none ∨
          Nests μ (events ++ [event]) s k layer.id := by
    rintro layer k (built | nests)
    · obtain ⟨context, built⟩ := Option.ne_none_iff_exists'.1 built
      exact .inl (by simp [here.built_apply built event])
    · exact .inr (nests.append [event])
  intro build below layered layer listed frame lower k owns
  rw [run_append] at layered ⊢
  cases stride : (μ.run events).strideAt f event with
  | none =>
      rw [run_cons, run_nil, here.stack_of_still belongs stride] at layered
      exact stays (nested build below layered layer listed frame lower k owns)
  | some t =>
      obtain ⟨before, after, belongs'⟩ := here.stacks_of_stride stride
      obtain rfl := belongs.unique belongs'
      rw [run_cons, run_nil, ← after, Stride.result] at layered
      rcases Machine.layers_of_stepRun layered with ⟨first, stood, shorter⟩ |
        ⟨body, layers, exports, next, rfl, shorter⟩
      · exact stays (nested first below (before ▸ stood) layer (shorter.mem listed) frame lower k
          owns)
      · -- the plan is listed by this very step
        have lower : frame ∈ t.slice.run.stack := by
          refine (List.mem_cons.1 lower).resolve_left ?_
          rintro rfl
          cases owns
        by_cases built : (t.machine.memo t.scope).context? layer.id = none
        · exact .inr ⟨events, event, List.prefix_refl _, f, t, stride, rfl, body, layers, exports,
            next, List.mem_map_of_mem (shorter.mem listed), built, frame, lower, owns⟩
        · obtain ⟨context, built⟩ := Option.ne_none_iff_exists'.1 built
          rw [(machine_of_stride stride).1] at built
          exact .inl (by
            rw [run_cons, run_nil, here.built_apply (c := context) built event]
            simp)

end Moment

end EffectFibers
