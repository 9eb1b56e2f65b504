import EffectFibers.Proofs.Layers.Provides
import EffectFibers.Proofs.Layers.Steps
import EffectFibers.Proofs.Scopes

/-!
# The context of a constructor

The frame that builds a layer is put up together with the context of the constructor: the context
around the `provide`, with what has been built so far.  Whatever the constructor opens while it is
evaluated it closes again, so each tree that is evaluated directly above the frame finds this
context.  In a provision, what has been built so far are the contexts of all the layers that come
before in the plan, wherever they come from.

## Main statements

* `Moment.Reachable.context_of_constructs` – the context in which a constructor is evaluated.
* `Moment.Reachable.constructs_in_plan` – the same for a provision and its plan.
-/

namespace EffectFibers

variable {σ : Type}

/-! ## Steps -/

namespace Machine

variable {m : Machine σ} {f : FiberId} {s : ScopeId} {run : RunState σ}
  {build b : LayerBuild σ} {below : List (Frame σ)}

/-- Among frames that are no layers there is no frame of layers. -/
theorem suffix_of_plain {new stack : List (Frame σ)}
    (plain : ∀ frame ∈ new, frame.isLayers = false)
    (suffix : (.layers b :: below) <:+ new ++ stack) : (.layers b :: below) <:+ stack := by
  induction new with
  | nil => exact suffix
  | cons frame new ih =>
      rcases List.suffix_cons_iff.1 suffix with here | later
      · obtain ⟨rfl, -⟩ := List.cons.inj here
        cases plain _ List.mem_cons_self
      · exact ih (fun frame listed => plain frame (List.mem_cons_of_mem _ listed)) later

/-- If the frame of a build is on the stack of a program, then it is new and the context is the one
for the constructor, or the frame was there before. -/
def Raises (b : LayerBuild σ) (below before : List (Frame σ)) (run : RunState σ) : Prop :=
  (.layers b :: below) <:+ run.stack →
    run.stack = .layers b :: below ∧ run.context = b.outer.merge b.built ∨
      (.layers b :: below) <:+ before

/-- Going through a plan puts up the frame of a build together with the context for it. -/
theorem raises_advanceLayers (m : Machine σ) (build : LayerBuild σ) (todo : List (LayerNode σ))
    (owning : b.owning = true) :
    Raises b below run.stack (m.advanceLayers f s run build todo).run := by
  induction todo generalizing m build with
  | nil => exact .inr
  | cons layer rest ih =>
      unfold advanceLayers
      split
      · exact ih _ _
      · intro suffix
        refine (List.suffix_cons_iff.1 suffix).imp_left fun here => ?_
        obtain ⟨same, rfl⟩ := List.cons.inj here
        obtain rfl := Frame.layers.inj same
        exact ⟨rfl, rfl⟩
      · intro suffix
        refine .inr ((List.suffix_cons_iff.1 suffix).resolve_left fun here => ?_)
        obtain ⟨same, -⟩ := List.cons.inj here
        obtain rfl := Frame.layers.inj same
        cases owning

theorem raises_resumeLayers (owning : b.owning = true) (x : Exit) :
    Raises b below run.stack (m.resumeLayers f s run build x).run := by
  unfold resumeLayers
  split
  · split
    · exact .inr
    · unfold endBuild
      split
      · exact raises_advanceLayers _ _ _ owning
      all_goals exact .inr
  · split
    · exact raises_advanceLayers m build _ owning
    · exact .inr

/-- A step puts up the frame of a build together with the context for it; other frames of builds
were there before, and no exit reaches them. -/
theorem context_stepRun (m : Machine σ) (f : FiberId) (s : ScopeId) (owning : b.owning = true)
    (suffix : (.layers b :: below) <:+ (m.stepRun f s run).run.stack) :
    ((m.stepRun f s run).run.stack = .layers b :: below ∧
      (m.stepRun f s run).run.context = b.outer.merge b.built) ∨
    (.layers b :: below) <:+ run.stack ∧
      ∀ x, run.next = .done x → run.stack ≠ .layers b :: below := by
  have evaluates {node : Node σ} (next : run.next = .eval node) (x : Exit)
      (hands : run.next = .done x) : run.stack ≠ .layers b :: below := by
    cases next.symm.trans hands
  cases deals_stepRun m f s run with
  | plain same frames other top =>
      obtain ⟨new, stack, plain⟩ := frames
      rw [stack] at suffix
      have kept := suffix_of_plain plain suffix
      refine .inr ⟨?_, fun x next => top x b below next⟩
      unfold RunState.rest at kept
      split at kept
      · exact kept
      · exact kept.trans (List.tail_suffix _)
  | notices next goes =>
      rw [goes] at suffix
      exact .inr ⟨suffix, evaluates next⟩
  | provides next goes =>
      rw [goes] at suffix ⊢
      refine (raises_advanceLayers m _ _ owning suffix).imp_right fun old => ⟨?_, evaluates next⟩
      have plain : ∀ frame ∈ ([.restore run.context] : List (Frame σ)), frame.isLayers = false :=
        fun frame listed => List.mem_singleton.1 listed ▸ rfl
      exact suffix_of_plain plain old
  | awaits next goes =>
      rw [goes] at suffix
      exact .inr ⟨suffix, evaluates next⟩
  | @resumes x build rest next top goes =>
      rw [goes] at suffix ⊢
      refine (raises_resumeLayers owning x suffix).imp_right fun old => ?_
      rw [top]
      refine ⟨old.trans (List.suffix_cons _ _), fun _ _ same => ?_⟩
      -- the frame lies below the one on top, so it is not the same
      obtain ⟨-, rfl⟩ := List.cons.inj same
      exact absurd old.length_le (Nat.not_succ_le_self _)

end Machine

/-! ## Programs -/

/-- Above each frame of a build, the program leads back to the context of the constructor. -/
def RunState.KeepsContexts (run : RunState σ) : Prop :=
  ∀ (b : LayerBuild σ) (below : List (Frame σ)), (.layers b :: below) <:+ run.stack →
    b.owning = true → ∃ scopes : Scopes, scopes.context = b.outer.merge b.built ∧
      run.Within scopes (.layers b :: below)

theorem RunState.KeepsContexts.stepRun {run : RunState σ} (keeps : run.KeepsContexts)
    (m : Machine σ) (f : FiberId) (s : ScopeId) : (m.stepRun f s run).run.KeepsContexts := by
  intro b below suffix owning
  rcases Machine.context_stepRun m f s owning suffix with ⟨stack, context⟩ | ⟨old, unreached⟩
  · have within := RunState.Within.refl (m.stepRun f s run).run
    rw [stack] at within
    exact ⟨_, context, within⟩
  · obtain ⟨scopes, context, within⟩ := keeps b below old owning
    exact ⟨scopes, context, within.stepRun unreached m f s⟩

namespace Moment

variable {μ : Moment σ} {f : FiberId} {s : ScopeId} {event : Event σ} {t : Stride σ}
  {build : LayerBuild σ} {below : List (Frame σ)} {node : Node σ}

/-- What is evaluated directly above the frame of a build finds the context of the constructor. -/
theorem Reachable.context_of_constructs (reachable : Reachable μ)
    (stride : μ.strideAt f event = some t) (owning : build.owning = true)
    (evaluates : t.Evaluates node (.layers build :: below)) :
    t.slice.run.context = build.outer.merge build.built := by
  obtain ⟨-, ready, -⟩ := reachable.stride stride
  have keeps : t.slice.run.KeepsContexts := by
    refine reachable.kept (P := RunState.KeepsContexts) ?_ ?_ ?_ ready rfl
    · intro node context b below suffix
      cases List.suffix_nil.1 suffix
    · intro run step keeps b below suffix owning
      obtain ⟨scopes, context, within⟩ := keeps b below suffix owning
      exact ⟨scopes, context, within.next step⟩
    · intro m f scope run keeps
      exact keeps.stepRun m f scope
  obtain ⟨scopes, context, new, split, opened⟩ :=
    keeps build below (evaluates.2 ▸ List.suffix_refl _) owning
  obtain rfl : new = [] := by simpa using split.symm.trans evaluates.2
  rw [← context]
  cases opened
  rfl

/-- In a provision, a constructor is evaluated in the outer context with what the run has built for
the layers that come before in the plan. -/
theorem Reachable.constructs_in_plan (reachable : Reachable μ) {p : Provision σ}
    (preparing : μ.Preparing f s p) (stride : μ.strideAt f event = some t)
    (owning : build.owning = true) (evaluates : t.Evaluates node (.layers build :: p.stack)) :
    ∃ done contexts, p.layers = done ++ build.todo ∧
      (μ.machine.memo s).Supplies done contexts ∧
      t.slice.run.context = p.outer.merge (.mergeAll contexts) := by
  obtain ⟨b, done, holds, run, rest, suffix⟩ := preparing
  obtain ⟨-, ready, -⟩ := reachable.stride stride
  obtain rfl := Option.some.inj ((rest?_of_position ready).symm.trans rest)
  -- the frame that the provision has is the one on top
  rw [evaluates.2] at suffix
  obtain ⟨same, -⟩ := List.cons.inj (suffix.eq_of_length rfl)
  obtain rfl := Frame.layers.inj same
  obtain ⟨contexts, supplies, built⟩ := holds.built
  refine ⟨done, contexts, holds.plan, supplies, ?_⟩
  rw [reachable.context_of_constructs stride owning evaluates, holds.outer, built]

end Moment

end EffectFibers
