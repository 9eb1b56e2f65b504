import EffectFibers.Proofs.Layers.Steps
import Mathlib.Data.List.Induction

/-!
# Where built contexts come from

A context gets into the memory of a run in one way only: an exit that brings it reaches the frame
that waits for the layer.  What has been built stays, and nobody builds the layer again, so in the
history of a run there is one such event for each layer that has been built.

## Main definitions

* `Stride.Completes` – a step that completes a build.
* `Moment.BuiltIn` – a layer of a run is built in an event.
* `Moment.BuiltOnce` – in a history there is one such event.

## Main statements

* `Moment.Reachable.built_or_builtIn` – what has been built was built before or is built now.
* `Moment.Reachable.builtOnce` – what has been built in a history was built once.
-/

namespace EffectFibers

variable {σ : Type}

/-- An exit that brings a context reaches the frame that waits for a layer. -/
def Stride.Completes (t : Stride σ) (l : LayerId) (c : Context Value) : Prop :=
  ∃ (build : LayerBuild σ) (layer : LayerNode σ) (rest : List (LayerNode σ))
    (below : List (Frame σ)), t.Hands (.layers build :: below) (.ok (.context c)) ∧
    build.owning = true ∧ build.todo = layer :: rest ∧ layer.id = l

/-! ## Steps -/

namespace Machine

variable {m : Machine σ} {f : FiberId} {s : ScopeId} {run : RunState σ} {build : LayerBuild σ}
  {l : LayerId} {c : Context Value}

/-- To go on with a plan builds nothing. -/
theorem context?_advanceLayers (known : (m.scopes.get? s).isSome) (run : RunState σ)
    (build : LayerBuild σ) (todo : List (LayerNode σ)) :
    ((m.advanceLayers f s run build todo).machine.memo s).context? l = (m.memo s).context? l := by
  induction todo generalizing build with
  | nil => rfl
  | cons layer rest ih =>
      unfold advanceLayers lookUpLayer
      cases found : (m.memo s).get? layer.id with
      | none =>
          show ((m.modifyMemo s (·.insert layer.id (.building f []))).memo s).context? l = _
          rw [memo_modifyMemo known, if_pos rfl, Memo.context?_insert]
          split
          · rename_i same
            rw [← same, Memo.context?, found]
          · rfl
      | some entry =>
          cases entry with
          | building owner waiters => rfl
          | built context => exact ih _

/-- To wait for a build builds nothing. -/
theorem context?_joinBuild (known : (m.scopes.get? s).isSome) (k : LayerId) (w : WaitId) :
    ((m.joinBuild s k w).memo s).context? l = (m.memo s).context? l := by
  unfold joinBuild
  split
  · rename_i owner waiters entry
    rw [memo_modifyMemo known, if_pos rfl, Memo.context?_insert]
    split
    · rename_i same
      rw [← same, Memo.context?, entry]
    · rfl
  · rw [memo_of_scopes (m.spares_resume w _).scopes]

/-- To forget a build builds nothing. -/
theorem context?_forgetBuild (known : (m.scopes.get? s).isSome) (layer : LayerNode σ)
    (outcome : BuildOutcome) (x : Exit) :
    ((m.forgetBuild s layer outcome x).memo s).context? l = (m.memo s).context? l := by
  unfold forgetBuild
  split
  · rename_i owner waiters entry
    have same : (((m.modifyMemo s (·.erase layer.id)).trace
        (.buildForgotten layer.name owner waiters.length outcome)).wake waiters x).scopes =
        (m.modifyMemo s (·.erase layer.id)).scopes := (spares_wake _ _ _).scopes
    rw [memo_of_scopes same, memo_modifyMemo known, if_pos rfl, Memo.context?_erase]
    split
    · rename_i here
      rw [← here, Memo.context?, entry]
    · rfl
  · rfl

/-- What is built at the end of a build is what the exit brings. -/
theorem context?_endBuild (known : (m.scopes.get? s).isSome) (run : RunState σ)
    (build : LayerBuild σ) (layer : LayerNode σ) (rest : List (LayerNode σ)) (x : Exit)
    (built : ((m.endBuild f s run build layer rest x).machine.memo s).context? l = some c) :
    (m.memo s).context? l = some c ∨ layer.id = l ∧ x = .ok (.context c) := by
  unfold endBuild at built
  split at built
  · rename_i context
    have same : (m.completeBuild s layer context).scopes =
      (m.modifyMemo s (·.insert layer.id (.built context))).scopes := (spares_wake _ _ _).scopes
    rw [context?_advanceLayers (context?_completeBuild known layer context).1,
      memo_of_scopes same, memo_modifyMemo known, if_pos rfl, Memo.context?_insert] at built
    split at built
    · rename_i here
      exact .inr ⟨here, by rw [Option.some.inj built]⟩
    · exact .inl built
  · exact .inl ((context?_forgetBuild known layer _ _).symm.trans built)
  · exact .inl ((context?_forgetBuild known layer _ _).symm.trans built)
  · rename_i cause _
    have forgotten := context?_forgetBuild (m := m.trace (.buildFailed layer.name cause)) (l := l)
      known layer .failed (.error (layer.copyCause cause))
    exact .inl (forgotten.symm.trans built)

/-- What has been built after a step was built before it, or the step completes the build. -/
theorem context?_stepRun (known : (m.scopes.get? s).isSome)
    (built : ((m.stepRun f s run).machine.memo s).context? l = some c) :
    (m.memo s).context? l = some c ∨
      ∃ (build : LayerBuild σ) (layer : LayerNode σ) (rest : List (LayerNode σ))
        (below : List (Frame σ)), run.next = .done (.ok (.context c)) ∧
        run.stack = .layers build :: below ∧ build.owning = true ∧ build.todo = layer :: rest ∧
        layer.id = l := by
  cases deals_stepRun m f s run with
  | plain same frames other top =>
      rw [memo_of_scopes same] at built
      exact .inl built
  | notices next goes =>
      rw [goes] at built
      exact .inl built
  | provides next goes =>
      rw [goes] at built
      exact .inl ((context?_advanceLayers known _ _ _).symm.trans built)
  | awaits next goes =>
      rw [goes] at built
      exact .inl ((context?_joinBuild (m := (m.openWait f .build).2) known _ _).symm.trans built)
  | @resumes x build below next top goes =>
      rw [goes] at built
      unfold resumeLayers at built
      split at built
      · rename_i owning
        split at built
        · exact .inl built
        · rename_i layer rest todo
          rcases context?_endBuild known _ _ layer rest x built with before | ⟨same, rfl⟩
          · exact .inl before
          · exact .inr ⟨build, layer, rest, below, next, top, owning, todo, same⟩
      · split at built
        · exact .inl ((context?_advanceLayers known _ _ _).symm.trans built)
        · exact .inl built

end Machine

/-! ## Events -/

namespace Moment

/-- A layer of a run is built in an event, with a context. -/
def BuiltIn (μ : Moment σ) (event : Event σ) (s : ScopeId) (l : LayerId) (c : Context Value) :
    Prop :=
  ∃ f t, μ.strideAt f event = some t ∧ t.scope = s ∧ t.Completes l c

/-- In a history there is one event in which the layer is built, and it is built with this
context. -/
def BuiltOnce (μ : Moment σ) (events : List (Event σ)) (s : ScopeId) (l : LayerId)
    (c : Context Value) : Prop :=
  ∃ before event after, events = before ++ event :: after ∧
    (μ.run before).BuiltIn event s l c ∧
    ∀ before' event' after' c', events = before' ++ event' :: after' →
      (μ.run before').BuiltIn event' s l c' → before' = before ∧ c' = c

variable {μ : Moment σ} {event : Event σ} {s : ScopeId} {l : LayerId} {c c' : Context Value}

/-- What has been built was built before, or is built now. -/
theorem Reachable.built_or_builtIn (reachable : Reachable μ)
    (built : ((μ.apply event).machine.memo s).context? l = some c) :
    (μ.machine.memo s).context? l = some c ∨ μ.BuiltIn event s l c := by
  by_cases stepped : ∃ f t, μ.strideAt f event = some t
  · obtain ⟨f, t, stride⟩ := stepped
    by_cases here : t.scope = s
    · subst here
      obtain ⟨known, -⟩ := reachable.agrees_of_stride reachable.orderly stride
      obtain ⟨machine, after⟩ := machine_of_stride stride
      rw [after, Stride.result] at built
      rcases Machine.context?_stepRun known built with
        before | ⟨build, layer, rest, below, next, top, owning, todo, same⟩
      · rw [machine] at before
        exact .inl before
      · exact .inr ⟨f, t, stride, rfl, build, layer, rest, below, ⟨next, top⟩, owning, todo, same⟩
    · have tends := reachable.tends reachable.orderly stride
      rw [tends.runs s (Ne.symm here)] at built
      exact .inl built
  · rw [memo_of_still stepped] at built
    exact .inl built

/-- What is built in an event is there after it. -/
theorem Reachable.built_of_builtIn (reachable : Reachable μ) (here : μ.BuiltIn event s l c) :
    ((μ.apply event).machine.memo s).context? l = some c := by
  obtain ⟨f, t, stride, rfl, build, layer, rest, below, hands, owning, todo, rfl⟩ := here
  exact Memo.context?_eq_some_iff.2 (reachable.entry_of_hands stride hands owning todo)

/-- Nobody builds what has been built. -/
theorem Reachable.not_builtIn (reachable : Reachable μ)
    (built : (μ.machine.memo s).context? l = some c) : ¬ μ.BuiltIn event s l c' := by
  rintro ⟨f, t, stride, rfl, build, layer, rest, below, hands, owning, todo, rfl⟩
  obtain ⟨before, -, belongs⟩ := reachable.stacks_of_stride stride
  have idle := reachable.builds_of_built built belongs
  have owns : Frame.owns layer.id (.layers build : Frame σ) = true := by
    simp [Frame.owns, owning, todo]
  rw [builds, ← before, hands.2, List.countP_cons_of_pos owns] at idle
  cases idle

/-- One event builds a layer with one context. -/
theorem BuiltIn.unique (first : μ.BuiltIn event s l c) (second : μ.BuiltIn event s l c') :
    c = c' := by
  obtain ⟨f, t, stride, -, build, layer, rest, below, hands, -⟩ := first
  obtain ⟨g, u, stride', -, build', layer', rest', below', hands', -⟩ := second
  obtain ⟨-, rfl⟩ := stride_unique stride stride'
  simpa using hands.1.symm.trans hands'.1

/-- A layer that has been built at the end of a history was built then or before. -/
theorem Reachable.exists_builtIn (reachable : Reachable μ) {events : List (Event σ)}
    (nothing : (μ.machine.memo s).context? l = none)
    (built : ((μ.run events).machine.memo s).context? l = some c) :
    ∃ before event after, events = before ++ event :: after ∧
      (μ.run before).BuiltIn event s l c := by
  induction events using List.reverseRecOn with
  | nil => cases nothing.symm.trans built
  | append_singleton events event ih =>
      rw [run_append] at built
      rcases (reachable.run events).built_or_builtIn built with earlier | here
      · obtain ⟨before, first, after, rfl, builtIn⟩ := ih earlier
        exact ⟨before, first, after ++ [event], by simp, builtIn⟩
      · exact ⟨events, event, [], rfl, here⟩

/-- After a layer was built, it is not built again. -/
theorem Reachable.not_builtIn_later (reachable : Reachable μ) (here : μ.BuiltIn event s l c)
    (later : List (Event σ)) (event' : Event σ) :
    ¬ (μ.run (event :: later)).BuiltIn event' s l c' := by
  have stays := (reachable.apply event).built_stays (reachable.built_of_builtIn here) later
  exact ((reachable.apply event).run later).not_builtIn stays

/-- What has been built in a history was built once. -/
theorem Reachable.builtOnce (reachable : Reachable μ) {events : List (Event σ)}
    (nothing : (μ.machine.memo s).context? l = none)
    (built : ((μ.run events).machine.memo s).context? l = some c) :
    μ.BuiltOnce events s l c := by
  obtain ⟨before, event, after, rfl, here⟩ := reachable.exists_builtIn nothing built
  refine ⟨before, event, after, rfl, here, fun before' event' after' c' same other => ?_⟩
  -- the two events are one, as neither comes after the other
  rcases List.append_eq_append_iff.1 same with ⟨between, rfl, tail⟩ | ⟨between, rfl, tail⟩
  · cases between with
    | nil =>
        obtain ⟨rfl, -⟩ := List.cons.inj tail
        rw [List.append_nil] at other ⊢
        exact ⟨rfl, other.unique here⟩
    | cons first between =>
        obtain ⟨rfl, -⟩ := List.cons.inj tail
        rw [run_append] at other
        exact absurd other ((reachable.run before).not_builtIn_later here between event')
  · cases between with
    | nil =>
        obtain ⟨rfl, -⟩ := List.cons.inj tail
        rw [List.append_nil] at here ⊢
        exact ⟨rfl, other.unique here⟩
    | cons first between =>
        obtain ⟨rfl, -⟩ := List.cons.inj tail
        rw [run_append] at here
        exact absurd here ((reachable.run before').not_builtIn_later other between event)

end Moment

end EffectFibers
