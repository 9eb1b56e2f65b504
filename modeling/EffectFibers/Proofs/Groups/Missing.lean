import EffectFibers.Proofs.Groups.Gathering

/-!
# Missing results

As long as a result is missing among those of many effects at once, a child runs that will bring it,
or waits for its place; unless there was a failure, after which no result counts.  So when nothing
is left to do, no result is missing.

## Main definitions

* `Gathering.Conclusive` – the exit of the group is put together without a gap.
* `Gathering.Accounted` – every missing result is that of a child.

## Main statements

* `Gathering.Accounted.settle`, `Gathering.Accounted.filled` – exits come, and children start.
* `Gathering.Accounted.conclusive` – when nothing is left to do, every result is there.
-/

namespace EffectFibers

variable {σ : Type}

/-- The places of new members are those of their nodes. -/
theorem Machine.map_fst_newMembers (size : Nat) (nodes : List (Nat × Node σ)) :
    (newMembers size nodes).map (·.1) = nodes.map (·.1) := by
  induction nodes generalizing size with
  | nil => rfl
  | cons node nodes ih => rw [newMembers, List.map_cons, List.map_cons, ih]

namespace Gathering

variable {all : Gathering σ}

/-- An exit after which there is no failure has brought a result. -/
theorem settle_of_calm {i : Nat} {x : Exit} {late : Bool}
    (calm : (all.settle i x late).2.failure = none) :
    all.failure = none ∧ (all.settle i x late).2.queue = all.queue ∧
      ∃ result, (all.settle i x late).2.results = all.results.set i (some result) := by
  obtain ⟨parent, context, queue, running, results, failure, limit, mode⟩ := all
  unfold Gathering.settle Gathering.fail at *
  cases x with
  | ok v =>
      cases late <;> cases failure <;> simp_all
      exact ⟨_, rfl⟩
  | error cause =>
      cases cause <;> cases mode <;> cases late <;> cases failure <;> simp_all
      exact ⟨_, rfl⟩

/-- The exit of many effects at once is the first failure, or has a result for each of them. -/
def Conclusive (all : Gathering σ) : Prop :=
  (∃ cause, all.failure = some cause ∧ all.outcome = .error cause) ∨
    ∃ results : List (Except Failure Value),
      all.results = results.map some ∧ all.outcome = .ok (.list (results.map .result))

/-- Unless there was a failure, a child runs or waits for its place wherever a result is missing. -/
def Accounted (all : Gathering σ) : Prop :=
  all.failure = none → ∀ i, all.results[i]? = some none →
    i ∈ all.running.map (·.1) ∨ i ∈ all.queue.map (·.1)

namespace Accounted

/-- The exit of a child brings its result, or it is a failure. -/
theorem settle (accounted : all.Accounted) (i : Nat) (x : Exit) (late : Bool) :
    (all.settle i x late).2.Accounted := by
  intro calm j missing
  obtain ⟨before, queue, result, results⟩ := settle_of_calm calm
  obtain ⟨running, -⟩ := all.settle_cases i x late
  -- the place of the child that has ended is no gap any more
  have other : i ≠ j := by
    rintro rfl
    simp [results, List.getElem?_set] at missing
  rw [results, List.getElem?_set_ne other] at missing
  rw [queue, running]
  refine (accounted before j missing).imp_left fun runs => ?_
  obtain ⟨child, listed, rfl⟩ := List.mem_map.1 runs
  exact List.mem_map.2 ⟨child, List.mem_filter.2 ⟨listed, by simpa using other.symm⟩, rfl⟩

theorem filled (accounted : all.Accounted) (size : Nat) :
    (all.filled (all.next size)).Accounted := by
  intro calm i missing
  rcases accounted calm i missing with runs | waits
  · exact .inl (by simp [Gathering.filled, runs])
  · -- those that have waited either run now or still wait
    have split := List.take_append_drop (all.limit - all.running.length) all.queue
    rw [← split, List.map_append, List.mem_append] at waits
    refine waits.imp (fun next => ?_) id
    rw [Gathering.filled, List.map_append, Gathering.next, Machine.map_fst_newMembers]
    exact List.mem_append_right _ next

/-- Before any child has started, each waits for its place. -/
theorem of_numbered {nodes : List (Node σ)} (queue : all.queue = Machine.numbered nodes)
    (length : all.results.length = nodes.length) : all.Accounted := by
  intro _ i missing
  obtain ⟨inside, -⟩ := List.getElem?_eq_some_iff.1 missing
  have known : i < nodes.length := length ▸ inside
  refine .inr (List.mem_map.2 ⟨(i, nodes[i]), ?_, rfl⟩)
  rw [queue]
  exact List.mem_mapIdx.2 ⟨i, known, rfl⟩

/-- When nothing is left to do, every result is there, unless there was a failure. -/
theorem conclusive (accounted : all.Accounted) (done : all.isDone = true) : all.Conclusive := by
  cases calm : all.failure with
  | some cause => exact .inl ⟨cause, calm, by simp [outcome, calm]⟩
  | none =>
      obtain ⟨idle, empty⟩ : all.running = [] ∧ all.queue = [] := by simpa [isDone] using done
      have full : none ∉ all.results := by
        intro gap
        obtain ⟨i, missing⟩ := List.mem_iff_getElem?.1 gap
        rcases accounted calm i missing with runs | waits
        · simp [idle] at runs
        · simp [empty] at waits
      obtain ⟨results, same⟩ := exists_all_some full
      exact .inr ⟨results, same, by simp only [outcome, calm, same, mapM_id_map_some]⟩

end Accounted

end Gathering

end EffectFibers
