import EffectFibers.Proofs.Endings.Acts

/-!
# The end of a fiber, step by step

When a fiber ends, its observers are told one after the other, and one of them may be its parent,
which ends in the midst of this with observers of its own.  So at any time there is a stack of
fibers that have ended, the last one first, with the observers that are still to be told.  A small
step tells the next of them.

What a small step keeps is kept by the end of a fiber and of all the fibers above it that end with
it.

## Main definitions

* `Machine.leave` – a fiber ends, before anybody is told.
* `Passing` – a machine in the midst of an end.
* `Passing.Step` – the next observer is told.

## Main statements

* `Passing.Sound.step` – a small step keeps a machine coherent.
* `Passing.steps_completeWithin` – the end of a fiber is made of small steps.
-/

namespace EffectFibers

variable {σ : Type}

/-- A fiber ends: its row is closed, its parent forgets it, and its reader gets the exit.  Nobody
has been told yet. -/
def Machine.leave (m : Machine σ) (f : FiberId) (fiber : Fiber σ) (x : Exit) : Machine σ :=
  (((m.modifyFiber f fun fiber => fiber.ended x).trace (.exited f x)).detach f
    fiber.parent).handOver f fiber.reader x

/-- A machine in the midst of an end: the acts so far, the machine, and the fibers that have ended,
the last one first, with the observers that are still to be told. -/
structure Passing (σ : Type) where
  log : Log
  machine : Machine σ
  owed : List (FiberId × List Observer)

namespace Passing

/-- A fiber ends, on top of others. -/
def enter (log : Log) (m : Machine σ) (f : FiberId) (fiber : Fiber σ) (x : Exit)
    (owed : List (FiberId × List Observer)) : Passing σ where
  log := log ++ .about f (.ends x :: fiber.reader.acts x)
  machine := m.leave f fiber x
  owed := (f, fiber.observers) :: owed

/-- The next observer is told. -/
inductive Step : Passing σ → Passing σ → Prop
  | tells {log m f w how rest owed} : Step ⟨log, m, (f, .watcher w how :: rest) :: owed⟩
      ⟨log ++ m.tellActs f (.watcher w how), m.tellWatcher f w how, (f, rest) :: owed⟩
  /-- An ending fiber hears of the end of a child, and has others to wait for. -/
  | counts {log m n f p rest owed} (counted : m.childGone p = (none, n)) :
    Step ⟨log, m, (f, .closing p :: rest) :: owed⟩
      ⟨log ++ m.tellActs f (.closing p), n, (f, rest) :: owed⟩
  /-- An ending fiber hears of the end of its last child, and ends. -/
  | closes {log m n f p x fiber rest owed} (counted : m.childGone p = (some x, n))
      (row : n.fiber? p = some fiber) :
    Step ⟨log, m, (f, .closing p :: rest) :: owed⟩
      (enter (log ++ m.tellActs f (.closing p)) n p fiber x ((f, rest) :: owed))
  /-- All observers of a fiber have been told. -/
  | settled {log m f owed} : Step ⟨log, m, (f, []) :: owed⟩ ⟨log, m, owed⟩

/-- Several small steps. -/
def Steps : Passing σ → Passing σ → Prop := Relation.ReflTransGen Step

/-- All observers that are still to be told. -/
def debts (s : Passing σ) : List Observer := s.owed.flatMap (·.2)

/-- In the midst of an end a machine is coherent, but for the ending fiber that is to hear of it;
and there is at most one such fiber.  An answer that is `kept` is still there. -/
structure Sound (kept : Option (FiberId × Exit)) (s : Passing σ) : Prop where
  coherent : Coherent s.machine.core { late := Coherent.asker s.debts, kept }
  few : (s.debts.filterMap Observer.asker?).length ≤ 1

namespace Sound

variable {kept : Option (FiberId × Exit)} {s s' : Passing σ} {m : Machine σ} {f : FiberId}
  {fiber : Fiber σ} {x : Exit}

/-- A fiber ends that has nothing left to do but to end, and nobody else is to hear of an end. -/
theorem enter {owed : List (FiberId × List Observer)} {log : Log}
    (coherent : Coherent m.core { leaving := some f, kept }) (ends : Coherent.Ends m.core f)
    (row : m.fiber? f = some fiber)
    (others : (owed.flatMap (·.2)).filterMap Observer.asker? = []) :
    Sound kept (Passing.enter log m f fiber x owed) := by
  obtain ⟨fiber', row', running, unsaved, silent⟩ := ends
  obtain rfl := Option.some.inj (row.symm.trans row')
  have unpromised : ∀ y, (none : Option (FiberId × Exit)) = some (f, y) → y = x := nofun
  have handed := coherent.handed_of_ends row running unsaved silent unpromised (.inl rfl)
  have live : fiber.verdict = none := by
    simp [Fiber.verdict, running, FiberStatus.isTerminal]
  have heard := coherent.heard_of_row row live (Nat.le_succ f.raw)
  have debts : (Passing.enter log m f fiber x owed).debts.filterMap Observer.asker? =
      fiber.observers.filterMap Observer.asker? := by
    simp only [Passing.enter, Passing.debts, List.flatMap_cons, List.filterMap_append]
    rw [others, List.append_nil]
  refine ⟨?_, debts ▸ heard.1⟩
  rw [Coherent.asker, debts]
  exact handed

/-- A small step keeps a machine coherent. -/
theorem step (sound : Sound kept s) (step : Step s s') : Sound kept s' := by
  obtain ⟨coherent, few⟩ := sound
  cases step with
  | tells => exact ⟨coherent.tellWatcher _ _ _, few⟩
  | @counts log m n f p rest owed counted =>
      have none : (rest ++ owed.flatMap (·.2)).filterMap Observer.asker? = [] := by
        simpa [Passing.debts, Observer.asker?] using few
      have heard := Coherent.childGone (p := p) coherent counted
      have debts : Passing.debts ⟨log ++ m.tellActs f (.closing p), n, (f, rest) :: owed⟩ =
          rest ++ owed.flatMap (·.2) := rfl
      refine ⟨?_, by rw [debts, none]; exact Nat.zero_le 1⟩
      rw [Coherent.asker, debts, none]
      exact heard
  | @closes log m n f p x fiber rest owed counted row =>
      have none : (rest ++ owed.flatMap (·.2)).filterMap Observer.asker? = [] := by
        simpa [Passing.debts, Observer.asker?] using few
      obtain ⟨leaving, -, ends⟩ := Coherent.childGone (p := p) coherent counted
      exact enter leaving ends row none
  | settled => exact ⟨coherent, few⟩

theorem steps (sound : Sound kept s) (steps : Steps s s') : Sound kept s' := by
  induction steps with
  | refl => exact sound
  | tail _ next ih => exact ih.step next

end Sound

/-! ## The end of a fiber is made of small steps -/

section

variable {m : Machine σ} {f : FiberId} {fiber : Fiber σ}

/-- The observers of a fiber are told in small steps, if the fibers that may hear are not too
young. -/
theorem steps_tell {height : Nat} {log : Log}
    {owed : List (FiberId × List Observer)} {observers : List Observer} (sofar : Log × Machine σ)
    (above : ∀ {n : Machine σ} {p : FiberId} {fiber : Fiber σ} (x : Exit) (log owed),
      Coherent n.core { leaving := some p } → p.raw ≤ height → Coherent.Ends n.core p →
      n.fiber? p = some fiber →
      Steps (enter log n p fiber x owed) ⟨log ++ (Machine.completeLogged height n p x).1,
        n.completeWithin height p x, owed⟩)
    (coherent : Coherent sofar.2.core { late := Coherent.asker observers })
    (heard : Coherent.Heard height observers) :
    Steps ⟨log ++ sofar.1, sofar.2, (f, observers) :: owed⟩
      ⟨log ++ (observers.foldl (Machine.tellLogged (Machine.completeLogged height) f) sofar).1,
        (observers.foldl (Machine.tellLogged (Machine.completeLogged height) f) sofar).2,
        owed⟩ := by
  induction observers generalizing sofar with
  | nil => exact .single .settled
  | cons observer observers ih =>
      obtain ⟨told, heard'⟩ := Coherent.tell_observer (f := f)
        (fun leaving low last same => leaving.completeWithin height low last same (.inl rfl))
        coherent heard
      have machine := Machine.tellLogged_machine (Machine.completeLogged_machine height) f sofar
        observer
      rw [← machine] at told
      have rest := ih _ told heard'
      refine Relation.ReflTransGen.trans ?_ rest
      obtain ⟨acts, n⟩ := sofar
      cases observer with
      | watcher w how =>
          have next : Step ⟨log ++ acts, n, (f, .watcher w how :: observers) :: owed⟩ _ := .tells
          rw [List.append_assoc] at next
          exact .single next
      | closing p =>
          have late : Coherent n.core { late := some p } := by
            simpa [Coherent.asker, Observer.asker?] using coherent
          unfold Machine.tellLogged
          cases counted : n.childGone p with
          | mk exit n' =>
          have outcome := Coherent.childGone late counted
          simp only [counted]
          cases exit with
          | none =>
              have next : Step ⟨log ++ acts, n, (f, .closing p :: observers) :: owed⟩ _ :=
                .counts counted
              rw [List.append_assoc] at next
              exact .single next
          | some x =>
              obtain ⟨leaving, -, ends⟩ := outcome
              obtain ⟨parent, row, -⟩ := id ends
              have row' : n'.fiber? p = some parent := row
              have low : p.raw ≤ height := heard.2 p (by simp [Observer.asker?])
              have next : Step ⟨log ++ acts, n, (f, .closing p :: observers) :: owed⟩ _ :=
                .closes counted row'
              have ended := above x (log ++ acts ++ n.tellActs f (.closing p))
                ((f, observers) :: owed) leaving low ends row'
              rw [← Machine.completeLogged_machine] at ended
              simp only [List.append_assoc] at next ended ⊢
              exact Relation.ReflTransGen.head next ended

/-- The end of a fiber, and perhaps of some of the fibers above it, is made of small steps. -/
theorem steps_completeWithin {height : Nat} {x : Exit} {log : Log}
    {owed : List (FiberId × List Observer)}
    (coherent : Coherent m.core { leaving := some f }) (enough : f.raw ≤ height)
    (ends : Coherent.Ends m.core f) (row : m.fiber? f = some fiber) :
    Steps (enter log m f fiber x owed)
      ⟨log ++ (Machine.completeLogged height m f x).1, m.completeWithin height f x, owed⟩ := by
  induction height generalizing m f fiber x log owed with
  | zero =>
      -- there is no fiber without a number
      obtain ⟨raw⟩ := f
      obtain rfl : raw = 0 := Nat.le_zero.1 enough
      cases row
  | succ height ih =>
      have sound : Sound none (enter log m f fiber x []) := .enter coherent ends row rfl
      obtain ⟨fiber', row', running, -⟩ := ends
      obtain rfl := Option.some.inj (row.symm.trans row')
      have live : fiber.verdict = none := by
        simp [Fiber.verdict, running, FiberStatus.isTerminal]
      have heard := coherent.heard_of_row row live enough
      have told := sound.coherent
      rw [Passing.debts, Passing.enter, List.flatMap_singleton] at told
      rw [← Machine.completeLogged_machine]
      simp only [Machine.completeLogged, row]
      exact steps_tell (.about f (.ends x :: fiber.reader.acts x), m.leave f fiber x)
        (fun _ _ _ leaving low last row => ih leaving low last row) told heard

/-- A fiber ends, and nobody else is ending. -/
theorem steps_complete (coherent : Coherent m.core { leaving := some f })
    (ends : Coherent.Ends m.core f) (row : m.fiber? f = some fiber) (x : Exit) (log : Log) :
    Steps (enter log m f fiber x [])
      ⟨log ++ (Machine.completeLogged (m.fibers.size + 1) m f x).1, m.complete f x, []⟩ :=
  steps_completeWithin coherent (Nat.le_of_lt (Table.raw_lt_nextId row)) ends row

end

end Passing

namespace Moment

variable {μ : Moment σ} {slice : Slice σ} {x : Exit}

/-- The program of the fiber on the worker has an exit. -/
theorem holds_of_finish (coherent : IsCoherent μ none none)
    (taken : μ.taken = some (slice, .finish x)) :
    Coherent μ.machine.core { held := some slice.fiber } := by
  unfold IsCoherent focus at coherent
  rw [taken] at coherent
  exact coherent

/-- A program has an exit, and its fiber has no live child: then the event is made of small
steps. -/
theorem passing_of_finish (coherent : IsCoherent μ none none)
    (taken : μ.taken = some (slice, .finish x)) {fiber : Fiber σ}
    (row : μ.machine.fiber? slice.fiber = some fiber) (alone : fiber.children = []) (log : Log) :
    Coherent μ.machine.core { leaving := some slice.fiber } ∧
      Coherent.Ends μ.machine.core slice.fiber ∧
      Passing.Steps (.enter log μ.machine slice.fiber fiber x [])
        ⟨log ++ μ.actsAt .work, (μ.apply .work).machine, []⟩ := by
  obtain ⟨leaving, ends⟩ := (holds_of_finish coherent taken).leave_of_held row alone
  have acts : μ.actsAt .work =
      (Machine.completeLogged (μ.machine.fibers.size + 1) μ.machine slice.fiber x).1 := by
    simp only [actsAt, taken, Machine.finishActs, row, Option.map_some, Option.getD_some, alone,
      List.isEmpty_nil, if_true]
  have work : (μ.apply .work).machine = μ.machine.complete slice.fiber x := by
    simp only [apply, work, taken, Machine.follow, Machine.finish, row, Option.map_some,
      Option.getD_some, alone, List.isEmpty_nil, if_true]
  rw [acts, work]
  exact ⟨leaving, ends, Passing.steps_complete leaving ends row x log⟩

end Moment

end EffectFibers
