import EffectFibers.Proofs.Coherence.Step
import EffectFibers.Proofs.Moment

/-!
# Reachable machines are coherent

A machine without fibers is coherent, and every event keeps it coherent.  Along the way two facts
can be held on to: the exit of a program that has ended is the exit that its fiber ends with, and
an answer stays with its fiber until the worker hands it over.

## Main statements

* `Moment.Reachable.coherent` – every reachable moment is coherent.
* `Moment.coherent_apply`, `Moment.coherent_run` – the same from a coherent moment on.
-/

namespace EffectFibers

variable {σ : Type}

namespace Moment

variable {μ : Moment σ} {promise kept : Option (FiberId × Exit)}

/-- What is open between two operations: the slice on the worker, or the step that was taken. -/
def focus (μ : Moment σ) (promise kept : Option (FiberId × Exit)) : Focus :=
  match μ.taken with
  | some (slice, control) => control.focus slice.fiber promise kept
  | none =>
    let held := μ.machine.running.map (·.fiber)
    { held, worker := held, promise, kept }

/-- A moment is coherent, and two facts hold that are held on to. -/
def IsCoherent (μ : Moment σ) (promise kept : Option (FiberId × Exit)) : Prop :=
  Coherent μ.machine.core (μ.focus promise kept)

theorem isCoherent_initial (world : World σ) (budget : Nat) :
    IsCoherent (initial world budget) none none := by
  have noView : ∀ {kind : IdentKind} {α β : Type} (p : α → β) (i : Ident kind),
      (Table.empty : Table kind α).view p i = none := fun p i => by simp [Table.view]
  have noFind : ∀ {kind : IdentKind} {α β : Type} (p : α → Option β) (i : Ident kind),
      (Table.empty : Table kind α).find p i = none := fun p i => by simp [Table.find]
  refine ⟨rfl, fun {f fiber} row => ?_, ?_, ?_, ?_, ?_, ?_⟩
  · cases (Table.get?_empty f).symm.trans row
  · have kin : (initial world budget).machine.core.kin = fun _ => none := funext (noView _)
    rw [kin]
    constructor <;> simp [Machine.core, initial, Machine.start, births, exits, exitsOf, focus]
  · have kin : (initial world budget).machine.core.kin = fun _ => none := funext (noView _)
    rw [kin]
    intro f k p row
    cases row
  · have task : (initial world budget).machine.core.task = fun _ => none := funext (noView _)
    rw [task]
    constructor <;> simp [Machine.core, initial, Machine.start, focus]
  · have owner : (initial world budget).machine.core.owner = fun _ => none := funext (noFind _)
    have sleeps : (initial world budget).machine.core.sleeps = fun _ => none := funext (noFind _)
    rw [owner, sleeps]
    constructor <;> simp [initial, Machine.start, focus]
  · have groups : (initial world budget).machine.core.groups.get? = fun _ => none :=
      funext Table.get?_empty
    have place : (initial world budget).machine.core.place = fun _ => none := funext (noFind _)
    have awaits : (initial world budget).machine.core.awaits = fun _ => none := funext (noFind _)
    rw [groups, place, awaits]
    constructor <;> simp [initial, Machine.start, focus]

/-- An event outside the worker keeps a moment coherent. -/
theorem isCoherent_of_outside (coherent : IsCoherent μ promise kept) {m : Machine σ}
    (after : ∀ φ, φ.settling = none → Coherent μ.machine.core φ → Coherent m.core φ) :
    IsCoherent { μ with machine := m } promise kept := by
  have settled : (μ.focus promise kept).settling = none := by
    unfold focus Control.focus
    split
    · split <;> rfl
    · rfl
  have coherent' := after _ settled coherent
  have same : focus { μ with machine := m } promise kept = μ.focus promise kept := by
    have worker := coherent'.worker
    unfold focus at worker ⊢
    simp only at worker ⊢
    split
    · rfl
    · rename_i none
      simp only [none] at worker
      rw [show m.running.map (·.fiber) = _ from worker]
  show Coherent m.core _
  rw [same]
  exact coherent'

/-- A callback of another thread keeps a machine coherent. -/
theorem coherent_receive {m : Machine σ} {φ : Focus} (coherent : Coherent m.core φ) :
    Coherent m.receive.core φ := by
  unfold Machine.receive
  split
  · exact coherent
  · rename_i w exit outside _
    exact Coherent.resumeCallback (m := { m with outside }) coherent w exit

/-- A timer keeps a machine coherent. -/
theorem coherent_fireNext {m : Machine σ} {φ : Focus} (coherent : Coherent m.core φ) :
    Coherent m.fireNext.core φ := by
  unfold Machine.fireNext
  split
  · refine Coherent.resume ?_ _ _
    exact coherent
  · exact coherent

/-- Taking a result keeps a machine coherent. -/
theorem coherent_takeResult {m : Machine σ} {φ : Focus} (coherent : Coherent m.core φ)
    (f : FiberId) : Coherent (m.takeResult f).2.core φ := by
  unfold Machine.takeResult
  split
  · split <;> exact coherent
  · exact coherent

/-- The answer that is held on to is not the one that the worker hands over next. -/
def Spares (μ : Moment σ) (kept : Option (FiberId × Exit)) : Prop :=
  match μ.taken with
  | some (slice, _) => ∀ y, kept ≠ some (slice.fiber, y)
  | none => μ.machine.running = none →
      ∀ f y, μ.machine.ready.toList.head? = some f → kept ≠ some (f, y)

/-- The worker's next operation keeps a moment coherent. -/
theorem isCoherent_work (coherent : IsCoherent μ promise kept) (spares : μ.Spares kept) :
    IsCoherent μ.work promise kept := by
  have rests : ∀ {m : Machine σ}, Coherent.Rests m promise kept →
      IsCoherent { machine := m } promise kept := by
    rintro m ⟨held, rests⟩
    have worker := rests.worker
    simp only [Machine.core] at worker
    show Coherent m.core (focus { machine := m } promise kept)
    simp only [focus, worker]
    exact rests
  unfold IsCoherent focus at coherent
  unfold Spares at spares
  unfold work
  cases taken : μ.taken with
  | some step =>
      obtain ⟨slice, control⟩ := step
      simp only [taken] at coherent spares ⊢
      exact rests (coherent.follow spares)
  | none =>
      simp only [taken] at coherent spares ⊢
      cases running : μ.machine.running with
      | none =>
          simp only [running, Option.map_none] at coherent spares ⊢
          exact rests (coherent.dispatch (spares trivial))
      | some slice =>
          simp only [running, Option.map_some] at coherent ⊢
          have free : Coherent { μ.machine with running := none }.core
              { held := some slice.fiber, promise, kept } := by
            obtain ⟨-, shaped, family, heirs, agenda, waiting, seating⟩ := coherent
            exact ⟨rfl, shaped, family, heirs, agenda, waiting, seating⟩
          exact free.stepRun slice.run

/-- An event keeps a moment coherent. -/
theorem isCoherent_apply (coherent : IsCoherent μ promise kept) (event : Event σ)
    (spares : event = .work → μ.Spares kept) : IsCoherent (μ.apply event) promise kept := by
  cases event with
  | start node => exact isCoherent_of_outside coherent fun _ settled h => h.startRoot settled node
  | request request => exact isCoherent_of_outside coherent fun _ _ h => h.serve request
  | host change => exact isCoherent_of_outside coherent fun _ _ h => h
  | receive => exact isCoherent_of_outside coherent fun _ _ h => coherent_receive h
  | fire => exact isCoherent_of_outside coherent fun _ _ h => coherent_fireNext h
  | elapse instant => exact isCoherent_of_outside coherent fun _ _ h => h
  | takeResult f => exact isCoherent_of_outside coherent fun _ _ h => coherent_takeResult h f
  | work => exact isCoherent_work coherent (spares rfl)

/-- Every reachable moment is coherent. -/
theorem Reachable.isCoherent (reachable : Reachable μ) : IsCoherent μ none none := by
  induction reachable with
  | initial world budget => exact isCoherent_initial world budget
  | apply event _ ih =>
      refine isCoherent_apply ih event fun _ => ?_
      unfold Spares
      split <;> simp

/-- The exit of a program that has ended stays what it is. -/
theorem isCoherent_run (coherent : IsCoherent μ promise none) (events : List (Event σ)) :
    IsCoherent (μ.run events) promise none := by
  induction events generalizing μ with
  | nil => exact coherent
  | cons event events ih =>
      refine ih (isCoherent_apply coherent event fun _ => ?_)
      unfold Spares
      split <;> simp

/-! ## What coherence says between two operations -/

/-- The wait that the fiber on the worker has opened, and the group that it has started. -/
def asking (μ : Moment σ) : Option WaitId := (μ.focus none none).asking

def opening (μ : Moment σ) : Option GroupId := (μ.focus none none).opening

theorem family_of_isCoherent (coherent : IsCoherent μ promise kept) :
    Family μ.machine.core.kin (births μ.machine.record) (exits μ.machine.record) none none []
      promise := by
  have family := coherent.family
  unfold focus Control.focus at family
  split at family
  · split at family <;> exact family
  · exact family

/-- A mark reaches the live children of a fiber in every coherent moment. -/
theorem heirs_of_isCoherent (coherent : IsCoherent μ promise kept) :
    Heirs μ.machine.core.kin μ.machine.core.marked [] := by
  have heirs := coherent.heirs
  unfold focus Control.focus at heirs
  split at heirs
  · split at heirs <;> exact heirs
  · exact heirs

theorem agenda_of_isCoherent (coherent : IsCoherent μ promise kept) :
    Agenda μ.machine.core.task μ.machine.ready.toList [] μ.held none := by
  have agenda := coherent.agenda
  unfold focus Control.focus at agenda
  unfold held
  cases taken : μ.taken with
  | none =>
      rw [taken] at agenda
      exact agenda
  | some step =>
      obtain ⟨slice, control⟩ := step
      rw [taken] at agenda
      dsimp only at agenda
      split at agenda <;> exact agenda

theorem waiting_of_isCoherent (coherent : IsCoherent μ promise kept) :
    Waiting μ.machine.core.owner μ.machine.core.sleeps μ.machine.core.input μ.held μ.asking
      kept := by
  have waiting := coherent.waiting
  unfold asking
  unfold focus Control.focus at waiting ⊢
  unfold held
  cases taken : μ.taken with
  | none =>
      rw [taken] at waiting
      exact waiting
  | some step =>
      obtain ⟨slice, control⟩ := step
      rw [taken] at waiting
      dsimp only at waiting ⊢
      split at waiting <;> exact waiting

theorem seating_of_isCoherent (coherent : IsCoherent μ promise kept) :
    Seating μ.machine.groups.get? μ.machine.core.parent μ.machine.core.place μ.machine.core.live
      μ.machine.core.awaits μ.held μ.opening none none none := by
  have seating := coherent.seating
  unfold opening
  unfold focus Control.focus at seating ⊢
  unfold held
  cases taken : μ.taken with
  | none =>
      rw [taken] at seating
      exact seating
  | some step =>
      obtain ⟨slice, control⟩ := step
      rw [taken] at seating
      dsimp only at seating ⊢
      split at seating <;> exact seating

end Moment

end EffectFibers
