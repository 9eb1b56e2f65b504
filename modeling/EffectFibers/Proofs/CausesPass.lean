import EffectFibers.Proofs.Finalizers
import EffectFibers.Proofs.Layers.Steps
import EffectFibers.Proofs.Meaning.Run

/-!
# Defects and interrupts are not caught

A defect or an interrupt that is handed to a stack goes down to its end.  Handlers and retries take
failures only, continuations and repetitions take values only, and layers hand on the cause after
they have told whoever waits for them.  A finalizer does come in between, and may do anything; but
it runs above a frame that keeps the cause, and whatever the finalizer ends with, the frame hands on
what it has kept.  Nothing takes the place of a cause that is about to be handed on, since an
interrupt takes the place of evaluations only.

The one frame that could replace a cause is one that already keeps another, which has come first.

## Main definitions

* `Stride.PassesOn`, `Stride.Finalizes` – a step hands on the cause, or belongs to a finalizer.
* `Moment.CausePasses` – what is known about a cause on its way through a stack.

## Main statements

* `Machine.resumeFrame_of_uncaught` – one frame hands on the cause.
* `Moment.Reachable.causes_are_not_caught` – so does the whole stack.
-/

namespace EffectFibers

variable {σ : Type}

/-! ## One frame -/

/-- A frame that calls user code, or asks a schedule, when some exit reaches it. -/
def Frame.calls : Frame σ → Bool
  | .flatMap _ | .recover _ | .retry .. | .repeated .. => true
  | _ => false

namespace Machine

variable {m : Machine σ} {f : FiberId} {scope : ScopeId} {run : RunState σ} {frame : Frame σ}
  {cause : Cause Failure}

/-- No user code is called with a defect or an interrupt, and no schedule is asked. -/
theorem resumeFrame_of_calls (calls : frame.calls = true)
    (uncaught : ∀ failure, cause ≠ .fail failure) :
    m.resumeFrame f scope run frame (.error cause) =
      { control := .done (.error cause), run, machine := m } := by
  cases frame with
  | flatMap next => rfl
  | repeated source schedule attempt => rfl
  | recover handler =>
      cases cause with
      | fail failure => exact absurd rfl (uncaught failure)
      | _ => rfl
  | retry source schedule attempt =>
      cases cause with
      | fail failure => exact absurd rfl (uncaught failure)
      | _ => rfl
  | _ => cases calls

theorem resumeLayers_of_uncaught {build : LayerBuild σ} (listed : (Frame.layers build).Listed)
    (uncaught : ∀ failure, cause ≠ .fail failure) :
    (m.resumeLayers f scope run build (.error cause)).control = .done (.error cause) ∧
      (m.resumeLayers f scope run build (.error cause)).run.stack = run.stack := by
  unfold resumeLayers
  split
  · rename_i owning
    split
    · rename_i nothing
      exact absurd nothing (listed build rfl owning)
    · cases cause with
      | fail failure => exact absurd rfl (uncaught failure)
      | _ => exact ⟨rfl, rfl⟩
  · exact ⟨rfl, rfl⟩

/-- A frame hands on a defect or an interrupt, unless it has a finalizer, or keeps another cause. -/
theorem resumeFrame_of_uncaught (uncaught : ∀ failure, cause ≠ .fail failure)
    (plain : ∀ finalizer, frame ≠ .ensuring finalizer)
    (unsaved : ∀ saved, frame ≠ .finalizing (.error saved)) (listed : frame.Listed) :
    (m.resumeFrame f scope run frame (.error cause)).control = .done (.error cause) ∧
      (m.resumeFrame f scope run frame (.error cause)).run.stack = run.stack := by
  by_cases calls : frame.calls = true
  · rw [resumeFrame_of_calls calls uncaught]
    exact ⟨rfl, rfl⟩
  · cases frame with
    | ensuring finalizer => exact absurd rfl (plain finalizer)
    | finalizing earlier =>
        cases earlier with
        | error saved => exact absurd rfl (unsaved saved)
        | ok v => exact ⟨rfl, rfl⟩
    | layers build => exact resumeLayers_of_uncaught listed uncaught
    | regionEnd => exact ⟨rfl, rfl⟩
    | restore context => exact ⟨rfl, rfl⟩
    | spanEnd => exact ⟨rfl, rfl⟩
    | _ => exact absurd rfl calls

end Machine

/-! ## The way through a stack -/

namespace Stride

/-- A step hands a cause to one of the frames of a stack, or ends the program with it. -/
def PassesOn (s : Stride σ) (cause : Cause Failure) (stack : List (Frame σ)) : Prop :=
  ∃ below, below <:+ stack ∧ s.Hands below (.error cause)

/-- A step belongs to a finalizer of a stack, which runs above a frame that keeps a cause. -/
def Finalizes (s : Stride σ) (cause : Cause Failure) (stack : List (Frame σ)) : Prop :=
  ∃ finalizer below, .ensuring finalizer :: below <:+ stack ∧
    .finalizing (.error cause) :: below <:+ s.slice.run.stack

variable {s : Stride σ} {cause : Cause Failure} {frame : Frame σ} {below stack : List (Frame σ)}

theorem PassesOn.mono (passes : s.PassesOn cause below) (suffix : below <:+ stack) :
    s.PassesOn cause stack := by
  obtain ⟨lower, short, hands⟩ := passes
  exact ⟨lower, short.trans suffix, hands⟩

theorem Finalizes.mono (finalizes : s.Finalizes cause below) (suffix : below <:+ stack) :
    s.Finalizes cause stack := by
  obtain ⟨finalizer, lower, short, above⟩ := finalizes
  exact ⟨finalizer, lower, short.trans suffix, above⟩

end Stride

namespace Moment

variable {μ : Moment σ} {f : FiberId} {run : RunState σ} {cause : Cause Failure}
  {stack below : List (Frame σ)} {frame : Frame σ} {events : List (Event σ)} {x : Exit}

/-! ## A program that has its exit -/

theorem Reachable.strides_of_gone (reachable : Reachable μ) (position : μ.position? f = some .gone)
    (events : List (Event σ)) : strides f μ events = [] := by
  induction events generalizing μ with
  | nil => rfl
  | cons event events ih =>
      have still : μ.strideAt f event = none :=
        reachable.still_of_unready (fun _ ready => nomatch ready.symm.trans position) event
      obtain ⟨p, position', moves⟩ := reachable.moves position still
      cases moves
      simp [strides, still, ih (reachable.apply event) position']

/-- A program that has its exit takes no more steps, and its fiber ends with this exit. -/
theorem Reachable.finished_run (reachable : Reachable μ)
    (position : μ.position? f = some (.stepped run (.finish x) none)) (events : List (Event σ)) :
    strides f μ events = [] ∧
      (((μ.run events).machine.status f).isTerminal = true → (μ.run events).EndedWith f x) := by
  induction events generalizing μ with
  | nil =>
      have live := live_of_rest? reachable.isCoherent (rest?_of_position position)
      exact ⟨rfl, fun gone => nomatch gone.symm.trans live⟩
  | cons event events ih =>
      have still : μ.strideAt f event = none :=
        reachable.still_of_unready (fun _ ready => nomatch ready.symm.trans position) event
      obtain ⟨p, position', moves⟩ := reachable.moves position still
      simp only [strides, still, Option.toList_none, List.nil_append, run_cons]
      cases moves with
      | stays => exact ih (reachable.apply event) position'
      | ends =>
          obtain ⟨rfl, slice, taken, rfl⟩ := ending_of_gone position position'
          refine ⟨(reachable.apply .work).strides_of_gone position' events, fun gone => ?_⟩
          cases reachable.concluded taken events with
          | draining row live _ _ _ _ =>
              rw [Coherent.status_of_row row, live] at gone
              cases gone
          | ended row status once => exact ⟨_, row, status, once⟩

/-! ## The course of a cause -/

/-- In a run that begins when a cause is about to be handed to a stack, the fiber ends with the
cause, and until then every step hands on the cause or belongs to a finalizer. -/
structure CausePasses (f : FiberId) (cause : Cause Failure) (stack : List (Frame σ))
    (μ : Moment σ) (events : List (Event σ)) : Prop where
  ends : ((μ.run events).machine.status f).isTerminal = true →
    (μ.run events).EndedWith f (.error cause)
  steps : ∀ s ∈ strides f μ events, s.PassesOn cause stack ∨ s.Finalizes cause stack

/-- A fiber that lives has not ended with anything. -/
theorem CausePasses.of_live (live : ((μ.run events).machine.status f).isTerminal = false)
    (steps : ∀ s ∈ strides f μ events, s.PassesOn cause stack ∨ s.Finalizes cause stack) :
    CausePasses f cause stack μ events :=
  ⟨fun gone => (nomatch gone.symm.trans live), steps⟩

/-- After some steps the cause goes on through what is left of the stack. -/
theorem CausePasses.onward {before after : List (Event σ)} {s : Stride σ}
    (steps : ∀ s ∈ strides f μ before, s.PassesOn cause stack ∨ s.Finalizes cause stack)
    (step : (μ.run before).strideAt f .work = some s)
    (last : s.PassesOn cause stack ∨ s.Finalizes cause stack) (suffix : below <:+ stack)
    (later : CausePasses f cause below ((μ.run before).apply .work) after) :
    CausePasses f cause stack μ (before ++ .work :: after) where
  ends := by
    rw [run_append, run_cons]
    exact later.ends
  steps t taken := by
    rw [strides_append, strides, step, Option.toList_some, List.singleton_append] at taken
    rcases List.mem_append.1 taken with first | second
    · exact steps t first
    · rcases List.mem_cons.1 second with rfl | third
      · exact last
      · exact (later.steps t third).imp (·.mono suffix) (·.mono suffix)

/-- The step that ends a program. -/
theorem Reachable.cause_ends (reachable : Reachable μ) {s : Stride σ}
    (step : μ.strideAt f .work = some s) (hands : s.Hands [] (.error cause))
    (events : List (Event σ)) : CausePasses f cause [] (μ.apply .work) events := by
  obtain ⟨-, -, answer, stepped, silent⟩ := reachable.stride step
  have finishes : s.result =
      { control := .finish (.error cause), run := s.slice.run, machine := s.machine } := by
    rw [Stride.result, Machine.stepRun_over hands.1 hands.2]
  obtain rfl := silent (by simp [finishes])
  rw [finishes] at stepped
  obtain ⟨none, ends⟩ := (reachable.apply .work).finished_run stepped events
  exact ⟨ends, by simp [none]⟩

/-- A finalizer begins.  When it has ended, the cause goes on. -/
theorem Reachable.cause_finalizes (reachable : Reachable μ) {s : Stride σ} {finalizer : Node σ}
    (step : μ.strideAt f .work = some s)
    (hands : s.Hands (.ensuring finalizer :: below) (.error cause))
    (onward : ∀ {ν : Moment σ} {run events}, Reachable ν → ν.Next f run →
      run.next = .done (.error cause) → run.stack = below → CausePasses f cause below ν events)
    (events : List (Event σ)) :
    CausePasses f cause (.ensuring finalizer :: below) (μ.apply .work) events := by
  have reachable' := reachable.apply .work
  have started := reachable.next_of_stride step
    (congrArg StepResult.control (result_of_hands_ensuring hands))
  rw [result_of_hands_ensuring hands] at started
  have above : (μ.apply .work).Above f (.finalizing (.error cause) :: below) :=
    started.above (List.suffix_refl _)
  have finalizes : ∀ t : Stride σ, .finalizing (.error cause) :: below <:+ t.slice.run.stack →
      t.Finalizes cause (.ensuring finalizer :: below) :=
    fun t higher => ⟨finalizer, below, List.suffix_refl _, higher⟩
  rcases reachable'.steady_or_reached above events with
    steady | ⟨during, after, t, y, rfl, steady, step', hands'⟩
  · refine .of_live (reachable'.live_of_steady steady) fun t taken => .inr (finalizes t ?_)
    exact reachable'.suffix_of_steady steady taken
  · -- the frame hands on what it has kept
    obtain ⟨goes, top⟩ := result_of_hands_finalizing hands'
    have next := (reachable'.run during).next_of_stride step' goes
    have kept : outcome (.error cause) y = .error cause := by cases y <;> rfl
    refine .onward (fun u taken => .inr (finalizes u ?_)) step' (.inr (finalizes t ?_))
      (List.suffix_cons _ _) ?_
    · exact reachable'.suffix_of_steady steady taken
    · exact hands'.2 ▸ List.suffix_refl _
    · exact onward ((reachable'.run during).apply .work) next (congrArg Step.done kept) top

/-- A cause goes through a stack. -/
theorem Reachable.cause_passes (reachable : Reachable μ) (next : μ.Next f run)
    (handed : run.next = .done (.error cause)) (top : run.stack = stack)
    (uncaught : ∀ failure, cause ≠ .fail failure)
    (unsaved : ∀ saved, .finalizing (.error saved) ∉ stack) (events : List (Event σ)) :
    CausePasses f cause stack μ events := by
  have firm : ∀ {run : RunState σ}, run.next = .done (.error cause) → run.Firm :=
    fun handed node here => nomatch handed.symm.trans here
  -- frame by frame, from the top of the stack down
  induction stack generalizing μ run events with
  | nil =>
      rcases reachable.firm_run next (firm handed) events with
        ⟨none, next'⟩ | ⟨before, after, s, rfl, none, -, step, same⟩
      · exact .of_live (next'.live (reachable.run events).isCoherent) (by simp [none])
      · have hands : s.Hands [] (.error cause) :=
          ⟨(congrArg RunState.next same).trans handed, (congrArg RunState.stack same).trans top⟩
        exact .onward (by simp [none]) step (.inl ⟨[], List.suffix_refl _, hands⟩)
          (List.suffix_refl _) ((reachable.run before).cause_ends step hands after)
  | cons frame below ih =>
      rcases reachable.firm_run next (firm handed) events with
        ⟨none, next'⟩ | ⟨before, after, s, rfl, none, -, step, same⟩
      · exact .of_live (next'.live (reachable.run events).isCoherent) (by simp [none])
      have reachable' := reachable.run before
      have hands : s.Hands (frame :: below) (.error cause) :=
        ⟨(congrArg RunState.next same).trans handed, (congrArg RunState.stack same).trans top⟩
      have passes : s.PassesOn cause (frame :: below) := ⟨_, List.suffix_refl _, hands⟩
      have unsaved' : ∀ saved, .finalizing (.error saved) ∉ below :=
        fun saved listed => unsaved saved (List.mem_cons_of_mem _ listed)
      by_cases finalizer : ∃ finalizer, frame = .ensuring finalizer
      · obtain ⟨finalizer, rfl⟩ := finalizer
        refine .onward (by simp [none]) step (.inl passes) (List.suffix_refl _) ?_
        exact reachable'.cause_finalizes step hands
          (fun reachable next handed top => ih reachable next handed top unsaved' _) after
      · obtain ⟨-, ready, -⟩ := reachable'.stride step
        have listed : frame.Listed :=
          reachable'.listed ready rfl frame (hands.2 ▸ List.mem_cons_self)
        have passed : s.result.control = .done (.error cause) ∧ s.result.run.stack = below := by
          rw [Stride.result, Machine.stepRun_done hands.1 hands.2]
          exact Machine.resumeFrame_of_uncaught uncaught (fun fin same => finalizer ⟨fin, same⟩)
            (fun saved same => unsaved saved (same ▸ List.mem_cons_self)) listed
        refine .onward (by simp [none]) step (.inl passes) (List.suffix_cons _ _) ?_
        exact ih (reachable'.apply .work) (reachable'.next_of_stride step passed.1) rfl passed.2
          unsaved' after

/-- The frames that were on the stack see nothing but the cause, and call nothing. -/
theorem CausePasses.uncalled (passes : CausePasses f cause stack μ events)
    (uncaught : ∀ failure, cause ≠ .fail failure)
    (unsaved : ∀ saved, .finalizing (.error saved) ∉ stack) {s : Stride σ}
    (taken : s ∈ strides f μ events) (suffix : frame :: below <:+ stack)
    (hands : s.Hands (frame :: below) x) :
    x = .error cause ∧ (frame.calls = true → s.result =
      { control := .done (.error cause), run := { s.slice.run with stack := below }
        machine := s.machine }) := by
  obtain rfl : x = .error cause := by
    rcases passes.steps s taken with ⟨lower, -, handed, -⟩ | ⟨finalizer, lower, -, above⟩
    · exact Step.done.inj (hands.1.symm.trans handed)
    · -- a finalizer runs above a frame that was not on the stack
      rw [hands.2] at above
      exact absurd ((above.trans suffix).subset List.mem_cons_self) (unsaved cause)
  refine ⟨rfl, fun calls => ?_⟩
  rw [Stride.result, Machine.stepRun_done hands.1 hands.2]
  exact Machine.resumeFrame_of_calls calls uncaught

/-- Defects and interrupts are not caught inside a fiber.  When a cause other than a failure is what
a fiber hands on next, and no finalizer on its stack keeps an earlier cause, then the fiber ends
with this cause, if it ends; every step until then hands it on or belongs to a finalizer, and the
frames of the stack call nothing. -/
theorem Reachable.causes_are_not_caught (reachable : Reachable μ) (next : μ.Next f run)
    (handed : run.next = .done (.error cause)) (uncaught : ∀ failure, cause ≠ .fail failure)
    (unsaved : ∀ saved, .finalizing (.error saved) ∉ run.stack) (events : List (Event σ)) :
    (((μ.run events).machine.status f).isTerminal = true →
      (μ.run events).EndedWith f (.error cause)) ∧
    (∀ s ∈ strides f μ events, s.PassesOn cause run.stack ∨ s.Finalizes cause run.stack) ∧
    ∀ s ∈ strides f μ events, ∀ frame below x, frame :: below <:+ run.stack →
      s.Hands (frame :: below) x → x = .error cause ∧ (frame.calls = true → s.result =
        { control := .done (.error cause), run := { s.slice.run with stack := below }
          machine := s.machine }) := by
  have passes := reachable.cause_passes next handed rfl uncaught unsaved events
  exact ⟨passes.ends, passes.steps, fun s taken frame below x suffix hands =>
    passes.uncalled uncaught unsaved taken suffix hands⟩

/-! ## A defect under handlers -/

/-- User code that gives a value. -/
def givesNull : Action Unit (Node Unit) := pure (.succeed .null)

/-- A defect over a finalizer that fails, under a continuation and a handler that would give a
value. -/
def diesInside : Node Unit :=
  .recover (.flatMap (.ensuring (.fail (.die .typeMismatch)) (.fail (.fail (.plain "late"))))
    fun _ => givesNull) fun _ => givesNull

/-- That program after some operations of the worker. -/
def dyingInside (works : Nat) : Moment Unit :=
  (initial { host := () } 2048).run (.start diesInside :: List.replicate works .work)

theorem reachable_dyingInside (works : Nat) : Reachable (dyingInside works) :=
  (Reachable.initial _ _).run _

/-- The defect comes out, and not the failure of the finalizer. -/
theorem inner_defect_comes_out : let events : List (Event Unit) := List.replicate 20 .work
    (strides ⟨1⟩ (dyingInside 9) events).length = 6 ∧
    ((dyingInside 9).run events).EndedWith ⟨1⟩ (.error (.die .typeMismatch)) := by
  intro events
  let run : RunState Unit :=
    { next := .done (.error (.die .typeMismatch))
      stack := [.ensuring (.fail (.fail (.plain "late"))), .flatMap fun _ => givesNull,
        .recover fun _ => givesNull] }
  have next : (dyingInside 9).Next ⟨1⟩ run := .ready rfl
  have died : ((dyingInside 9).run events).machine.status ⟨1⟩ = .died := by decide
  have passes := (reachable_dyingInside 9).causes_are_not_caught next rfl (fun _ => nofun)
    (fun saved => by simp [run]) events
  exact ⟨rfl, passes.1 (died ▸ rfl)⟩

end Moment

end EffectFibers
